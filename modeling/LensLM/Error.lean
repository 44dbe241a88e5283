/-!
# Engine errors

Every variant carries its message.
-/

namespace LensLM

set_option autoImplicit false

inductive LensError where
  | validation (message : String)
  | internal (message : String)
  | io (message : String)
  | parse (message : String)
  | model (message : String)
  | network (message : String)
  | vector (message : String)
  | unsupportedMediaCodec (message : String)
  | mediaDecodeFailed (message : String)
  | emptyAudio (message : String)
  | transcription (message : String)
  | cancelled (message : String)
  | tts (message : String)
  | reindexing (message : String)
  | insufficientSpace (message : String)
  | integrityCheckFailed (message : String)
deriving DecidableEq, Repr

def LensError.kind : LensError → String
  | .validation _ => "Validation"
  | .internal _ => "Internal"
  | .io _ => "Io"
  | .parse _ => "Parse"
  | .model _ => "Model"
  | .network _ => "Network"
  | .vector _ => "Vector"
  | .unsupportedMediaCodec _ => "UnsupportedMediaCodec"
  | .mediaDecodeFailed _ => "MediaDecodeFailed"
  | .emptyAudio _ => "EmptyAudio"
  | .transcription _ => "Transcription"
  | .cancelled _ => "Cancelled"
  | .tts _ => "Tts"
  | .reindexing _ => "Reindexing"
  | .insufficientSpace _ => "InsufficientSpace"
  | .integrityCheckFailed _ => "IntegrityCheckFailed"

def LensError.message : LensError → String
  | .validation m | .internal m | .io m | .parse m | .model m | .network m | .vector m
  | .unsupportedMediaCodec m | .mediaDecodeFailed m | .emptyAudio m | .transcription m
  | .cancelled m | .tts m | .reindexing m | .insufficientSpace m | .integrityCheckFailed m => m

/-- A failure as a source keeps it. -/
structure ErrorMeta where
  kind : String
  message : String
  timestamp : String
  attemptCount : Nat
deriving DecidableEq, Repr

def ErrorMeta.fromError (err : LensError) (timestamp : String) (attemptCount : Nat) : ErrorMeta :=
  ⟨err.kind, err.message, timestamp, attemptCount⟩

end LensLM
