import LensLM.Anchors
import LensLM.Settings
import LensLM.Resolution
import LensLM.Lib.Effects

/-!
# The transcription of a clip

A clip goes to the engine of Apple, to a cloud provider or to the local Whisper model. An engine
that fails or is not sure of its transcript hands the clip to another one.
-/

namespace LensLM

open ByteText Effects

set_option autoImplicit false

section Values

/-- A single-precision float. NaN is `none`. -/
abbrev F32 := Option Conf

def F32.lt : F32 → F32 → Bool
  | some a, some b => a < b
  | _, _ => false

/-- `clamp(0.0, 1.0)` -/
def F32.clampUnit (x : F32) : F32 := x.map fun c => max (.ofRat 0) (min c (.ofRat 1))

structure TranscriptOutput where
  segments : List (TranscriptSegment F32)
  confidence : Option F32

inductive Lang where
  | en | de | fr | es | it | pt | nl | ru | zh | ja | ko
  | other (code : Str)
deriving DecidableEq

def langToWhisperCode : Lang → Str
  | .en => "en".toList
  | .de => "de".toList
  | .fr => "fr".toList
  | .es => "es".toList
  | .it => "it".toList
  | .pt => "pt".toList
  | .nl => "nl".toList
  | .ru => "ru".toList
  | .zh => "zh".toList
  | .ja => "ja".toList
  | .ko => "ko".toList
  | .other code => code

structure TranscribeConfig where
  language : Option Lang
  translate : Bool
deriving DecidableEq

/-- The settings of the transcription that the other parts do not look at. -/
structure AsrRest where
  whisperModel : Str
  cloudApiKey : Str
  appleMinConfidence : F32

/-- The segments, and the engine that has returned them. -/
structure EngineTranscript where
  engine : AsrBackend
  segments : List (TranscriptSegment F32)

def isUserCancel : LensError → Bool
  | .cancelled _ => true
  | .transcription msg => decide ("cancel".toList <:+: msg.toList.map Char.toLower)
  | _ => false

def cancelled : LensError := .cancelled "transcription cancelled"

end Values

section Timeline

/-- When a call returns or the token is looked at, in the order of a run. Every run comes at most
once to each. -/
inductive Moment where
  | start
  | cloudPolled
  | cloudReturned
  | cloudChecked
  | appleReturned
  | appleChecked
  | whisperChecked
  | loaded
  | stateCreated
  | decoded
  | decodedChecked
  | segmentsRead
deriving DecidableEq, Repr

def Moment.index : Moment → Nat
  | .start => 0
  | .cloudPolled => 1
  | .cloudReturned => 2
  | .cloudChecked => 3
  | .appleReturned => 4
  | .appleChecked => 5
  | .whisperChecked => 6
  | .loaded => 7
  | .stateCreated => 8
  | .decoded => 9
  | .decodedChecked => 10
  | .segmentsRead => 11

/-- The world of a run is when an engine has returned last. -/
abbrev AsrRun (ε α : Type) : Type := Eff ε (Option Moment) α

/-- A call that returns. -/
def called {ε α : Type} (m : Moment) (r : Except ε α) : AsrRun ε α :=
  ExceptT.mk fun _ => (r, some m)

def returning {ε α : Type} (r : Except ε α) : AsrRun ε α := ExceptT.mk fun s => (r, s)

end Timeline

section Host

structure AppleEngine (Pcm : Type) where
  /-- The probe, whose task may fail. -/
  supportsLocale : Lang → Except String Bool
  transcribePcm : Pcm → TranscribeConfig → Except LensError TranscriptOutput

structure RawSegment where
  text : Except String Str
  startTimestamp : ℤ
  endTimestamp : ℤ

/-- A loaded model, and what a run of it meets. -/
structure WhisperEngine (Pcm : Type) where
  /-- The moment at which the task of the inference fails, if it does. -/
  taskFailure : Option (Moment × String)
  lock : Except String Unit
  createState : Except String Unit
  full : Pcm → Option Str → Bool → Except String Unit
  segmentCount : Except String ℕ
  segments : List RawSegment

structure WhisperModelSpec where
  id : Str
deriving DecidableEq

def whisperRegistry : List WhisperModelSpec :=
  [⟨"tiny".toList⟩, ⟨"base".toList⟩, ⟨"small".toList⟩]

def defaultWhisperModelId : Str := "base".toList

def resolveWhisper (modelId : Str) : Option WhisperModelSpec :=
  whisperRegistry.find? fun s => s.id = modelId

/-- What a run meets. The file of a model is looked for twice. -/
structure AsrHost (Pcm : Type) where
  injected : Option (AppleEngine Pcm)
  localWhisperBuilt : Bool
  modelFile : WhisperModelSpec → Bool
  modelFileAtLoad : WhisperModelSpec → Bool
  cachedEngine : WhisperModelSpec → Option (WhisperEngine Pcm)
  load : WhisperModelSpec → Except LensError (WhisperEngine Pcm)
  cloud : CloudAsrProvider → Str → Str → Str → Pcm → TranscribeConfig →
    Except LensError TranscriptOutput
  isTransportSafeBaseUrl : Str → Bool
  /-- Hundredths of a second as seconds. -/
  seconds : ℤ → F32
  /-- The first moment at which the token is seen to have tripped. -/
  tripped : Option Moment

end Host

namespace AsrHost

variable {Pcm : Type} (host : AsrHost Pcm)

def isCancelled (m : Moment) : Bool :=
  match host.tripped with
  | some t => t.index ≤ m.index
  | none => false

def checkCancelled (m : Moment) : AsrRun LensError Unit :=
  if host.isCancelled m then throw cancelled else pure ()

section Whisper

variable (asrCfg : AsrRest) (pcm : Pcm) (config : TranscribeConfig)

def whisperSpec : Option WhisperModelSpec :=
  (resolveWhisper asrCfg.whisperModel).or (resolveWhisper defaultWhisperModelId)

def localWhisperAvailable : Bool :=
  host.localWhisperBuilt &&
    match whisperSpec asrCfg with
    | some spec => host.modelFile spec
    | none => false

def whisperEngineFor : Except LensError (WhisperEngine Pcm) :=
  match whisperSpec asrCfg with
  | none => .error (.validation "no resolvable whisper model id")
  | some spec =>
    match host.cachedEngine spec with
    | some engine => .ok engine
    | none =>
      if host.modelFileAtLoad spec then host.load spec
      else .error (.transcription ("whisper model \"" ++ String.ofList spec.id ++
        "\" is not downloaded; fetch it via the onboarding download step first"))

def readSegments (engine : WhisperEngine Pcm) :
    Except LensError (List (TranscriptSegment F32)) := do
  let _ ← engine.segmentCount.mapError fun e =>
    LensError.transcription ("invalid segment count: " ++ e)
  engine.segments.mapM fun seg => do
    let text ← seg.text.mapError fun e =>
      LensError.transcription ("segment text decode failed: " ++ e)
    return ⟨trim text, host.seconds seg.startTimestamp, host.seconds seg.endTimestamp⟩

/-- The abort callback only ends `full` early. -/
def runInference (engine : WhisperEngine Pcm) :
    AsrRun LensError (List (TranscriptSegment F32)) := do
  called .stateCreated
    (engine.lock.mapError fun e => .transcription ("whisper context lock poisoned: " ++ e))
  called .stateCreated
    (engine.createState.mapError fun e => .transcription ("failed to create whisper state: " ++ e))
  let fullResult ← attempt (called .decoded
    (engine.full pcm (config.language.map langToWhisperCode) config.translate))
  if host.isCancelled .decodedChecked then
    throw (.cancelled "whisper transcription cancelled")
  returning (fullResult.mapError fun e => .transcription ("whisper transcription failed: " ++ e))
  called .segmentsRead (host.readSegments engine)

def transcribePcmCancellable (engine : WhisperEngine Pcm) :
    AsrRun LensError (List (TranscriptSegment F32)) :=
  match engine.taskFailure with
  | some (m, e) => called m (.error (.transcription ("whisper inference task failed: " ++ e)))
  | none => host.runInference pcm config engine

def transcribeLocalWhisper : AsrRun LensError (List (TranscriptSegment F32)) :=
  if host.localWhisperBuilt then do
    host.checkCancelled .whisperChecked
    let engine ← called .loaded (host.whisperEngineFor asrCfg)
    host.transcribePcmCancellable pcm config engine
  else
    throw (.transcription
      "local whisper feature not built (build lens-core with the `local-whisper` feature)")

end Whisper

section Cloud

inductive CloudDegradeCause where
  | misconfigured
  | transient
deriving DecidableEq, Repr

namespace CloudDegradeCause

def appleLabel : CloudDegradeCause → String
  | .misconfigured => "apple_native (cloud misconfigured)"
  | .transient => "apple_native (fallback)"

def whisperLabel : CloudDegradeCause → String
  | .misconfigured => "local_whisper (cloud misconfigured)"
  | .transient => "local_whisper (fallback)"

def preferredError (cause : CloudDegradeCause) (cloudErr localErr : LensError) : LensError :=
  if isUserCancel localErr || cause = .transient then localErr else cloudErr

end CloudDegradeCause

def keyRejected : String := "cloud ASR rejected the API key"

def isKeyRejection (err : LensError) : Bool := err = .validation keyRejected

variable (appConfig : AppConfig AsrRest) (pcm : Pcm) (config : TranscribeConfig)

def preflightCheck : Except LensError Unit :=
  if !appConfig.audioCloudConsent then .error (.validation "audio cloud consent not granted")
  else if (trim appConfig.others.cloudApiKey).isEmpty then
    .error (.validation "no cloud ASR API key configured")
  else if appConfig.asr.cloudProvider.isNone then
    .error (.validation "no cloud ASR provider configured")
  else if (trim appConfig.asr.cloudBaseUrl).isEmpty then
    .error (.validation "no cloud ASR base URL configured")
  else if (trim appConfig.asr.cloudModel).isEmpty then
    .error (.validation "no cloud ASR model configured")
  else if !host.isTransportSafeBaseUrl (trim appConfig.asr.cloudBaseUrl) then
    .error (.validation
      "cloud ASR base URL must be https, or http on a loopback or private-network host")
  else .ok ()

def cloudTranscribe : AsrRun (LensError × CloudDegradeCause) (List (TranscriptSegment F32)) := do
  returning ((host.preflightCheck appConfig).mapError fun e => (e, .misconfigured))
  match appConfig.asr.cloudProvider with
  | none => throw (.validation "no cloud ASR provider configured", .misconfigured)
  | some provider =>
    let output ← called .cloudReturned
      ((host.cloud provider (trim appConfig.asr.cloudBaseUrl) (trim appConfig.asr.cloudModel)
        (trim appConfig.others.cloudApiKey) pcm config).mapError fun e =>
          (e, if isKeyRejection e then .misconfigured else .transient))
    return output.segments

end Cloud

section Route

def minMacosForAppleAsr : Nat := 26

structure Platform where
  isAppleSiliconMacos : Bool
  macosMajor : Option Nat

def selectAsrBackend (configBackend : Option AsrBackend) (platform : Platform)
    (appleAvailable appleSupportsLocale : Bool) : AsrBackend :=
  match configBackend with
  | some b => b
  | none =>
    if !appleAvailable then .localWhisper
    else if !(platform.isAppleSiliconMacos &&
        platform.macosMajor.any fun v => minMacosForAppleAsr ≤ v) then .localWhisper
    else if !appleSupportsLocale then .localWhisper
    else .appleNative

variable (appConfig : AppConfig AsrRest) (language : Option Lang) (translate : Bool)

def configBackend : Option AsrBackend := AsrBackend.fromOptStr (some appConfig.asr.backend)

/-- An engine that is injected stands for a platform that can run it. -/
def platform : Platform :=
  ⟨host.injected.isSome, if host.injected.isSome then some minMacosForAppleAsr else none⟩

/-- The engine is asked about the language only if its answer decides. -/
def appleSupportsLocale : Except LensError Bool :=
  match language, host.injected with
  | some lang, some engine =>
    if (configBackend appConfig).isNone && !translate then
      (engine.supportsLocale lang).mapError fun e =>
        .transcription ("locale probe task failed: " ++ e)
    else .ok true
  | _, _ => .ok true

def resolveAsrRoute : Except LensError AsrBackend := do
  let supports ← host.appleSupportsLocale appConfig language translate
  let backend := selectAsrBackend (configBackend appConfig) host.platform host.injected.isSome
    supports
  return if translate && backend = .appleNative then .localWhisper else backend

/-- A backend that cannot run, as the one that runs in its place. -/
def demoteUnrunnableBackend (routed : AsrBackend) (appleAvailable : Bool) : AsrBackend :=
  match routed with
  | .cloud =>
    match host.preflightCheck appConfig with
    | .error _ => if appleAvailable then .appleNative else .localWhisper
    | .ok _ => .cloud
  | .appleNative => if !appleAvailable then .localWhisper else .appleNative
  | .localWhisper => .localWhisper

def resolveAsrBackendWith : Except LensError AsrBackend := do
  let routed ← host.resolveAsrRoute appConfig language translate
  return host.demoteUnrunnableBackend appConfig routed host.injected.isSome

end Route

section Cascade

variable (appConfig : AppConfig AsrRest) (pcm : Pcm) (config : TranscribeConfig)

/-- The engine of the transcript comes with its segments. -/
def whisperTranscript (label : String) : AsrRun LensError (EngineTranscript × String) := do
  let segs ← host.transcribeLocalWhisper appConfig.others pcm config
  return (⟨.localWhisper, segs⟩, label)

def cloudFallbackToLocal (cloudErr : LensError) (cause : CloudDegradeCause) :
    AsrRun LensError (EngineTranscript × String) :=
  match host.injected with
  | some engine => do
    let appleResult ← attempt (called .appleReturned (engine.transcribePcm pcm config))
    host.checkCancelled .appleChecked
    match appleResult with
    | .ok output => return (⟨.appleNative, output.segments⟩, cause.appleLabel)
    | .error appleErr =>
      if !isUserCancel appleErr && host.localWhisperAvailable appConfig.others then
        let rerun ← attempt (host.whisperTranscript appConfig pcm config cause.whisperLabel)
        returning (rerun.mapError (cause.preferredError cloudErr))
      else throw (cause.preferredError cloudErr appleErr)
  | none =>
    if host.localWhisperAvailable appConfig.others then do
      let rerun ← attempt (host.whisperTranscript appConfig pcm config cause.whisperLabel)
      returning (rerun.mapError (cause.preferredError cloudErr))
    else throw cloudErr

/-- The aggregate confidence is below the floor. -/
def degraded (output : TranscriptOutput) : Bool :=
  output.confidence.any fun c => F32.lt c appConfig.others.appleMinConfidence.clampUnit

def transcribeAppleNative (engine : AppleEngine Pcm) :
    AsrRun LensError (EngineTranscript × String) := do
  let appleResult ← attempt (called .appleReturned (engine.transcribePcm pcm config))
  host.checkCancelled .appleChecked
  match appleResult with
  | .ok output =>
    if degraded appConfig output && host.localWhisperAvailable appConfig.others then
      let rerun ← attempt (host.whisperTranscript appConfig pcm config "local_whisper (degraded)")
      match rerun with
      | .ok transcript => return transcript
      | .error e =>
        if isUserCancel e then throw e
        else return (⟨.appleNative, output.segments⟩, "apple_native (degraded)")
    else return (⟨.appleNative, output.segments⟩, "apple_native")
  | .error appleErr =>
    if !isUserCancel appleErr && host.localWhisperAvailable appConfig.others then
      host.whisperTranscript appConfig pcm config "local_whisper (fallback)"
    else throw appleErr

/-- The token wins a race against the request up to its last poll. -/
def transcribeCloud : AsrRun LensError (EngineTranscript × String) := do
  host.checkCancelled .cloudPolled
  let cloudResult ← attempt (host.cloudTranscribe appConfig pcm config)
  match cloudResult with
  | .ok segments => return (⟨.cloud, segments⟩, "cloud")
  | .error (cloudErr, cause) =>
    host.checkCancelled .cloudChecked
    if isUserCancel cloudErr then throw cloudErr
    else host.cloudFallbackToLocal appConfig pcm config cloudErr cause

def transcribe : AsrRun LensError (EngineTranscript × String) := do
  host.checkCancelled .start
  let backend ← returning (host.resolveAsrRoute appConfig config.language config.translate)
  match backend, host.injected with
  | .appleNative, some engine => host.transcribeAppleNative appConfig pcm config engine
  | .localWhisper, _ => host.whisperTranscript appConfig pcm config "local_whisper"
  | .appleNative, none =>
    if host.localWhisperAvailable appConfig.others then
      host.whisperTranscript appConfig pcm config "local_whisper (fallback)"
    else throw (.transcription "apple-native backend selected but no engine is injected")
  | .cloud, _ => host.transcribeCloud appConfig pcm config

end Cascade

end AsrHost

end LensLM
