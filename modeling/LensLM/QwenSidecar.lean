import LensLM.Lib.ByteText
import LensLM.Lib.EventRuns
import LensLM.Lib.LinePipe
import LensLM.Lib.Slots
import Mathlib.Data.List.Pairwise

/-!
# The speech sidecar

Turns are spoken one after the other by one child process. A request is a line written to it and a
reply a line read from it, and a turn can be cancelled in the middle of either. What was written of a
request spoils the next line, but what was read of a reply is lost, with the path of its file.
-/

namespace LensLM.QwenSidecar

open ByteText EventRuns LinePipe

set_option autoImplicit false

/-- A synth request; its operation and its language are always the same. -/
structure Request where
  id : Nat
  text : Str
  speaker : Str
  instruct : Str
deriving DecidableEq

structure SynthReply where
  id : Nat
  ok : Bool
  path : Option Str
deriving DecidableEq

inductive ReadReply where
  | notUtf8
  | unparseable
  | reply (reply : SynthReply)
deriving DecidableEq

/-- What a reply tells: the path of a file, or an error. -/
def synthReply (id : Nat) : Except Str Str → SynthReply
  | .ok path => ⟨id, true, some path⟩
  | .error _ => ⟨id, false, none⟩

/-- What lies outside: the lines as the two programs spell and read them, and the file system's
answer whether a path is in the temporary directory. -/
structure Outside (B : Type) where
  newline : B
  request : Request → List B
  reply : Nat → Except Str Str → List B
  readRequest : List B → Option Request
  readReply : List B → ReadReply
  inTempDir : Str → Bool

/-- A temporary file with its decoded audio, and the turn for which it was written. -/
structure Wav (A : Type) where
  path : Str
  audio : Option A
  owner : Nat
deriving DecidableEq

inductive TurnError where
  | dead
  | failed
deriving DecidableEq

/-- An answer of the child to a request. -/
abbrev Answer (A : Type) := Nat × Except Str (Wav A)

inductive Host (B : Type) where
  | idle
  -- what the turn has not written yet of its request
  | writing (id : Nat) (rest : List B)
  -- what the turn has read of a line
  | reading (id : Nat) (line : List B)
  | dead
deriving DecidableEq

def Host.line {B : Type} : Host B → List B
  | .reading _ line => line
  | .idle | .writing _ _ | .dead => []

/-- One child, its two pipes, the temporary files, and what has happened so far. The turns that have
returned are those that were neither cancelled nor timed out. -/
structure Sidecar (B A : Type) where
  nextId : Nat
  host : Host B
  stdin : List B
  waiting : List Request
  stdout : List B
  wavs : List (Wav A)
  asked : List Request
  received : List Request
  replies : List (Answer A)
  returned : List (Nat × Except TurnError A)

/-- A cancelled turn is dropped at any await, and so between any two bytes. -/
inductive Event (A : Type) where
  | turn (text speaker instruct : Str)
  | write
  | take
  | answer (result : Except Str (Str × Option A))
  | read
  | cancel
  | timeout

def MAX_REPLY_BYTES : Nat := 64 * 1024

/-- The last component of a path. -/
def fileName (path : Str) : Option Str :=
  ((path.splitOn '/').filter fun c => c ≠ [] ∧ c ≠ ['.']).getLast?

def readWav {A : Type} (wavs : List (Wav A)) (path : Str) : Except TurnError A :=
  match (wavs.find? (·.path = path)).bind Wav.audio with
  | some audio => .ok audio
  | none => .error .failed

def removeFile {A : Type} (wavs : List (Wav A)) (path : Str) : List (Wav A) :=
  wavs.filter (·.path ≠ path)

section Model

variable {B A : Type} [DecidableEq B] (o : Outside B)

def isValidTurnWav (path : Str) : Bool :=
  match fileName path with
  | none => false
  | some name =>
    "qwen-turn-".toList.isPrefixOf name && ".wav".toList.isSuffixOf name && o.inTempDir path

namespace Sidecar

def spawned : Sidecar B A := ⟨1, .idle, [], [], [], [], [], [], [], []⟩

/-- The child is killed, and what it has not done yet is lost with its pipes. -/
def kill (s : Sidecar B A) : Sidecar B A :=
  { s with host := .dead, stdin := [], waiting := [], stdout := [] }

def died (s : Sidecar B A) (id : Nat) : Sidecar B A :=
  { s.kill with returned := s.returned ++ [(id, .error .dead)] }

def beginTurn (s : Sidecar B A) (text speaker instruct : Str) : Sidecar B A :=
  match s.host with
  | .idle =>
    let request : Request := ⟨s.nextId, text, speaker, instruct⟩
    { s with
      nextId := s.nextId + 1
      host := .writing request.id (o.request request ++ [o.newline])
      asked := s.asked ++ [request] }
  | .writing _ _ | .reading _ _ | .dead => s

def writeByte (s : Sidecar B A) : Sidecar B A :=
  match s.host with
  | .writing id (b :: rest) =>
    { s with
      stdin := s.stdin ++ [b]
      host := if rest.isEmpty then .reading id [] else .writing id rest }
  | .writing _ [] | .idle | .reading _ _ | .dead => s

/-- A reply to the turn itself ends it. -/
def settle (s : Sidecar B A) (id : Nat) (reply : SynthReply) : Sidecar B A :=
  let s := { s with host := .idle }
  if !reply.ok then { s with returned := s.returned ++ [(id, .error .failed)] }
  else
    match reply.path with
    | none => { s with returned := s.returned ++ [(id, .error .failed)] }
    | some path =>
      if !isValidTurnWav o path then { s with returned := s.returned ++ [(id, .error .failed)] }
      else
        { s with
          returned := s.returned ++ [(id, readWav s.wavs path)]
          wavs := removeFile s.wavs path }

/-- The reply to a turn that was cancelled is skipped, and its file deleted. -/
def skipStale (s : Sidecar B A) (id : Nat) (path : Option Str) : Sidecar B A :=
  let s := { s with host := .reading id [] }
  match path with
  | none => s
  | some path =>
    if isValidTurnWav o path then { s with wavs := removeFile s.wavs path } else s

/-- One round of `drain_until`, when the line is complete. -/
def drainLine (s : Sidecar B A) (id : Nat) (line : List B) : Sidecar B A :=
  match o.readReply line with
  | .notUtf8 => s.died id
  | .unparseable => { s with host := .reading id [] }
  | .reply reply => if reply.id = id then s.settle o id reply else s.skipStale o id reply.path

def readByte (s : Sidecar B A) : Sidecar B A :=
  match s.host, s.stdout with
  | .reading id line, b :: rest =>
    let s := { s with stdout := rest }
    let line := line ++ [b]
    if b = o.newline then s.drainLine o id line
    else if MAX_REPLY_BYTES ≤ line.length then s.died id
    else { s with host := .reading id line }
  | _, _ => s

/-- The sidecar takes a line, which it leaves without an answer unless it is a request. -/
def takeLine (s : Sidecar B A) : Sidecar B A :=
  match nextLine o.newline s.stdin with
  | none => s
  | some (line, rest) =>
    match o.readRequest line with
    | none => { s with stdin := rest }
    | some q =>
      { s with stdin := rest, waiting := s.waiting ++ [q], received := s.received ++ [q] }

/-- An answer that the sidecar can give: a new file of its kind, in a line of the usual length. -/
def CanAnswer (s : Sidecar B A) (id : Nat) : Except Str (Str × Option A) → Prop
  | .ok file => (o.reply id (.ok file.1)).length < MAX_REPLY_BYTES ∧
      isValidTurnWav o file.1 = true ∧ file.1 ∉ s.wavs.map Wav.path
  | .error message => (o.reply id (.error message)).length < MAX_REPLY_BYTES

instance (s : Sidecar B A) (id : Nat) (result : Except Str (Str × Option A)) :
    Decidable (s.CanAnswer o id result) :=
  match result with
  | .ok _ => inferInstanceAs (Decidable (_ ∧ _ ∧ _))
  | .error _ => inferInstanceAs (Decidable (_ < _))

/-- The sidecar answers the first request that waits, in a line of its own. -/
def answer (s : Sidecar B A) (result : Except Str (Str × Option A)) : Sidecar B A :=
  match s.waiting with
  | [] => s
  | q :: waiting =>
    if s.CanAnswer o q.id result then
      let wav := result.map fun file => (⟨file.1, file.2, q.id⟩ : Wav A)
      { s with
        waiting := waiting
        stdout := s.stdout ++ (o.reply q.id (wav.map Wav.path) ++ [o.newline])
        wavs := s.wavs ++ wav.toOption.toList
        replies := s.replies ++ [(q.id, wav)] }
    else s

def cancel (s : Sidecar B A) : Sidecar B A :=
  match s.host with
  | .dead => s
  | .idle | .writing _ _ | .reading _ _ => { s with host := .idle }

def timeout (s : Sidecar B A) : Sidecar B A :=
  match s.host with
  | .reading _ _ => s.kill
  | .idle | .writing _ _ | .dead => s

def step (s : Sidecar B A) : Event A → Sidecar B A
  | .turn text speaker instruct => s.beginTurn o text speaker instruct
  | .write => s.writeByte
  | .take => s.takeLine o
  | .answer result => s.answer o result
  | .read => s.readByte o
  | .cancel => s.cancel
  | .timeout => s.timeout

end Sidecar

/-! ## What is promised -/

/-- What a turn returns for an answer. -/
def outcome : Except Str (Wav A) → Except TurnError A
  | .ok wav => match wav.audio with
    | some audio => .ok audio
    | none => .error .failed
  | .error _ => .error .failed

/-- What holds of a turn that has returned. -/
structure Served (s : Sidecar B A) (id : Nat) (result : Except TurnError A) : Prop where
  own : ∃ r, (id, r) ∈ s.replies ∧ (∀ r', (id, r') ∈ s.replies → r' = r) ∧ result = outcome r
  request : ∃ q ∈ s.asked, q.id = id ∧ (∀ q' ∈ s.asked, q'.id = id → q' = q) ∧ q ∈ s.received ∧
    (s.received.map Request.id).count id = 1
  files : ∀ w ∈ s.wavs, id < w.owner

/-- Every turn that was neither cancelled nor timed out got the answer to its own request, which was
received once, and left no file of a turn before it. -/
def Isolated (s : Sidecar B A) : Prop :=
  ∀ p ∈ s.returned, Served s p.1 p.2

/-- No turn is cancelled in the middle of a line that it reads. -/
def NotMidReply (s : Sidecar B A) : Event A → Prop
  | .cancel => s.host.line = []
  | .turn _ _ _ | .write | .take | .answer _ | .read | .timeout => True

instance (s : Sidecar B A) (e : Event A) : Decidable (NotMidReply s e) :=
  match e with
  | .cancel => inferInstanceAs (Decidable (s.host.line = []))
  | .turn _ _ _ | .write | .take | .answer _ | .read | .timeout =>
    inferInstanceAs (Decidable True)

/-- The lines of the two programs: no line end in a request or a reply, each is read as it was
written, and what is left of cancelled requests is no request with the next one behind it. -/
structure Outside.Lawful (o : Outside B) : Prop where
  request_open : ∀ q, o.newline ∉ o.request q
  reply_open : ∀ id result, o.newline ∉ o.reply id result
  readRequest_request : ∀ q, o.readRequest (o.request q) = some q
  readRequest_glued : ∀ (scraps : List (List B)) (q : Request),
    (∀ p ∈ scraps, ∃ q', p <+: o.request q') → scraps.flatten ≠ [] →
      o.readRequest (scraps.flatten ++ o.request q) = none
  readReply_reply : ∀ id result,
    o.readReply (o.reply id result ++ [o.newline]) = .reply (synthReply id result)

end Model

end LensLM.QwenSidecar
