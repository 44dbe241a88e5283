import LensLM.CancelRegistries
import LensLM.Error
import LensLM.Lib.ByteText
import LensLM.Lib.Programs

/-!
# The audio overview of a notebook

A run makes a script of the sources and synthesizes it into a file of its own, which it renames to
the overview of the notebook before it writes the row. All runs share that file and that row.
-/

namespace LensLM

open ByteText Programs Program

set_option autoImplicit false

section Overview

inductive AudioOverviewStatus where
  | ready
  | failed
  | stale
  | missing
deriving DecidableEq, Repr

/-- The overview of the notebook, or the file of one run. -/
inductive OverviewFile where
  | overview
  | temp (id : Nat)
deriving DecidableEq, Repr

structure OverviewRow (J : Type) where
  path : OverviewFile
  generatedAt : Str
  status : AudioOverviewStatus
  sourceSetHash : Str
  script : Option J
deriving DecidableEq

variable {S A J : Type}

/-- The serialization of a script, and texts of errors. -/
structure OverviewHost (S J : Type) where
  scriptJson : S → Option J
  noTtsBackendReason : String
  debug : Str → String

inductive OverviewCmd (S A J : Type) where
  | ttsBackendAvailable
  | registerTts
  | cancelSynthesis
  | removeTtsIfOwner (owner : Token)
  | isCancelled (token : Token)
  | sourceSetHash
  | generateDialogue (token : Token)
  | resolveTtsProvider
  | synthesizeScript (script : S) (token : Token)
  | createDirAll
  | nowV7
  | writeWav (buffer : A) (tmp : Nat)
  | removeFileBestEffort (tmp : Nat)
  | rename (tmp : Nat)
  | utcNow
  | upsertOverview (row : OverviewRow J)

@[reducible] def OverviewCmd.Reply : OverviewCmd S A J → Type
  | .ttsBackendAvailable => Bool
  | .registerTts => Token
  | .cancelSynthesis => Bool
  | .removeTtsIfOwner _ => Unit
  | .isCancelled _ => Bool
  | .sourceSetHash => Str
  | .generateDialogue _ => S
  | .resolveTtsProvider => Bool
  | .synthesizeScript _ _ => A
  | .createDirAll => Unit
  | .nowV7 => Nat
  | .writeWav _ _ => Unit
  | .removeFileBestEffort _ => Unit
  | .rename _ => Unit
  | .utcNow => Str
  | .upsertOverview _ => Unit

abbrev OverviewProgram (S A J : Type) := Program (OverviewCmd S A J) OverviewCmd.Reply LensError

def OverviewCmd.issue (c : OverviewCmd S A J) : OverviewProgram S A J c.Reply := perform c

/-- The overview of a notebook, whose id does not leave the directory of the notebooks. -/
def notebookAudioPath (debug : Str → String) (notebookId : Str) : Except LensError OverviewFile :=
  let looksLikeTraversal := notebookId.isEmpty || notebookId.contains '/' ||
    notebookId.contains '\\' || decide (['.', '.'] <:+: notebookId)
  if looksLikeTraversal then .error (.validation ("invalid notebook id: " ++ debug notebookId))
  else .ok .overview

variable (host : OverviewHost S J) (notebookId : Str)

/-- The overview's path, once the audio of the script is in it. -/
def synthesizeOverview (script : S) (token : Token) : OverviewProgram S A J OverviewFile := do
  let provider ← OverviewCmd.resolveTtsProvider.issue
  if provider then
    let buffer ← (OverviewCmd.synthesizeScript script token).issue
    let path ← ofExcept (notebookAudioPath host.debug notebookId)
    OverviewCmd.createDirAll.issue
    let tmp ← OverviewCmd.nowV7.issue
    (OverviewCmd.writeWav buffer tmp).issue.handle fun e => do
      (OverviewCmd.removeFileBestEffort tmp).issue
      .fail e
    let cancelled ← (OverviewCmd.isCancelled token).issue
    if cancelled then
      (OverviewCmd.removeFileBestEffort tmp).issue
      .fail (.cancelled "overview synthesis cancelled")
    else
      (OverviewCmd.rename tmp).issue.handle fun e => do
        (OverviewCmd.removeFileBestEffort tmp).issue
        .fail e
      return path
  else .fail (.tts host.noTtsBackendReason)

def persistOverviewFailed (sourceSetHash : Str) : OverviewProgram S A J Unit := do
  let path ← ofExcept (notebookAudioPath host.debug notebookId)
  let generatedAt ← OverviewCmd.utcNow.issue
  (OverviewCmd.upsertOverview ⟨path, generatedAt, .failed, sourceSetHash, none⟩).issue

/-- A step that is cancelled ends the run without a row, and one that fails ends it with a row
that says so. -/
def settleOverview {α β : Type} (sourceSetHash : Str) (result : Except LensError α)
    (next : α → OverviewProgram S A J (Option β)) : OverviewProgram S A J (Option β) :=
  match result with
  | .ok a => next a
  | .error (.cancelled _) => return none
  | .error e => do
    persistOverviewFailed host notebookId sourceSetHash
    .fail e

def generateAndPersistOverview (token : Token) :
    OverviewProgram S A J (Option OverviewFile) := do
  let cancelled ← (OverviewCmd.isCancelled token).issue
  if cancelled then return none
  else
    let sourceSetHash ← OverviewCmd.sourceSetHash.issue
    let dialogue ← attempt (OverviewCmd.generateDialogue token).issue
    settleOverview host notebookId sourceSetHash dialogue fun script => do
      let synthesized ← attempt (synthesizeOverview host notebookId script token)
      settleOverview host notebookId sourceSetHash synthesized fun path => do
        let generatedAt ← OverviewCmd.utcNow.issue
        (OverviewCmd.upsertOverview
          ⟨path, generatedAt, .ready, sourceSetHash, host.scriptJson script⟩).issue
        return some path

/-- The guard removes the token at the end, whatever the end is. -/
def synthesizeOverviewCommand : OverviewProgram S A J OverviewFile := do
  let available ← OverviewCmd.ttsBackendAvailable.issue
  if available then
    let token ← OverviewCmd.registerTts.issue
    let run : OverviewProgram S A J OverviewFile := do
      let path ← generateAndPersistOverview host notebookId token
      match path with
      | some path => return path
      | none => .fail (.cancelled "overview generation cancelled")
    run.ensuring (OverviewCmd.removeTtsIfOwner token).issue
  else .fail (.tts "no TTS backend available; install an engine")

inductive OverviewJob where
  | synthesizeOverview
  | cancelSynthesis
deriving DecidableEq, Repr

def OverviewJob.program : OverviewJob → OverviewProgram S A J Unit
  | .synthesizeOverview => do
    let _ ← synthesizeOverviewCommand host notebookId
    return ()
  | .cancelSynthesis => do
    let _ ← OverviewCmd.cancelSynthesis.issue
    return ()

end Overview

section Machine

variable {S A J ι : Type}

/-- What the runs of a notebook share. -/
structure OverviewState (A J : Type) where
  tokens : CancelTokens
  row : Option (OverviewRow J)
  files : OverviewFile → Option A
  nextTemp : Nat

/-- What a command meets outside. -/
structure OverviewChoice (S A : Type) where
  fault : Option LensError
  available : Bool
  text : Str
  script : S
  buffer : A

/-- What a run has seen: the hash, the script with its audio, the id of its file, whether that
file is written, and whether it is renamed and the row is not written. -/
structure OverviewNotes (S A : Type) where
  hash : Option Str
  voiced : Option (S × A)
  temp : Option Nat
  written : Bool
  published : Bool

def OverviewNotes.start : OverviewNotes S A := ⟨none, none, none, false, false⟩

def OverviewState.setFile (s : OverviewState A J) (f : OverviewFile) (a : Option A) :
    OverviewState A J := { s with files := Function.update s.files f a }

theorem OverviewState.setFile_self (s : OverviewState A J) (f : OverviewFile) (a : Option A) :
    (s.setFile f a).files f = a := by
  unfold OverviewState.setFile
  exact Function.update_self _ _ _

theorem OverviewState.setFile_other (s : OverviewState A J) {f f' : OverviewFile} (a : Option A)
    (h : f' ≠ f) : (s.setFile f a).files f' = s.files f' := by
  unfold OverviewState.setFile
  exact Function.update_of_ne h _ _

theorem OverviewState.setFile_temp (s : OverviewState A J) (tmp : Nat) (a : Option A) :
    (s.setFile (.temp tmp) a).files .overview = s.files .overview := s.setFile_other a nofun

theorem OverviewState.setFile_overview (s : OverviewState A J) (tmp : Nat) (a : Option A) :
    (s.setFile .overview a).files (.temp tmp) = s.files (.temp tmp) := s.setFile_other a nofun

/-- A step that may fail, and changes nothing then. -/
def faulty {α : Type} (x : OverviewChoice S A) (s : OverviewState A J)
    (done : α × OverviewState A J) : Option (Except LensError α × OverviewState A J) :=
  match x.fault with
  | some e => some (.error e, s)
  | none => some (.ok done.1, done.2)

def OverviewCmd.react (key : String) :
    (c : OverviewCmd S A J) → OverviewChoice S A → OverviewState A J →
      Option (Except LensError c.Reply × OverviewState A J)
  | .ttsBackendAvailable, x, s => some (.ok x.available, s)
  | .registerTts, _, s =>
    let registered := s.tokens.registerTts key
    some (.ok registered.1, { s with tokens := registered.2 })
  | .cancelSynthesis, _, s =>
    let cancelled := s.tokens.cancelSynthesis key
    some (.ok cancelled.1, { s with tokens := cancelled.2 })
  | .removeTtsIfOwner owner, _, s =>
    some (.ok (), { s with tokens := s.tokens.removeTtsIfOwner key owner })
  | .isCancelled token, _, s => some (.ok (token ∈ s.tokens.cancelled), s)
  | .sourceSetHash, x, s => faulty x s (x.text, s)
  | .generateDialogue _, x, s => faulty x s (x.script, s)
  | .resolveTtsProvider, x, s => some (.ok x.available, s)
  | .synthesizeScript _ _, x, s => faulty x s (x.buffer, s)
  | .createDirAll, x, s => faulty x s ((), s)
  | .nowV7, _, s => some (.ok s.nextTemp, { s with nextTemp := s.nextTemp + 1 })
  | .writeWav buffer tmp, x, s => faulty x s ((), s.setFile (.temp tmp) (some buffer))
  | .removeFileBestEffort tmp, x, s =>
    -- A file that cannot be removed is left.
    some (.ok (), s.setFile (.temp tmp) (if x.fault.isSome then s.files (.temp tmp) else none))
  | .rename tmp, x, s =>
    match s.files (.temp tmp) with
    | none => some (.error (.io "No such file or directory"), s)
    | some a => faulty x s ((), (s.setFile (.temp tmp) none).setFile .overview (some a))
  | .utcNow, x, s => some (.ok x.text, s)
  | .upsertOverview row, x, s => faulty x s ((), { s with row := some row })

def OverviewNotes.note (g : OverviewNotes S A) :
    Record (OverviewCmd S A J) OverviewCmd.Reply LensError (OverviewChoice S A)
      (OverviewState A J) → OverviewNotes S A
  | ⟨.sourceSetHash, _, _, .ok hash⟩ => { g with hash := some hash }
  | ⟨.synthesizeScript script _, _, _, .ok buffer⟩ => { g with voiced := some (script, buffer) }
  | ⟨.nowV7, _, _, .ok tmp⟩ => { g with temp := some tmp }
  | ⟨.writeWav _ _, _, _, .ok _⟩ => { g with written := true }
  | ⟨.removeFileBestEffort _, _, _, _⟩ => { g with written := false }
  | ⟨.rename _, _, _, .ok _⟩ => { g with written := false, published := true }
  | ⟨.upsertOverview _, _, _, _⟩ => { g with published := false }
  | _ => g

def overviewMachine (key : String) : Machine (OverviewCmd S A J) OverviewCmd.Reply LensError
    (OverviewChoice S A) (OverviewState A J) (OverviewNotes S A) where
  react := OverviewCmd.react key
  note := OverviewNotes.note

/-- No run renames its file to the overview while another one has done so and not written its row,
and a row that is written after the rename is written well. -/
def PublishesApart : Guard ι (OverviewCmd S A J) (OverviewChoice S A) (OverviewState A J)
    (OverviewNotes S A) :=
  fun g i c x _ =>
    match c with
    | .rename _ => x.fault = none → ∀ j, j ≠ i → (g j).published = false
    | .upsertOverview _ => (g i).published = true → x.fault = none
    | _ => True

abbrev overviewStart (host : OverviewHost S J) (notebookId : Str) (jobs : ι → OverviewJob)
    (s : OverviewState A J) : Pool ι (OverviewCmd S A J) OverviewCmd.Reply LensError Unit
      (OverviewState A J) (OverviewNotes S A) :=
  Pool.start s .start fun i => (jobs i).program host notebookId

/-- A row that is ready has at its path what its run has made of its script, unless neither the
row nor the overview has changed since `start`. -/
def Describes (host : OverviewHost S J) (start : OverviewState A J) (g : ι → OverviewNotes S A)
    (s : OverviewState A J) : Prop :=
  ∀ row, s.row = some row → row.status = .ready →
    (start.row = some row ∧ s.files .overview = start.files .overview) ∨
    ∃ i hash script buffer, (g i).hash = some hash ∧ (g i).voiced = some (script, buffer) ∧
      row.sourceSetHash = hash ∧ row.script = host.scriptJson script ∧
      row.path = .overview ∧ s.files row.path = some buffer

end Machine

end LensLM
