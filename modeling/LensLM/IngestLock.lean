import LensLM.ExtractedBuffer
import LensLM.Reembed
import Mathlib.Logic.Function.Basic

/-!
# The ingest lock

Ingests, retries, purges and re-embeds run side by side and share one permit. What removes or
replaces indexed content is done by the job that holds it.
-/

namespace LensLM

open ByteText Programs Program

set_option autoImplicit false

section Definitions

/-- The commands that remove or replace what is indexed. -/
def Cmd.Destroys : Cmd → Prop
  | .replaceChunks _ _ _ | .wipeChunks _ | .purgeSource _ | .deleteRows _ _ | .dropTable _
  | .flipActiveTxn _ _ | .demoteActiveToStale _ | .deleteBuildingRows _ | .deleteRowByTable _ _ =>
    True
  | _ => False

/-- The commands of a job that neither take nor give back the permit. -/
def Cmd.Unlocked : Cmd → Prop
  | .acquire | .release => False
  | _ => True

/-- The commands that a job may issue without the permit. -/
def Cmd.Beside (c : Cmd) : Prop := c.Unlocked ∧ ¬ c.Destroys

/-- The machine of the engine's commands, which notes whether a job holds the permit. -/
def lockMachine : Machine Cmd Cmd.Reply Stop (Option LensError) EngineState Bool where
  react := Cmd.react
  note holds x :=
    if x.reply.isOk then
      match x.command with
      | .acquire => true
      | .release => false
      | _ => holds
    else holds

/-- The permit is taken once at a time, and what destroys is done while it is held. -/
def lockDiscipline : Discipline Cmd EngineState Bool where
  known _ := True
  allows c holds := match c with
    | .acquire => holds = false
    | .release => holds = true
    | c => c.Destroys → holds = true

/-- The jobs that use the permit. -/
inductive LockJob (F T : Type) where
  | ingest (e : Surroundings F T) (sourceId : String)
  | retry (e : Surroundings F T) (sourceId : String)
  | purge (sourceId : String)
  | reembed (sourceId : String) (docSummary : Str) (summaryId : String)

def LockJob.program {F T : Type} [LinearOrder T] [Zero T] : LockJob F T → Job Unit
  | .ingest e sourceId => ingestSource e sourceId
  | .retry e sourceId => retrySource e sourceId
  | .purge sourceId => purgeSource sourceId
  | .reembed sourceId docSummary summaryId => reembedAndFlip sourceId docSummary summaryId

end Definitions

section Brackets

variable {α : Type} {holds : Bool}

/-- The job does not change what it holds, and destroys only if it holds the permit. -/
abbrev LockKept (holds : Bool) (p : Job α) : Prop :=
  Follows lockMachine lockDiscipline (fun _ h => h = holds) (fun _ h => h = holds) p holds

theorem lockKept_bind {β : Type} {p : Job α} {f : α → Job β} (hp : LockKept holds p)
    (hf : ∀ a, LockKept holds (f a)) : LockKept holds (p.bind f) := by
  refine Follows.bind hp fun a h hh => ?_
  rw [hh]
  exact hf a

theorem note_unlocked {c : Cmd} (hc : c.Unlocked) (holds : Bool) (x : Option LensError)
    (s : EngineState) (r : Except Stop c.Reply) : lockMachine.note holds ⟨c, x, s, r⟩ = holds := by
  unfold lockMachine
  dsimp only
  split
  · cases c with
    | acquire | release => exact absurd hc id
    | _ => rfl
  · rfl

theorem allows_unlocked {c : Cmd} (hc : c.Unlocked) (h : c.Destroys → holds = true) :
    lockDiscipline.allows c holds := by
  cases c with
  | acquire | release => exact absurd hc id
  | _ => exact h

/-- What the job does under the permit. -/
theorem lockKept_under {p : Job α} (hp : p.All Cmd.Unlocked) : LockKept true p := by
  refine Follows.quiet (P := Cmd.Unlocked) (J := fun h => h = true) ?_ ?_ hp rfl
  · intro c h hc hh
    exact allows_unlocked hc fun _ => hh
  · intro c h x s r hc hh
    rw [note_unlocked hc]
    exact hh

/-- The job touches nothing that is indexed. -/
theorem lockKept_beside {p : Job α} (hp : p.All Cmd.Beside) : LockKept holds p := by
  refine Follows.quiet (P := Cmd.Beside) (J := fun h => h = holds) ?_ ?_
    hp rfl
  · intro c h hc _
    exact allows_unlocked hc.1 fun hd => absurd hd hc.2
  · intro c h x s r hc hh
    rw [note_unlocked hc.1]
    exact hh

/-- The permit is given back however the job ends. -/
theorem lockKept_withPermit {p : Job α} (hp : p.All Cmd.Unlocked) :
    LockKept false (withPermit p) := by
  have hrelease : Follows lockMachine lockDiscipline (fun _ h => h = false) (fun _ _ => False)
      (perform (.release : Cmd)) true := by
    refine Follows.perform rfl (fun _ _ _ _ => rfl) fun x s e hr => ?_
    obtain ⟨_, s', hr⟩ := hr
    exact Cmd.release_succeeds hr
  refine Follows.bind (Q := fun _ h => h = true)
    (Follows.perform rfl (fun _ _ _ _ => rfl) fun _ _ _ _ => rfl) fun _ h hh => ?_
  rw [hh]
  refine Follows.ensuring (lockKept_under hp) (fun _ h hh => ?_) fun _ h hh => ?_
  · rw [hh]
    exact hrelease.mono (fun _ _ h => h) fun _ _ h => absurd h id
  · rw [hh]
    exact hrelease.mono (fun _ _ h => h) fun _ _ h => absurd h id

end Brackets

section Jobs

variable {F T : Type} {e : Surroundings F T}

theorem Cmd.OnTables.unlocked (c : Cmd) (h : c.OnTables) : c.Unlocked := by
  cases c with
  | acquire | release => exact absurd h id
  | _ => trivial

theorem setTerminalPending_unlocked (sourceId : String) (status : SourceStatus) :
    (setTerminalPending sourceId status).All Cmd.Unlocked := by
  refine All.bind ?_ fun _ => all_perform trivial
  refine All.bind (all_perform trivial) fun coord => ?_
  refine All.bind ((dropSource_onTables coord sourceId).mono Cmd.OnTables.unlocked) fun _ => ?_
  exact All.bind (all_perform trivial) fun _ => all_perform trivial

theorem finishIndexed_unlocked (sourceId : String) (tokens : Nat) (contentHash : String)
    (language : Option String) :
    (finishIndexed sourceId tokens contentHash language).All Cmd.Unlocked := by
  refine All.bind (all_perform trivial) fun _ => ?_
  exact All.bind (all_perform trivial) fun _ => all_perform trivial

theorem afterReplaced_unlocked (source : Source) (coord : Coordinate) (out : ExtractOutput T)
    (contentHash : String) (chunks : List Chunk) :
    (afterReplaced e source coord out contentHash chunks).All Cmd.Unlocked := by
  refine All.bind (all_perform trivial) fun _ => ?_
  dsimp only
  split
  · exact finishIndexed_unlocked source.id _ _ _
  · refine All.bind (all_perform trivial) fun _ => ?_
    refine All.bind (all_perform trivial) fun _ => ?_
    split
    · exact ((indexPdf_onTables coord source.id chunks).mono Cmd.OnTables.unlocked).bind
        fun _ => finishIndexed_unlocked source.id _ _ _
    · exact ((indexDirect_onTables coord source.id chunks).mono Cmd.OnTables.unlocked).bind
        fun _ => finishIndexed_unlocked source.id _ _ _

theorem purgeBody_unlocked (sourceId : String) : Program.All Cmd.Unlocked (do
    match ← perform (.getSource sourceId : Cmd) with
    | none => lift (.error (Cmd.noSource sourceId))
    | some _ =>
      let coords ← perform (.activeCoordinates : Cmd)
      forEach coords fun coord => do
        dropSource coord sourceId
        perform (.outside : Cmd)
      perform (.purgeSource sourceId : Cmd)
      ignoring (perform (.removeSiblings sourceId : Cmd)) : Job Unit) := by
  refine All.bind (all_perform trivial) fun found => ?_
  cases found with
  | none => trivial
  | some source =>
    refine All.bind (all_perform trivial) fun coords => ?_
    refine All.bind (all_forEach fun coord _ => ?_) fun _ => ?_
    · exact ((dropSource_onTables coord sourceId).mono Cmd.OnTables.unlocked).bind
        fun _ => all_perform trivial
    · exact All.bind (all_perform trivial) fun _ => ignoring_all (all_perform trivial)

variable [LinearOrder T]

theorem indexExtractOutput_unlocked (source : Source) (raw : List UInt8) (out : ExtractOutput T) :
    (indexExtractOutput e source raw out).All Cmd.Unlocked := by
  have hchunked : (chunkOutput e out).All Cmd.Unlocked :=
    All.bind (lift_all _) fun _ => All.bind (liftFault_all _) fun _ => lift_all _
  have hreplace : ∀ coord contentHash,
      (replaceContent e source coord out contentHash).All Cmd.Unlocked := by
    intro coord contentHash
    refine All.bind (all_perform trivial) fun _ => ?_
    refine All.bind hchunked fun chunks => ?_
    refine All.bind ((dropSource_onTables coord source.id).mono Cmd.OnTables.unlocked) fun _ => ?_
    refine All.bind (all_perform trivial) fun _ => ?_
    exact All.bind (all_perform trivial) fun _ => afterReplaced_unlocked source coord out _ chunks
  have hrest : ∀ contentHash : String, (if source.kind.isTextLike ∧ source.status = .indexed ∧
      source.contentHash = some contentHash then return () else do
        let coord ← perform (.resolveNotebookEmbedding : Cmd)
        replaceContent e source coord out contentHash : Job Unit).All Cmd.Unlocked := by
    intro contentHash
    split
    · trivial
    · exact All.bind (all_perform trivial) fun coord => hreplace coord contentHash
  unfold indexExtractOutput
  split
  · exact lift_all _
  · exact All.bind (persistSiblings_all trivial trivial fun _ => trivial) fun _ => hrest _

theorem renderPage_unlocked (source : Source) (raw : List UInt8) :
    (renderPage e source raw).All Cmd.Unlocked := by
  unfold renderPage
  cases e.renderer with
  | none => exact setTerminalPending_unlocked _ _
  | some rendered =>
    cases rendered with
    | error err => exact setTerminalPending_unlocked _ _
    | ok html =>
      dsimp only
      cases renderedOutput e html with
      | none => exact setTerminalPending_unlocked _ _
      | some out => exact indexExtractOutput_unlocked source raw out

theorem ingestExtracted_unlocked (source : Source) (raw : List UInt8) :
    (ingestExtracted e source raw).All Cmd.Unlocked := by
  refine All.bind (lift_all _) fun out => ?_
  split
  · exact setTerminalPending_unlocked _ _
  · split
    · refine All.bind ?_ fun handled => ?_
      · unfold tryJsRender
        split
        · exact All.bind (renderPage_unlocked source raw) fun _ => trivial
        · trivial
      · split
        · trivial
        · exact indexExtractOutput_unlocked source raw out
    · exact indexExtractOutput_unlocked source raw out

variable [Zero T]

theorem runIngest_unlocked (sourceId : String) : (runIngest e sourceId).All Cmd.Unlocked := by
  refine All.bind (all_perform trivial) fun found => ?_
  cases found with
  | none => trivial
  | some source =>
    refine All.bind (lift_all _) fun raw => ?_
    split
    · trivial
    · split
      · refine All.bind (lift_all _) fun segments => ?_
        exact All.bind (lift_all _) fun out => indexExtractOutput_unlocked source raw out
      · exact ingestExtracted_unlocked source raw

theorem lockKept_ingestSource (sourceId : String) : LockKept false (ingestSource e sourceId) := by
  refine lockKept_withPermit ((runIngest_unlocked sourceId).handle fun stop => ?_)
  exact onFailure_all trivial trivial trivial (fun _ => trivial) stop

theorem lockKept_retrySource (sourceId : String) : LockKept false (retrySource e sourceId) := by
  refine lockKept_bind (lockKept_beside (all_perform ⟨trivial, id⟩)) fun found => ?_
  cases found with
  | none => exact rfl
  | some source =>
    show LockKept false (if _ then _ else _)
    split
    · exact rfl
    · split
      · exact rfl
      · exact lockKept_bind (lockKept_beside (all_perform ⟨trivial, id⟩)) fun _ =>
          lockKept_ingestSource sourceId

end Jobs

section Reembed

theorem openTableByName_beside (name : Str) : (openTableByName name).All Cmd.Beside := by
  refine All.bind (all_perform ⟨trivial, id⟩) fun existing => ?_
  split
  · exact All.bind (all_perform ⟨trivial, id⟩) fun _ => trivial
  · trivial

theorem openActiveTable_beside (c : Coordinate) : (openActiveTable c).All Cmd.Beside := by
  refine All.bind (all_perform ⟨trivial, id⟩) fun name => ?_
  cases name with
  | none => trivial
  | some name => exact openTableByName_beside name

theorem createBuildingTable_beside (c : Coordinate) :
    (createBuildingTable c).All Cmd.Beside := by
  refine All.bind (all_perform ⟨trivial, id⟩) fun existing => ?_
  refine All.bind (all_perform ⟨trivial, id⟩) fun physical => ?_
  refine All.bind (all_perform ⟨trivial, id⟩) fun _ => ?_
  exact All.bind (all_perform ⟨trivial, id⟩) fun _ => trivial

theorem seed_beside (c : Coordinate) (buildingName : Str) (sourceId : String) :
    (seedBuildingFromActive c buildingName sourceId).All Cmd.Beside := by
  refine All.bind (openActiveTable_beside c) fun active => ?_
  cases active with
  | none => trivial
  | some active =>
    refine All.bind (openTableByName_beside buildingName) fun building => ?_
    cases building with
    | none => trivial
    | some building =>
      exact All.bind (all_perform ⟨trivial, id⟩) fun _ => all_perform ⟨trivial, id⟩

theorem addToTable_beside (table : Str) (rows : List VectorRow) :
    (addToTable table rows).All Cmd.Beside := by
  unfold addToTable
  split
  · trivial
  · refine All.bind (openTableByName_beside table) fun found => ?_
    cases found with
    | none => trivial
    | some table => exact all_perform ⟨trivial, id⟩

/-- A re-embed fills its building table without the permit and flips it under it. -/
theorem lockKept_reembedAndFlip (sourceId : String) (docSummary : Str) (summaryId : String) :
    LockKept false (reembedAndFlip sourceId docSummary summaryId) := by
  have hflip : ∀ coord building, LockKept false (flipUnlessPurged coord building sourceId) := by
    intro coord building
    refine lockKept_withPermit (All.bind (all_perform trivial) fun found => ?_)
    cases found with
    | none => trivial
    | some source =>
      exact ((flipActive_onTables coord building).mono Cmd.OnTables.unlocked).bind fun _ => trivial
  have hrest : ∀ chunks, LockKept false (populateAndFlip sourceId chunks) := by
    intro chunks
    refine lockKept_bind (lockKept_beside (all_perform ⟨trivial, id⟩)) fun coord => ?_
    refine lockKept_bind (lockKept_beside (all_perform ⟨trivial, id⟩)) fun _ => ?_
    refine lockKept_bind (lockKept_beside (createBuildingTable_beside coord)) fun building => ?_
    refine lockKept_bind (lockKept_beside (seed_beside coord building sourceId)) fun _ => ?_
    refine lockKept_bind (lockKept_beside (all_forEach fun batch _ => ?_)) fun _ => ?_
    · exact All.bind (all_perform ⟨trivial, id⟩) fun _ => addToTable_beside building _
    · refine lockKept_bind (hflip coord building) fun flipped => ?_
      cases flipped with
      | true => exact lockKept_beside (all_perform ⟨trivial, id⟩)
      | false => exact rfl
  have hlisted : LockKept false (do
      let chunks ← perform (.listChunksForReembed sourceId : Cmd)
      if chunks.isEmpty then perform (.updateEnrichmentStatus sourceId .enriched : Cmd)
      else populateAndFlip sourceId chunks) := by
    refine lockKept_bind (lockKept_beside (all_perform ⟨trivial, id⟩)) fun chunks => ?_
    split
    · exact lockKept_beside (all_perform ⟨trivial, id⟩)
    · exact hrest chunks
  unfold reembedAndFlip
  dsimp only
  split
  · exact hlisted
  · exact lockKept_bind (lockKept_beside (all_perform ⟨trivial, id⟩)) fun _ => hlisted

end Reembed

section Runs

variable {F T ι : Type} [LinearOrder T] [Zero T] [DecidableEq ι]

/-- The permit is out exactly while one job holds it. -/
structure LockInv (holds : ι → Bool) (s : EngineState) : Prop where
  unique : ∀ i j, holds i = true → holds j = true → i = j
  taken : s.ingestLock = true ↔ ∃ i, holds i = true

omit [DecidableEq ι] in
theorem LockInv.same {holds : ι → Bool} {s s' : EngineState} (h : LockInv holds s)
    (hlock : s'.ingestLock = s.ingestLock) : LockInv holds s' :=
  ⟨h.unique, by rw [hlock]; exact h.taken⟩

theorem LockInv.acquire {holds : ι → Bool} {s s' : EngineState} (h : LockInv holds s)
    (hfree : s.ingestLock = false) (i : ι) (hlock : s'.ingestLock = true) :
    LockInv (Function.update holds i true) s' := by
  have hnone : ∀ j, holds j = false := by
    intro j
    by_contra hj
    have htaken := h.taken.mpr ⟨j, by simpa using hj⟩
    rw [hfree] at htaken
    cases htaken
  have honly : ∀ j, Function.update holds i true j = true → j = i := by
    intro j hj
    by_contra hne
    rw [Function.update_of_ne hne, hnone j] at hj
    cases hj
  exact ⟨fun j k hj hk => (honly j hj).trans (honly k hk).symm,
    fun _ => ⟨i, Function.update_self ..⟩, fun _ => hlock⟩

theorem LockInv.release {holds : ι → Bool} {s s' : EngineState} (h : LockInv holds s) {i : ι}
    (hi : holds i = true) (hlock : s'.ingestLock = false) :
    LockInv (Function.update holds i false) s' := by
  have hnone : ∀ j, Function.update holds i false j = false := by
    intro j
    by_cases hj : j = i
    · rw [hj, Function.update_self]
    · rw [Function.update_of_ne hj]
      by_contra hne
      exact hj (h.unique j i (by simpa using hne) hi)
  refine ⟨fun j k hj _ => ?_, ?_⟩
  · rw [hnone j] at hj
    cases hj
  · rw [hlock]
    refine ⟨fun hf => absurd hf (by decide), fun hex => ?_⟩
    obtain ⟨j, hj⟩ := hex
    rw [hnone j] at hj
    cases hj

/-- The other commands leave the permit where it is. -/
theorem run_unlocked {c : Cmd} (hc : c.Unlocked) {s s' : EngineState} {a : c.Reply}
    (hrun : c.run s = .ok (a, s')) : s'.ingestLock = s.ingestLock := by
  by_cases htables : c.OnTables
  · obtain ⟨registry, tables, rfl⟩ := htables.run hrun
    rfl
  cases c with
  | acquire | release => exact absurd hc id
  | updateSourceStatus | updateSourceMetadata | trashSource | purgeSource | replaceChunks
  | insertSummaryChunk =>
    simp only [Cmd.run] at hrun
    split at hrun <;> cases hrun
    rfl
  | getSource | listSources | listChunksForReembed | resolveNotebookEmbedding | setSourceError
  | clearSourceErrorMeta | updateEnrichmentStatus | setEmbeddingModel | recoverSources
  | recoverEnrichment | wipeChunks | persistExtracted | persistTableMarkdown | removeSiblings =>
    cases hrun
    rfl
  | _ => exact absurd trivial htables

theorem lockInv_step {holds : ι → Bool} {s s' : EngineState} {i : ι} {c : Cmd}
    {x : Option LensError} {r : Except Stop c.Reply} (h : LockInv holds s)
    (hallows : lockDiscipline.allows c (holds i)) (hr : c.react x s = some (r, s')) :
    LockInv (Function.update holds i (lockMachine.note (holds i) ⟨c, x, s, r⟩)) s' := by
  cases r with
  | error stop =>
    obtain ⟨rfl, _, _⟩ := Cmd.react_error hr
    have hnote : lockMachine.note (holds i) ⟨c, x, s', .error stop⟩ = holds i := rfl
    rw [hnote, Function.update_eq_self]
    exact h
  | ok a =>
    obtain ⟨hblocked, hrun⟩ := Cmd.react_ok hr
    by_cases hc : c.Unlocked
    · rw [note_unlocked hc, Function.update_eq_self]
      exact h.same (run_unlocked hc hrun)
    · cases c with
      | acquire =>
        cases hrun
        exact h.acquire hblocked i rfl
      | release =>
        cases hrun
        exact h.release hallows rfl
      | _ => exact absurd trivial hc

theorem lockKept_program (job : LockJob F T) : LockKept false job.program := by
  cases job with
  | ingest e sourceId => exact lockKept_ingestSource sourceId
  | retry e sourceId => exact lockKept_retrySource sourceId
  | purge sourceId => exact lockKept_withPermit (purgeBody_unlocked sourceId)
  | reembed sourceId docSummary summaryId =>
    exact lockKept_reembedAndFlip sourceId docSummary summaryId

omit [DecidableEq ι] in
/-- A program that has not ended is about to issue a command. -/
theorem exists_call {α : Type} {p : Job α} (h : ¬ p.Ended) : ∃ c k, p = .call c k := by
  cases p with
  | ret a => exact absurd (.inl ⟨a, rfl⟩) h
  | fail e => exact absurd (.inr ⟨e, rfl⟩) h
  | call c k => exact ⟨c, k, rfl⟩

/-- A command that does not wait can be carried out. -/
theorem exists_step {w : Pool ι Cmd Cmd.Reply Stop Unit EngineState Bool} {i : ι} {c : Cmd}
    {k : Except Stop c.Reply → Job Unit} (hp : (w.thread i).program = .call c k)
    (hblocked : Cmd.blocked w.state c = false) :
    ∃ w', Pool.Step lockMachine Unrestricted w w' := by
  obtain ⟨r, s, hr⟩ : ∃ r s, c.react none w.state = some (r, s) := by
    unfold Cmd.react
    rw [hblocked]
    cases c.run w.state with
    | ok out => exact ⟨_, _, rfl⟩
    | error e => exact ⟨_, _, rfl⟩
  exact ⟨_, .mk i none hp trivial hr⟩

end Runs

section Examples

def trashedSource : EngineState :=
  ⟨"nb".toList, none, none,
    [⟨"a", .text, .indexed, true, none, none, .none, false, none, none⟩], [], [],
    ⟨[], List.nodup_nil⟩, ∅, ∅, ∅, false⟩

end Examples

end LensLM
