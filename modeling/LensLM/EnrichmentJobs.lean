import LensLM.EnrichmentStatuses

/-!
# Enrichment jobs and the mark on their source

Once the source is marked, every path of the job writes another status, finds the source gone, or
ends with one of its own calls failed.
-/

namespace LensLM

open ByteText Programs Program Ranking

set_option autoImplicit false

section Programs

variable (sourceId : String)

def jobDiscipline : Discipline EnrichCmd EnrichmentState JobNotes where
  known _ := True
  allows := jobAllows

/-- The commands of the re-embedding on their own. -/
def withinMachine : Machine Cmd Cmd.Reply Stop JobChoice EnrichmentState JobNotes :=
  (enrichMachine sourceId).pull EnrichCmd.within

def withinDiscipline : Discipline Cmd EnrichmentState JobNotes :=
  jobDiscipline.pull EnrichCmd.within

variable {sourceId}

/-- The job has marked its source, which it has found unmarked before. -/
structure JobNotes.Marked (g : JobNotes) : Prop where
  phase : g.phase = .enriching
  stranded : g.stranded = false
  found : ∃ status, g.found = some status ∧ status ≠ .enriching

/-- The mark is gone, or was not set. -/
structure JobNotes.Returned (g : JobNotes) : Prop where
  phase : g.phase ≠ .enriching
  stranded : g.stranded = false
  found : g.phase = .settled → ∃ status, g.found = some status ∧ status ≠ .enriching

/-- The job ends in an error while the source is marked only if one of its calls has failed. -/
def JobNotes.Stopped (stop : Stop) (g : JobNotes) : Prop :=
  stop ≠ .panicked → g.stranded = false ∧ (g.phase = .idle ∨ g.phase = .gone) ∨
    g.stranded = true ∧ g.phase = .enriching ∧ ∃ status, g.found = some status ∧ status ≠ .enriching

/-- The job keeps to the discipline and fails as it may. -/
abbrev JobChecked {α : Type} (sourceId : String) (post : α → JobNotes → Prop) :
    EnrichJob α → JobNotes → Prop :=
  Follows (enrichMachine sourceId) jobDiscipline post JobNotes.Stopped

def EnrichCmd.Own : EnrichCmd → Prop
  | .within _ => False
  | _ => True

variable {g : JobNotes}

theorem JobNotes.Marked.failed (hg : g.Marked) {c : EnrichCmd} (hc : c.Own) (stop : Stop) :
    (g.failed c).Stopped stop := by
  intro _
  have hfailed : g.failed c = { g with stranded := true } := by
    cases c with
    | within => exact absurd hc id
    | _ => exact if_pos hg.phase
  rw [hfailed]
  exact .inr ⟨rfl, hg.phase, hg.found⟩

theorem JobNotes.Marked.wrote (hg : g.Marked) {status : EnrichmentStatus}
    (hs : status ≠ .enriching) : (g.wrote status).Returned := by
  have hwrote : g.wrote status = { g with phase := .settled } := by
    rw [JobNotes.wrote, if_neg hs]
  rw [hwrote]
  exact ⟨nofun, hg.stranded, fun _ => hg.found⟩

theorem JobNotes.Marked.wroteMark (hg : g.Marked) : (g.wrote .enriching).Marked :=
  ⟨rfl, hg.stranded, hg.found⟩

theorem JobNotes.Marked.saw (hg : g.Marked) (x : Source) : g.saw (some x) = g := by
  rw [JobNotes.saw, if_neg]
  rw [hg.phase]
  nofun

theorem JobNotes.Marked.sawNone (hg : g.Marked) : (g.saw none).Returned :=
  ⟨nofun, hg.stranded, nofun⟩

/-- A call of the job itself while its source is marked. -/
theorem checked_own {c : EnrichCmd} {post : c.Reply → JobNotes → Prop} (hg : g.Marked)
    (hc : c.Own) (hpost : ∀ a, post a (g.done sourceId c a)) :
    JobChecked sourceId post (perform c) g := by
  apply Follows.perform
  · cases c with
    | within => exact absurd hc id
    | _ => trivial
  · exact fun _ _ a _ => hpost a
  · exact fun _ _ e _ => hg.failed hc e

theorem checked_getSource (hg : g.Marked) :
    JobChecked sourceId (fun x g => match x with
      | none => g.Returned
      | some _ => g.Marked) (perform (.getSource sourceId : EnrichCmd)) g := by
  refine checked_own hg trivial ?_
  intro x
  simp only [JobNotes.done, if_pos]
  cases x with
  | none => exact hg.sawNone
  | some x =>
    rw [Option.map_some, hg.saw]
    exact hg

section Reembed

/-- The job reads no source and writes no enrichment status. -/
def Cmd.Quiet : Cmd → Prop
  | .getSource _ | .updateEnrichmentStatus _ _ | .recoverEnrichment => False
  | _ => True

theorem Cmd.OnTables.quiet (c : Cmd) (h : c.OnTables) : c.Quiet := by
  cases c with
  | getSource | updateEnrichmentStatus | recoverEnrichment => exact h
  | _ => trivial

/-- The part of a job that only the notes of other commands would tell from doing nothing. -/
theorem follows_quiet {α : Type} {p : Job α} (hp : p.All Cmd.Quiet) {J : JobNotes → Prop}
    (hj : J g) : Follows (withinMachine sourceId) withinDiscipline (fun _ => J) (fun _ => J) p g := by
  apply Follows.quiet _ _ hp hj
  · intro c g hc _
    cases c with
    | recoverEnrichment => exact hc
    | _ => trivial
  · intro c g x s r hc hj
    cases r with
    | error e => exact hj
    | ok a =>
      cases c with
      | getSource | updateEnrichmentStatus | recoverEnrichment => exact absurd hc id
      | _ => exact hj

/-- The re-embedding ends with the source written or gone, or fails with the mark in place. -/
abbrev ReembedChecked {α : Type} (sourceId : String) (post : α → JobNotes → Prop) :
    Job α → JobNotes → Prop :=
  Follows (withinMachine sourceId) withinDiscipline post fun _ => JobNotes.Marked

theorem checked_quiet {c : Cmd} (hc : c.Quiet) (hg : g.Marked) :
    ReembedChecked sourceId (fun _ => JobNotes.Marked) (perform c) g :=
  follows_quiet (all_perform hc) hg

theorem checked_enriched (hg : g.Marked) : ReembedChecked sourceId (fun _ => JobNotes.Returned)
    (perform (.updateEnrichmentStatus sourceId .enriched : Cmd)) g := by
  refine Follows.perform trivial (fun _ _ _ _ => ?_) fun _ _ _ _ => hg
  simp only [withinMachine, Machine.pull, enrichMachine, JobNotes.done, if_pos]
  exact hg.wrote nofun

theorem within_release_succeeds {fault : Option LensError} {s s' : EnrichmentState} {stop : Stop} :
    (EnrichCmd.within .release).react fault s ≠ some (.error stop, s') := by
  cases fault with
  | some e => nofun
  | none => nofun

theorem checked_release {J : JobNotes → Prop} (hj : J g) :
    ReembedChecked sourceId (fun _ => J) (perform (.release : Cmd)) g := by
  refine Follows.perform trivial (fun _ _ _ _ => hj) ?_
  intro x s stop hr
  obtain ⟨_, s', hr⟩ := hr
  exact absurd hr within_release_succeeds

theorem checked_flipUnlessPurged (hg : g.Marked) (coord : Coordinate) (building : Str) :
    ReembedChecked sourceId
      (fun flipped g => if flipped then g.Marked else g.Returned)
      (flipUnlessPurged coord building sourceId) g := by
  refine Follows.bind (checked_quiet trivial hg) fun _ g hg => ?_
  refine Follows.ensuring (Q := fun flipped g => if flipped then g.Marked else g.Returned) ?_
    (fun _ _ hg => checked_release hg) fun _ _ hg => checked_release hg
  refine Follows.bind (Q := fun x g => x.elim g.Returned fun _ => g.Marked) (Follows.perform trivial (fun _ _ x _ => ?_) fun _ _ _ _ => hg) ?_
  · simp only [withinMachine, Machine.pull, enrichMachine, JobNotes.done, if_pos]
    cases x with
    | none => exact hg.sawNone
    | some x =>
      rw [hg.saw]
      exact hg
  · intro x g hg
    cases x with
    | none => exact hg
    | some x => exact Follows.bind (follows_quiet ((flipActive_onTables coord building).mono Cmd.OnTables.quiet) hg) fun _ _ hg => hg

theorem checked_jobPopulateAndFlip (hg : g.Marked) (chunks : List ReembedChunk) :
    ReembedChecked sourceId (fun _ => JobNotes.Returned) (populateAndFlip sourceId chunks) g := by
  refine Follows.bind (checked_quiet trivial hg) fun coord g hg => ?_
  refine Follows.bind (checked_quiet trivial hg) fun _ g hg => ?_
  refine Follows.bind (follows_quiet ((createBuildingTable_onTables coord).mono Cmd.OnTables.quiet) hg) fun name g hg => ?_
  refine Follows.bind (follows_quiet ((seed_onTables coord name sourceId).mono Cmd.OnTables.quiet) hg) fun _ g hg => ?_
  have hbatches : (forEach (batches REEMBED_BATCH (chunks.map fun c => (sourceId, c)))
      (reembedBatch name coord.notebook)).All Cmd.Quiet :=
    all_forEach fun _ _ => All.bind (all_perform trivial) fun _ => (addToTable_onTables name _).mono Cmd.OnTables.quiet
  refine Follows.bind (follows_quiet hbatches hg) fun _ g hg => ?_
  refine Follows.bind (checked_flipUnlessPurged hg coord name) fun flipped g hg => ?_
  cases flipped with
  | true => exact checked_enriched hg
  | false => exact hg

theorem checked_jobReembed (hg : g.Marked) (docSummary : Str) (summaryId : String) :
    ReembedChecked sourceId (fun _ => JobNotes.Returned)
      (reembedAndFlip sourceId docSummary summaryId) g := by
  have hrest : ∀ g : JobNotes, g.Marked → ReembedChecked sourceId (fun _ => JobNotes.Returned) (do
      let chunks ← perform (.listChunksForReembed sourceId : Cmd)
      if chunks.isEmpty then perform (.updateEnrichmentStatus sourceId .enriched : Cmd)
      else populateAndFlip sourceId chunks) g := by
    intro g hg
    refine Follows.bind (checked_quiet trivial hg) fun chunks g hg => ?_
    split
    · exact checked_enriched hg
    · exact checked_jobPopulateAndFlip hg chunks
  unfold reembedAndFlip
  dsimp only
  split
  · exact hrest g hg
  · exact Follows.bind (checked_quiet trivial hg) fun _ g hg => hrest g hg

end Reembed

section Steps

variable (host : EnrichmentHost)

theorem checked_persistMeta (hg : g.Marked) {status : EnrichmentStatus} (hs : status ≠ .enriching)
    (info : EnrichmentMeta) :
    JobChecked sourceId (fun _ => JobNotes.Returned) (persistMeta host sourceId status info) g := by
  refine checked_own hg trivial ?_
  intro _
  simp only [JobNotes.done, if_pos]
  exact hg.wrote hs

theorem checked_setStatus (hg : g.Marked) {status : EnrichmentStatus} (hs : status ≠ .enriching) :
    JobChecked sourceId (fun _ => JobNotes.Returned)
      (perform (.updateEnrichmentStatus sourceId status : EnrichCmd)) g := by
  refine checked_own hg trivial ?_
  intro _
  simp only [JobNotes.done, if_pos]
  exact hg.wrote hs

theorem checked_reembedOrFail (hg : g.Marked) (cacheKey : String) (pass : MapPass)
    (budget : Budget) : JobChecked sourceId (fun _ => JobNotes.Returned)
      (reembedOrFail host sourceId cacheKey pass budget) g := by
  apply Follows.handle (Follows.embed _ (checked_jobReembed hg pass.map.summary host.summaryId))
  intro stop g hg
  cases stop with
  | panicked => exact fun hne => absurd rfl hne
  | failed e =>
    refine Follows.bind (checked_getSource hg) fun x g hg => ?_
    cases x with
    | none => exact hg
    | some x =>
      have hs : EnrichmentStatus.failed ≠ .enriching := nofun
      exact checked_persistMeta host hg hs _

theorem checked_persistMark (hg : g.Marked) (info : EnrichmentMeta) :
    JobChecked sourceId (fun _ => JobNotes.Marked)
      (persistMeta host sourceId .enriching info) g := by
  refine checked_own hg trivial ?_
  intro _
  simp only [JobNotes.done, if_pos]
  exact hg.wroteMark

variable {host} in
theorem checked_failed (hg : g.Marked) (info : EnrichmentMeta) :
    JobChecked sourceId (fun _ => JobNotes.Returned) (persistMeta host sourceId .failed info) g :=
  checked_persistMeta host hg (by decide) info

theorem checked_writeAndReembed (hg : g.Marked) (notebook : Str) (cacheKey : String)
    (chunks : List EnrichmentChunk) (pass : MapPass) (corefSubs : Nat → Option (List CorefSub))
    (triples : List RelationTriple) (budget : Budget) :
    JobChecked sourceId (fun _ => JobNotes.Returned)
      (writeAndReembed host sourceId notebook cacheKey chunks pass corefSubs triples budget) g := by
  refine Follows.bind (Q := fun _ => JobNotes.Marked) (checked_own hg trivial fun _ => hg)
    fun _ g hg => ?_
  refine Follows.bind (checked_getSource hg) fun x g hg => ?_
  cases x with
  | none => exact hg
  | some x =>
    refine Follows.bind (checked_persistMark host hg _) fun _ g hg => ?_
    exact checked_reembedOrFail host hg cacheKey pass budget

theorem checked_relationPass (hg : g.Marked) (notebook : Str) (cacheKey : String)
    (chunks : List EnrichmentChunk) (pass : MapPass) (corefSubs : Nat → Option (List CorefSub))
    (budget : Budget) : JobChecked sourceId (fun _ => JobNotes.Returned)
      (relationPass host sourceId notebook cacheKey chunks pass corefSubs budget) g := by
  unfold relationPass
  split
  · refine Follows.bind (Q := fun _ => JobNotes.Marked) (checked_own hg trivial fun _ => hg)
      fun predicateVocab g hg => ?_
    refine Follows.bind (Q := fun _ => JobNotes.Marked) (checked_own hg trivial fun _ => hg)
      fun aliases g hg => ?_
    dsimp only
    split
    · exact checked_writeAndReembed host hg notebook cacheKey chunks pass corefSubs _ _
    · exact checked_failed hg _
    · exact checked_writeAndReembed host hg notebook cacheKey chunks pass corefSubs [] _
  · exact checked_writeAndReembed host hg notebook cacheKey chunks pass corefSubs [] budget

theorem checked_corefPass (hg : g.Marked) (notebook : Str) (cacheKey : String)
    (chunks : List EnrichmentChunk) (pass : MapPass) (budget : Budget) :
    JobChecked sourceId (fun _ => JobNotes.Returned)
      (corefPass host sourceId notebook cacheKey chunks pass budget) g := by
  unfold corefPass
  split
  · dsimp only
    split
    · exact checked_relationPass host hg notebook cacheKey chunks pass _ _
    · exact checked_failed hg _
    · exact checked_relationPass host hg notebook cacheKey chunks pass _ _
  · exact checked_relationPass host hg notebook cacheKey chunks pass _ budget

theorem checked_mapPass (hg : g.Marked) (notebook : Str) (cacheKey : String)
    (chunks : List EnrichmentChunk) (budget : Budget) :
    JobChecked sourceId (fun _ => JobNotes.Returned)
      (mapPass host sourceId notebook cacheKey chunks budget) g := by
  unfold mapPass
  split
  · exact checked_corefPass host hg notebook cacheKey chunks _ _
  · exact checked_failed hg _
  · exact checked_failed hg _

theorem checked_enrichMarked (hg : g.Marked) (notebook : Str) (cacheKey : Option String) :
    JobChecked sourceId (fun _ => JobNotes.Returned)
      (enrichMarked host sourceId notebook cacheKey) g := by
  have hpending : ∀ g : JobNotes, g.Marked → JobChecked sourceId (fun _ => JobNotes.Returned)
      (perform (.updateEnrichmentStatus sourceId .pending : EnrichCmd)) g :=
    fun g hg => checked_setStatus hg (by decide)
  refine Follows.bind (checked_getSource hg) fun x g hg => ?_
  cases x with
  | none => exact hg
  | some x =>
    refine Follows.bind (Q := fun _ => JobNotes.Marked) (checked_own hg trivial fun _ => hg)
      fun chunks g hg => ?_
    split
    · exact hpending g hg
    · split
      · exact hpending g hg
      · dsimp only
        split
        · refine Follows.bind (Q := fun _ => JobNotes.Marked) (checked_own hg trivial fun _ => hg)
            fun _ g hg => ?_
          exact checked_persistMeta host hg (by decide) _
        · exact checked_mapPass host hg notebook _ chunks _

/-- Nothing is written yet. -/
structure JobNotes.Unmarked (g : JobNotes) : Prop where
  phase : g.phase = .idle
  stranded : g.stranded = false

theorem JobNotes.Unmarked.returned (hg : g.Unmarked) : g.Returned := by
  constructor
  case stranded => exact hg.stranded
  all_goals
    rw [hg.phase]
    nofun

theorem JobNotes.Unmarked.failed (hg : g.Unmarked) (c : EnrichCmd) (stop : Stop) :
    (g.failed c).Stopped stop := by
  have hne : g.phase ≠ .enriching := by
    rw [hg.phase]
    nofun
  have hfailed : g.failed c = g := by
    unfold JobNotes.failed
    rw [if_neg hne]
    split
    · rfl
    · rfl
  rw [hfailed]
  exact fun _ => .inl ⟨hg.stranded, .inl hg.phase⟩

/-- A call of the job itself before its source is marked. -/
theorem checked_unmarked {c : EnrichCmd} {post : c.Reply → JobNotes → Prop} (hg : g.Unmarked)
    (hc : c.Own) (hpost : ∀ a, post a (g.done sourceId c a)) :
    JobChecked sourceId post (perform c) g := by
  apply Follows.perform
  · cases c with
    | within => exact absurd hc id
    | _ => trivial
  · exact fun _ _ a _ => hpost a
  · exact fun _ _ e _ => hg.failed c e

theorem checked_processJob (hg : g.Unmarked) (notebook : Str) :
    JobChecked sourceId (fun _ => JobNotes.Returned) (processJob host sourceId notebook) g := by
  unfold processJob
  split
  · exact hg.returned
  · refine Follows.bind (Q := fun x g => match x with
      | none => g.Returned
      | some x => g.Unmarked ∧ g.found = some x.1.enrichmentStatus)
      (checked_unmarked hg trivial fun x => ?_) fun x g hx => ?_
    · simp only [JobNotes.done, if_pos]
      cases x with
      | none => exact ⟨nofun, hg.stranded, nofun⟩
      | some x =>
        dsimp only [Option.map_some, JobNotes.saw]
        rw [if_pos hg.phase]
        exact ⟨⟨hg.phase, hg.stranded⟩, rfl⟩
    · cases x with
      | none => exact hx
      | some x =>
        obtain ⟨hg, hfound⟩ := hx
        dsimp only
        split
        · exact hg.returned
        · rename_i hne
          split
          · exact hg.returned
          · split
            · refine checked_unmarked hg trivial fun _ => ?_
              simp only [JobNotes.done, if_pos]
              exact ⟨nofun, hg.stranded, fun _ => ⟨_, hfound, hne⟩⟩
            · refine Follows.bind (Q := fun _ => JobNotes.Marked)
                (checked_unmarked hg trivial fun _ => ?_) fun _ g hg => ?_
              · simp only [JobNotes.done, if_pos]
                exact ⟨rfl, hg.stranded, _, hfound, hne⟩
              · exact checked_enrichMarked host hg notebook _

end Steps

end Programs

section Runs

/-- What a job has returned. -/
def result : EnrichJob Unit → Option (Except LensError Unit)
  | .ret a => some (.ok a)
  | .fail (.failed e) => some (.error e)
  | _ => none

/-- The source is marked as enriching. -/
def EnrichmentState.Marks (s : EnrichmentState) (sourceId : String) : Prop :=
  ∃ x, s.source? sourceId = some x ∧ x.enrichmentStatus = .enriching

abbrev jobStart (host : EnrichmentHost) (sourceId : String) (notebook : Str) (s : EnrichmentState) :
    Pool Unit EnrichCmd EnrichCmd.Reply Stop Unit EnrichmentState JobNotes :=
  Pool.start s {} fun _ => processJob host sourceId notebook

theorem processJob_known {host : EnrichmentHost} {sourceId : String} {notebook : Str}
    {keeps : Prop} {s : EnrichmentState}
    {w : Pool Unit EnrichCmd EnrichCmd.Reply Stop Unit EnrichmentState JobNotes}
    (run : (jobStart host sourceId notebook s).Run (enrichMachine sourceId)
      (OthersMeddle sourceId keeps) w) :
    StatusKnown sourceId ((s.source? sourceId).map Source.enrichmentStatus) keeps (w.seen ())
        w.state ∧
      JobChecked sourceId (fun _ => JobNotes.Returned) (w.thread ()).program (w.seen ()) := by
  have hstep : ∀ (g : Unit → JobNotes) (i : Unit) (c : EnrichCmd) (x : JobChoice)
      (s₁ : EnrichmentState) (r : Except Stop c.Reply) (s₂ : EnrichmentState),
      StatusKnown sourceId ((s.source? sourceId).map Source.enrichmentStatus) keeps (g ()) s₁ →
      jobAllows c (g i) → OthersMeddle sourceId keeps g i c x s₁ →
      (enrichMachine sourceId).react c x s₁ = some (r, s₂) →
      StatusKnown sourceId ((s.source? sourceId).map Source.enrichmentStatus) keeps
        (Function.update g i ((enrichMachine sourceId).note (g i) ⟨c, x, s₁, r⟩) ()) s₂ := by
    intro g i c x s₁ r s₂ hknown hc hm hr
    rw [Function.update_self]
    exact hknown.step hc hm hr
  obtain ⟨hknown, hchecked⟩ := run.keeps (d := fun _ => jobDiscipline)
    (fun _ _ _ _ => trivial) hstep (StatusKnown.start s)
    fun _ => checked_processJob host ⟨rfl, rfl⟩ notebook
  exact ⟨hknown, hchecked ()⟩

/-- What the notes say when a job has returned. -/
inductive JobNotes.Over (g : JobNotes) : Prop
  | stranded (hs : g.stranded = true) (hp : g.phase = .enriching)
  | idle (hs : g.stranded = false) (hp : g.phase = .idle)
  | gone (hs : g.stranded = false) (hp : g.phase = .gone)
  | settled (hs : g.stranded = false) (hp : g.phase = .settled) (status : EnrichmentStatus)
      (hf : g.found = some status) (hne : status ≠ .enriching)

theorem JobNotes.Returned.over {g : JobNotes} (hg : g.Returned) : g.Over := by
  cases hp : g.phase with
  | idle => exact .idle hg.stranded hp
  | enriching => exact absurd hp hg.phase
  | settled =>
    obtain ⟨status, hf, hne⟩ := hg.found hp
    exact .settled hg.stranded hp status hf hne
  | gone => exact .gone hg.stranded hp

theorem JobNotes.Stopped.over {g : JobNotes} {stop : Stop} (hg : g.Stopped stop)
    (hstop : stop ≠ .panicked) : g.Over := by
  obtain ⟨hs, hp⟩ | ⟨hs, hp, _⟩ := hg hstop
  · cases hp with
    | inl hp => exact .idle hs hp
    | inr hp => exact .gone hs hp
  · exact .stranded hs hp

theorem JobNotes.over_of_result {sourceId : String} {p : EnrichJob Unit} {g : JobNotes}
    (h : JobChecked sourceId (fun _ => JobNotes.Returned) p g) (hr : (result p).isSome) : g.Over := by
  cases p with
  | ret a => exact JobNotes.Returned.over h
  | fail e =>
    apply JobNotes.Stopped.over h
    rintro rfl
    cases hr
  | call c k => cases hr

/-- No other task takes a step. -/
def Alone : Guard Unit EnrichCmd JobChoice EnrichmentState JobNotes :=
  fun _ _ _ x _ => x.others.isNone = true

instance (g : Unit → JobNotes) (i : Unit) (c : EnrichCmd) (x : JobChoice) (s : EnrichmentState) :
    Decidable (Alone g i c x s) := inferInstanceAs (Decidable (_ = true))

theorem othersMeddle_of_alone (sourceId : String) (keeps : Prop) (g : Unit → JobNotes) (i : Unit)
    (c : EnrichCmd) (x : JobChoice) (s : EnrichmentState) (h : Alone g i c x s) :
    OthersMeddle sourceId keeps g i c x s := by
  obtain ⟨fault, others⟩ := x
  cases others with
  | none => exact .of_source?_eq rfl
  | some f => cases h

/-- The provider is reachable, and its model finds nothing. -/
def bareHost : EnrichmentHost where
  enabled := true
  corefInline := false
  relationsOn := false
  cacheKey := some id
  preflight := none
  reachable := true
  maxCallsPerJob := 10
  countTokens := List.length
  composeText _ _ body := body
  applySubstitutions body _ _ := body
  buildMap budget _ := (.ok .fallback, budget)
  corefBatch budget _ _ := (.ok fun _ => none, budget)
  extractRelations budget _ _ _ _ _ := (.ok [], budget)
  mapJson _ := []
  metaJson _ := []
  parseMeta _ := none
  text := ⟨id, Char.isAlphanum, String.ofList⟩
  newId := toString
  newEdgeId := toString
  now := ""
  summaryId := "summary"

def pendingSource : EnrichmentState where
  engine :=
    { notebook := ['n']
      embeddingModel := none
      embeddingBackend := none
      sources := [⟨"A", .text, .indexed, false, none, none, .pending, false, none, none⟩]
      chunks := []
      sections := []
      registry := ⟨[], List.nodup_nil⟩
      tables := ∅
      extracted := ∅
      tableMarkdown := ∅
      ingestLock := false }
  enrichmentMeta := ∅
  chunkColumns := ∅
  chunkEnrichment := ∅
  graph := ∅
  relationTypes := []
  relationTypeAliases := []

/-- The calls go well up to a number of them, and the next one fails. -/
def failsAfter (calls : Nat) : List (Unit × JobChoice) :=
  List.replicate calls ((), ⟨none, none⟩) ++ [((), ⟨some (.internal "disk I/O error"), none⟩)]

theorem pendingSource_unmarked : ¬ pendingSource.Marks "A" := by
  intro h
  obtain ⟨x, hx, he⟩ := h
  cases hx
  cases he

end Runs

end LensLM
