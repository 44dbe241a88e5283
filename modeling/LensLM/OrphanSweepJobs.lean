import LensLM.OrphanSweep

/-!
# The jobs around the orphan sweep

Ingests and re-embeds keep to what they are allowed by what they hold.
-/

namespace LensLM

open ByteText Programs Program

set_option autoImplicit false

section Programs

/-- The jobs of a notebook whose settings stay as they are. -/
def sweepDiscipline (c : Coordinate) (reembeds : Prop) : Discipline Cmd EngineState Held where
  known s := s.coordinate = c
  allows := sweepAllows c reembeds

/-- Nothing is listed to be dropped. -/
structure Held.Clean (permit : Bool) (building : Option Str) (h : Held) : Prop where
  permit : h.permit = permit
  creating : h.creating = false
  building : h.building = building
  swept : h.swept = []
  stale : h.stale = none
  doomed : h.doomed = []

variable (c : Coordinate) (reembeds : Prop)

/-- The job keeps to the discipline, and a failure leaves the permit where it is. -/
abbrev Checked {α : Type} (permit : Bool) (post : α → Held → Prop) : Job α → Held → Prop :=
  Follows sweepMachine (sweepDiscipline c reembeds) post fun _ h => h.permit = permit

variable {c reembeds} {permit : Bool} {building : Option Str} {h : Held}

theorem sweepAllows_plain {cmd : Cmd} (hc : cmd.Plain) (h : Held) : sweepAllows c reembeds cmd h := by
  cases cmd with
  | acquire | release | setEmbeddingModel | lanceTableNamesForCoordinate
  | buildingLanceTableNames | register | flipActiveTxn | demoteActiveToStale | tableNames
  | openTable | createEmptyTable | dropTable => cases hc
  | _ => trivial

/-- A plain command leaves any assertion on what is held as it is. -/
theorem checked_plain {J : Held → Prop} {cmd : Cmd} (hc : cmd.Plain) (hj : J h)
    (hp : h.permit = permit) : Checked c reembeds permit (fun _ => J) (perform cmd) h := by
  refine Follows.perform (sweepAllows_plain hc h) ?_ fun _ _ _ _ => hp
  intro x s a _
  show J (h.done cmd a)
  rw [Held.done_plain hc]
  exact hj

theorem Held.Clean.snapshot (hh : h.Clean permit building) (existing : List Str) :
    (h.done .tableNames existing).Clean permit building :=
  ⟨hh.permit, hh.creating, hh.building, rfl, rfl, by simp [Held.done, Held.listed, hh.swept, hh.stale]⟩

theorem checked_tableNames (hh : h.Clean permit building) :
    Checked c reembeds permit (fun _ => Held.Clean permit building) (perform .tableNames) h :=
  Follows.perform (fun hne => absurd hh.swept hne) (fun _ _ a _ => hh.snapshot a)
    fun _ _ _ _ => hh.permit

theorem Held.Clean.open (hh : h.Clean permit building) (n : Str) :
    (h.done (.openTable n) ()).Clean permit building := by
  simp only [Held.done]
  split
  · exact ⟨hh.permit, hh.creating, hh.building, hh.swept, hh.stale, hh.doomed⟩
  · exact hh

theorem checked_openTableByName (hh : h.Clean permit building) (n : Str) :
    Checked c reembeds permit (fun _ => Held.Clean permit building) (openTableByName n) h := by
  refine Follows.bind (checked_tableNames hh) fun existing h hh => ?_
  split
  · refine Follows.bind (Follows.perform trivial (fun _ _ _ _ => hh.open n) fun _ _ _ _ => hh.permit)
      fun _ h hh => hh
  · exact hh

theorem checked_openActiveTable (hh : h.Clean permit building) (c' : Coordinate) :
    Checked c reembeds permit (fun _ => Held.Clean permit building) (openActiveTable c') h := by
  refine Follows.bind (checked_plain trivial hh hh.permit) fun name h hh => ?_
  cases name with
  | none => exact hh
  | some n => exact checked_openTableByName hh n

theorem checked_dropSource (hh : h.Clean permit building) (c' : Coordinate) (sourceId : String) :
    Checked c reembeds permit (fun _ => Held.Clean permit building) (dropSource c' sourceId) h := by
  refine Follows.bind (checked_openActiveTable hh c') fun table h hh => ?_
  cases table with
  | none => exact hh
  | some n => exact checked_plain trivial hh hh.permit

theorem checked_addToTable (hh : h.Clean permit building) (n : Str) (rows : List VectorRow) :
    Checked c reembeds permit (fun _ => Held.Clean permit building) (addToTable n rows) h := by
  unfold addToTable
  split
  · exact hh
  · refine Follows.bind (checked_openTableByName hh n) fun table h hh => ?_
    cases table with
    | none => exact hh.permit
    | some n => exact checked_plain trivial hh hh.permit

theorem checked_seed (hh : h.Clean permit building) (c' : Coordinate) (n : Str)
    (sourceId : String) : Checked c reembeds permit (fun _ => Held.Clean permit building)
      (seedBuildingFromActive c' n sourceId) h := by
  refine Follows.bind (checked_openActiveTable hh c') fun active h hh => ?_
  cases active with
  | none => exact hh
  | some active =>
    refine Follows.bind (checked_openTableByName hh n) fun table h hh => ?_
    cases table with
    | none => exact hh.permit
    | some table =>
      refine Follows.bind (checked_plain trivial hh hh.permit) fun rows h hh => ?_
      exact checked_plain trivial hh hh.permit

theorem checked_createBuildingTable (hh : h.Clean permit none)
    (hp : ¬ reembeds → permit = true) : Checked c reembeds permit
      (fun name => Held.Clean permit (some name)) (createBuildingTable c) h := by
  refine Follows.bind (Q := fun _ h => { h with creating := false }.Clean permit none ∧
    h.creating = true) (Follows.perform trivial (fun _ _ _ _ => ?_) fun _ _ _ _ => hh.permit) ?_
  · exact ⟨⟨hh.permit, rfl, hh.building, hh.swept, hh.stale, hh.doomed⟩, rfl⟩
  rintro existing h ⟨hh, hcr⟩
  refine Follows.bind (Q := fun _ h => { h with creating := false }.Clean permit none ∧
    h.creating = true) (Follows.perform (fun hne => absurd hh.swept hne) (fun _ _ _ _ => ?_)
      fun _ _ _ _ => hh.permit) ?_
  · exact ⟨hh.snapshot _, hcr⟩
  rintro physical h ⟨hh, hcr⟩
  refine Follows.bind (Q := fun _ => Held.Clean permit
    (some (freeTableName c (existing ++ physical)))) (Follows.perform ?_ (fun _ _ _ _ => ?_)
      fun _ _ _ _ => hh.permit) ?_
  · exact ⟨hh.building, fun _ => ⟨freeTableName_eq c _, fun hr => hh.permit.trans (hp hr)⟩⟩
  · show (h.done (.createEmptyTable _) ()).Clean _ _
    simp only [Held.done, if_pos hcr]
    exact ⟨hh.permit, rfl, rfl, hh.swept, hh.stale, hh.doomed⟩
  intro _ h hh
  exact Follows.bind (Q := fun _ => Held.Clean permit _)
    (Follows.perform ⟨rfl, hh.building⟩ (fun _ _ _ _ => hh) fun _ _ _ _ => hh.permit)
    fun _ h hh => hh

/-- The names to drop are listed, under the permit. -/
structure Held.Lists (names : List Str) (h : Held) : Prop where
  permit : h.permit = true
  creating : h.creating = false
  building : h.building = none
  listed : h.listed = names
  doomed : h.doomed = []

theorem Held.Lists.clean (hh : h.Lists []) : h.Clean true none := by
  have hl := hh.listed
  unfold Held.listed at hl
  split at hl
  · rename_i hsw
    exact ⟨hh.permit, hh.creating, hh.building, List.isEmpty_iff.mp hsw, by simpa using hl, hh.doomed⟩
  · rename_i hsw
    simp [hl] at hsw

theorem checked_dropTables {names : List Str} (hh : h.Lists names) :
    Checked c reembeds true (fun _ => Held.Clean true none) (dropTables names) h := by
  unfold dropTables
  split
  · rename_i hn
    rw [List.isEmpty_iff.mp hn] at hh
    exact hh.clean
  · -- The names still to come are doomed where the snapshot has them.
    let dropping (existing rest : List Str) (h : Held) : Prop :=
      { h with doomed := [] }.Clean true none ∧ h.doomed = rest.filter (· ∈ existing)
    refine Follows.bind (Q := fun existing => dropping existing names)
      (Follows.perform (fun _ => hh.building) (fun _ _ _ _ => ?_) fun _ _ _ _ => hh.permit) ?_
    · exact ⟨⟨hh.permit, hh.creating, hh.building, rfl, rfl, rfl⟩,
        congrArg (List.filter _) hh.listed⟩
    intro existing h hd
    refine (Follows.forEach (J := dropping existing) ?_ names hd).mono ?_ fun _ _ hf => hf
    · rintro x rest h ⟨hh, hd⟩
      split
      · rename_i hx
        rw [List.filter_cons_of_pos (by simpa using hx)] at hd
        refine Follows.perform ⟨hd ▸ List.mem_cons_self, hh.stale⟩ (fun _ _ _ _ => ?_)
          fun _ _ _ _ => hh.permit
        refine ⟨⟨hh.permit, hh.creating, hh.building, hh.swept, hh.stale, rfl⟩, ?_⟩
        show h.doomed.erase x = _
        rw [hd, List.erase_cons_head]
      · rename_i hx
        rw [List.filter_cons_of_neg (by simpa using hx)] at hd
        exact ⟨hh, hd⟩
    · rintro _ h ⟨hh, hd⟩
      exact ⟨hh.permit, hh.creating, hh.building, hh.swept, hh.stale, hd⟩

theorem checked_sweep (hh : h.Clean true none) (c' : Coordinate) : Checked c reembeds true
    (fun _ => Held.Clean true none) (sweepOrphanBuildingTables c') h := by
  refine Follows.bind (Q := fun names => Held.Lists names)
    (Follows.perform hh.permit (fun _ _ names _ => ?_) fun _ _ _ _ => hh.permit) ?_
  · refine ⟨hh.permit, hh.creating, hh.building, ?_, hh.doomed⟩
    show (if List.isEmpty names then h.stale.toList else names) = names
    rw [hh.stale]
    cases names <;> rfl
  intro names h hh
  split
  · rename_i hn
    rw [List.isEmpty_iff.mp hn] at hh
    exact hh.clean
  · exact Follows.bind (checked_dropTables hh) fun _ h hh => checked_plain trivial hh hh.permit

theorem checked_flipActive {n : Str} (hh : h.Clean true (some n)) : Checked c reembeds true
    (fun _ => Held.Clean true none) (flipActive c n) h := by
  refine Follows.bind (Q := fun stale => Held.Lists stale.toList)
    (Follows.perform ⟨rfl, hh.permit, hh.building, hh.swept, hh.doomed⟩ (fun _ _ stale _ => ?_)
      fun _ _ _ _ => hh.permit) ?_
  · refine ⟨hh.permit, hh.creating, rfl, ?_, hh.doomed⟩
    show (if h.swept.isEmpty then _ else h.swept) = _
    rw [hh.swept]
    rfl
  intro stale h hh
  cases stale with
  | none => exact hh.clean
  | some a => exact Follows.bind (checked_dropTables hh) fun _ h hh => checked_plain trivial hh hh.permit

/-- A table that is created under the permit counts as opened. -/
theorem checked_create (hh : h.Clean true none) (n : Str) : Checked c reembeds true
    (fun _ h => h.Clean true none ∧ h.opened = some n) (perform (.createEmptyTable n)) h := by
  refine Follows.perform ⟨hh.building, fun hcr => ?_⟩ (fun _ _ _ _ => ?_) fun _ _ _ _ => hh.permit
  · rw [hh.creating] at hcr
    cases hcr
  · show (h.done (.createEmptyTable n) ()).Clean _ _ ∧ (h.done (.createEmptyTable n) ()).opened = _
    simp only [Held.done, hh.creating, Bool.false_eq_true, if_false, if_pos hh.permit]
    exact ⟨⟨hh.permit, rfl, hh.building, hh.swept, hh.stale, hh.doomed⟩, trivial⟩

theorem checked_ensureTable (hh : h.Clean true none) : Checked c reembeds true
    (fun _ => Held.Clean true none) (ensureTable c) h := by
  refine Follows.bind (checked_plain trivial hh hh.permit) fun name h hh => ?_
  cases name with
  | some activeName =>
    refine Follows.bind (checked_openTableByName hh activeName) fun table h hh => ?_
    cases table with
    | some table => exact hh
    | none =>
      exact Follows.bind (checked_create hh activeName) fun _ h hh => hh.1
  | none =>
    refine Follows.bind (checked_tableNames hh) fun existing h hh => ?_
    have hregister : ∀ h : Held, h.Clean true none ∧ h.opened = some (genTableName c 0) →
        Checked c reembeds true (fun _ => Held.Clean true none) (do
          perform (.register c (genTableName c 0) .active : Cmd)
          return genTableName c 0) h := by
      rintro h ⟨hh, ho⟩
      exact Follows.bind (Q := fun _ => Held.Clean true none)
        (Follows.perform ⟨rfl, rfl, ho, hh.swept, hh.stale, hh.doomed⟩ (fun _ _ _ _ => hh)
          fun _ _ _ _ => hh.permit) fun _ h hh => hh
    dsimp only
    split
    · refine Follows.bind (Q := fun _ h => h.Clean true none ∧
        h.opened = some (genTableName c 0)) (Follows.perform trivial (fun _ _ _ _ => ?_)
          fun _ _ _ _ => hh.permit) fun _ h hh => hregister h hh
      refine ⟨hh.open _, ?_⟩
      show (h.done (.openTable _) ()).opened = _
      simp only [Held.done, if_pos hh.permit]
    · exact Follows.bind (checked_create hh _) fun _ h hh => hregister h hh

theorem checked_addVectors (hh : h.Clean true none) (rows : List VectorRow) : Checked c reembeds true
    (fun _ => Held.Clean true none) (addVectors c rows) h := by
  unfold addVectors
  split
  · exact hh
  · exact Follows.bind (checked_ensureTable hh) fun _ h hh => checked_plain trivial hh hh.permit

theorem checked_lift {α : Type} {J : Held → Prop} (x : Except LensError α) (hj : J h)
    (hp : h.permit = permit) : Checked c reembeds permit (fun _ => J) (lift x) h := by
  cases x with
  | ok a => exact hj
  | error e => exact hp

theorem checked_liftFault {α : Type} {J : Held → Prop} (x : Except Fault α) (hj : J h)
    (hp : h.permit = permit) : Checked c reembeds permit (fun _ => J) (liftFault x) h := by
  cases x with
  | ok a => exact hj
  | error e =>
    cases e with
    | parse msg => exact hp
    | panic => exact hp

theorem checked_resolve {J : Held → Prop} (hj : J h) (hp : h.permit = permit) :
    Checked c reembeds permit (fun coord h => coord = c ∧ J h)
      (perform (.resolveNotebookEmbedding : Cmd)) h := by
  refine Follows.perform trivial ?_ fun _ _ _ _ => hp
  rintro x s coord ⟨hs, s', hr⟩
  obtain ⟨_, hrun⟩ := Cmd.react_ok (c := .resolveNotebookEmbedding) hr
  cases hrun
  exact ⟨hs, hj⟩

section Ingest

variable {F T : Type} {e : Surroundings F T} {id : String}

theorem checked_setTerminalPending (hh : h.Clean true none) (status : SourceStatus) :
    Checked c reembeds true (fun _ => Held.Clean true none) (setTerminalPending id status) h := by
  refine Follows.bind (Q := fun _ => Held.Clean true none) ?_ fun _ h hh =>
    checked_plain trivial hh hh.permit
  refine Follows.bind (checked_resolve hh hh.permit) ?_
  rintro coord h ⟨_, hh⟩
  refine Follows.bind (checked_dropSource hh coord id) fun _ h hh => ?_
  refine Follows.bind (checked_plain trivial hh hh.permit) fun _ h hh => ?_
  exact checked_plain trivial hh hh.permit

theorem checked_persistSiblings (hh : h.Clean true none) (source : Source) (out : ExtractOutput T) :
    Checked c reembeds true (fun _ => Held.Clean true none) (persistSiblings source out) h := by
  unfold persistSiblings
  dsimp only
  split
  · cases out.tableMarkdown with
    | some md => exact checked_plain trivial hh hh.permit
    | none => exact hh
  · refine Follows.bind (checked_plain trivial hh hh.permit) fun _ h hh => ?_
    refine Follows.bind (checked_plain trivial hh hh.permit) fun _ h hh => ?_
    cases out.tableMarkdown with
    | some md => exact checked_plain trivial hh hh.permit
    | none => exact hh

/-- The handler of a failure only writes the source's row, whatever the job holds. -/
theorem checked_onFailure (hp : h.permit = true) (stop : Stop) : Checked c reembeds true
    (fun _ h => h.permit = true) (onFailure e id stop) h := by
  have hwrite : ∀ p : Job Unit, ∀ h : Held, Checked c reembeds true (fun _ h => h.permit = true) p h →
      Checked c reembeds true (fun _ h => h.permit = true) (ignoring p) h :=
    fun _ _ hchecked => Follows.handle hchecked fun _ _ hp => hp
  cases stop with
  | panicked => exact hp
  | failed err =>
    refine Follows.bind (Q := fun _ h => h.permit = true) ?_ fun _ h (hp : h.permit = true) => hp
    unfold recordFailure
    split
    · exact Follows.bind (hwrite _ _ (checked_plain trivial hp hp)) fun _ h hp =>
        hwrite _ _ (checked_plain trivial hp hp)
    · refine Follows.bind (Q := fun _ h => h.permit = true) ?_ fun _ h hp =>
        hwrite _ _ (checked_plain trivial hp hp)
      exact Follows.handle (checked_plain trivial hp hp) fun _ h (hp : h.permit = true) => hp

variable [LinearOrder T]

theorem checked_chunkOutput (hh : h.Clean true none) (out : ExtractOutput T) : Checked c reembeds
    true (fun _ => Held.Clean true none) (chunkOutput e out) h := by
  refine Follows.bind (checked_lift _ hh hh.permit) fun tokenizer h hh => ?_
  refine Follows.bind (checked_liftFault _ hh hh.permit) fun chunks h hh => ?_
  exact checked_lift _ hh hh.permit

theorem checked_finishIndexed (hh : h.Clean true none) (tokens : Nat) (contentHash : String)
    (language : Option String) : Checked c reembeds true (fun _ => Held.Clean true none)
      (finishIndexed id tokens contentHash language) h := by
  refine Follows.bind (checked_plain trivial hh hh.permit) fun _ h hh => ?_
  refine Follows.bind (checked_plain trivial hh hh.permit) fun _ h hh => ?_
  exact checked_plain trivial hh hh.permit

theorem checked_indexPdf (hh : h.Clean true none) (chunks : List Chunk) : Checked c reembeds true
    (fun _ => Held.Clean true none) (indexPdf c id chunks) h := by
  refine Follows.bind (checked_sweep hh c) fun _ h hh => ?_
  refine Follows.bind (checked_createBuildingTable hh fun _ => rfl) fun name h hh => ?_
  refine Follows.bind (checked_seed hh c name id) fun _ h hh => ?_
  refine Follows.bind (Follows.forEach (J := fun _ => Held.Clean true (some name)) ?_ _ hh)
    fun _ h hh => ?_
  · intro batch _ h hh
    refine Follows.bind (checked_plain trivial hh hh.permit) fun _ h hh => ?_
    exact checked_addToTable hh name _
  · refine Follows.bind (checked_plain trivial hh hh.permit) fun _ h hh => ?_
    exact checked_flipActive hh

theorem checked_indexDirect (hh : h.Clean true none) (chunks : List Chunk) : Checked c reembeds true
    (fun _ => Held.Clean true none) (indexDirect c id chunks) h := by
  refine Follows.bind (Follows.forEach (J := fun _ => Held.Clean true none) ?_ _ hh)
    fun _ h hh => checked_addVectors hh _
  intro batch _ h hh
  exact checked_plain trivial hh hh.permit

theorem checked_replaceContent (hh : h.Clean true none) (source : Source) (out : ExtractOutput T)
    (contentHash : String) : Checked c reembeds true (fun _ => Held.Clean true none)
      (replaceContent e source c out contentHash) h := by
  refine Follows.bind (checked_plain trivial hh hh.permit) fun _ h hh => ?_
  refine Follows.bind (checked_chunkOutput hh out) fun chunks h hh => ?_
  refine Follows.bind (checked_dropSource hh c _) fun _ h hh => ?_
  refine Follows.bind (checked_plain trivial hh hh.permit) fun _ h hh => ?_
  refine Follows.bind (checked_plain trivial hh hh.permit) fun _ h hh => ?_
  refine Follows.bind (checked_plain trivial hh hh.permit) fun _ h hh => ?_
  split
  · exact checked_finishIndexed hh _ _ _
  · refine Follows.bind (checked_plain trivial hh hh.permit) fun _ h hh => ?_
    refine Follows.bind (checked_plain trivial hh hh.permit) fun _ h hh => ?_
    dsimp only
    split
    · exact Follows.bind (checked_indexPdf hh chunks) fun _ h hh => checked_finishIndexed hh _ _ _
    · exact Follows.bind (checked_indexDirect hh chunks) fun _ h hh => checked_finishIndexed hh _ _ _

theorem checked_indexExtractOutput (hh : h.Clean true none) (source : Source) (raw : List UInt8)
    (out : ExtractOutput T) : Checked c reembeds true (fun _ => Held.Clean true none)
      (indexExtractOutput e source raw out) h := by
  unfold indexExtractOutput
  split
  · exact hh.permit
  · refine Follows.bind (checked_persistSiblings hh source out) fun _ h hh => ?_
    dsimp only
    generalize e.sha256Hex (if source.kind.isTextLike then _ else raw) = contentHash
    split
    · exact hh
    · refine Follows.bind (checked_resolve hh hh.permit) ?_
      rintro coord h ⟨rfl, hh⟩
      exact checked_replaceContent hh source out _

theorem checked_renderPage (hh : h.Clean true none) (source : Source) (raw : List UInt8) :
    Checked c reembeds true (fun _ => Held.Clean true none) (renderPage e source raw) h := by
  unfold renderPage
  split
  · exact checked_setTerminalPending hh _
  · exact checked_setTerminalPending hh _
  · split
    · exact checked_indexExtractOutput hh source raw _
    · exact checked_setTerminalPending hh _

theorem checked_tryJsRender (hh : h.Clean true none) (source : Source) (raw : List UInt8)
    (out : ExtractOutput T) : Checked c reembeds true (fun _ => Held.Clean true none)
      (tryJsRender e source raw out) h := by
  unfold tryJsRender
  split
  · exact Follows.bind (checked_renderPage hh source raw) fun _ h hh => hh
  · exact hh

theorem checked_ingestExtracted (hh : h.Clean true none) (source : Source) (raw : List UInt8) :
    Checked c reembeds true (fun _ => Held.Clean true none) (ingestExtracted e source raw) h := by
  refine Follows.bind (checked_lift _ hh hh.permit) fun out h hh => ?_
  split
  · exact checked_setTerminalPending hh _
  · split
    · refine Follows.bind (checked_tryJsRender hh source raw out) fun handled h hh => ?_
      split
      · exact hh
      · exact checked_indexExtractOutput hh source raw out
    · exact checked_indexExtractOutput hh source raw out

theorem checked_runIngest [Zero T] (hh : h.Clean true none) : Checked c reembeds true
    (fun _ => Held.Clean true none) (runIngest e id) h := by
  refine Follows.bind (checked_plain trivial hh hh.permit) fun source h hh => ?_
  cases source with
  | none => exact hh.permit
  | some source =>
    refine Follows.bind (checked_lift _ hh hh.permit) fun raw h hh => ?_
    split
    · exact hh
    · split
      · refine Follows.bind (checked_lift _ hh hh.permit) fun segments h hh => ?_
        refine Follows.bind (checked_lift _ hh hh.permit) fun out h hh => ?_
        exact checked_indexExtractOutput hh source raw out
      · exact checked_ingestExtracted hh source raw

end Ingest

/-- The permit is taken around a job that keeps to the discipline under it. -/
theorem checked_withPermit {α : Type} {p : Job α} {Q : α → Held → Prop}
    (hh : h.Clean false building)
    (hp : ∀ h : Held, h.Clean true building → Checked c reembeds true Q p h)
    (hpost : ∀ a h, Q a h → h.permit = true) : Checked c reembeds false
      (fun _ => Held.Clean false none) (withPermit p) h := by
  refine Follows.bind (Q := fun _ => Held.Clean true building)
    (Follows.perform trivial (fun _ _ _ _ => ?_) fun _ _ _ _ => hh.permit) fun _ h hh => ?_
  · exact ⟨rfl, hh.creating, hh.building, hh.swept, hh.stale, hh.doomed⟩
  have hrelease : ∀ h : Held, h.permit = true → Checked c reembeds false
      (fun _ => Held.Clean false none) (perform (.release : Cmd)) h := by
    intro h hp
    refine Follows.perform hp (fun _ _ _ _ => ⟨rfl, rfl, rfl, rfl, rfl, rfl⟩) ?_
    rintro x s stop ⟨_, s', hr⟩
    exact absurd hr Cmd.release_succeeds
  refine Follows.ensuring (hp h hh) (fun a h ha => hrelease h (hpost a h ha)) fun stop h hp => ?_
  exact (hrelease h hp).mono (fun _ _ hh => hh.permit) fun _ _ hp => hp

theorem checked_ingestSource {F T : Type} [LinearOrder T] [Zero T] (e : Surroundings F T)
    (id : String) (hh : h.Clean false none) : Checked c reembeds false
      (fun _ => Held.Clean false none) (ingestSource e id) h := by
  apply checked_withPermit (Q := fun _ h => h.permit = true) hh
  · intro h hh
    exact Follows.handle ((checked_runIngest hh).mono (fun _ _ hh => hh.permit) fun _ _ hp => hp)
      fun stop h hp => checked_onFailure hp stop
  · exact fun _ _ hp => hp

theorem checked_populateAndFlip (hr : reembeds) (sourceId : String) (chunks : List ReembedChunk)
    (hh : h.Clean false none) : Checked c reembeds false (fun _ => Held.Clean false none)
      (populateAndFlip sourceId chunks) h := by
  refine Follows.bind (checked_resolve hh hh.permit) ?_
  rintro coord h ⟨rfl, hh⟩
  refine Follows.bind (checked_plain trivial hh hh.permit) fun _ h hh => ?_
  refine Follows.bind (checked_createBuildingTable hh (absurd hr)) fun name h hh => ?_
  refine Follows.bind (checked_seed hh _ name sourceId) fun _ h hh => ?_
  refine Follows.bind (Follows.forEach (J := fun _ => Held.Clean false (some name)) ?_ _ hh)
    fun _ h hh => ?_
  · intro batch _ h hh
    refine Follows.bind (checked_plain trivial hh hh.permit) fun _ h hh => ?_
    exact checked_addToTable hh name _
  refine Follows.bind (checked_withPermit (Q := fun _ h => h.permit = true) hh ?_ ?_)
    fun flipped h hh => ?_
  · intro h hh
    refine Follows.bind (checked_plain trivial hh hh.permit) fun source h hh => ?_
    cases source with
    | none => exact hh.permit
    | some source => exact Follows.bind (checked_flipActive hh) fun _ h hh => hh.permit
  · exact fun _ _ hp => hp
  · split
    · exact checked_plain trivial hh hh.permit
    · exact hh

theorem checked_reembedAndFlip (hr : reembeds) (sourceId : String) (docSummary : Str)
    (summaryId : String) (hh : h.Clean false none) : Checked c reembeds false
      (fun _ => Held.Clean false none) (reembedAndFlip sourceId docSummary summaryId) h := by
  have hrest : ∀ h : Held, h.Clean false none → Checked c reembeds false
      (fun _ => Held.Clean false none) (do
        let chunks ← perform (.listChunksForReembed sourceId : Cmd)
        if chunks.isEmpty then perform (.updateEnrichmentStatus sourceId .enriched : Cmd)
        else populateAndFlip sourceId chunks) h := by
    intro h hh
    refine Follows.bind (checked_plain trivial hh hh.permit) fun chunks h hh => ?_
    split
    · exact checked_plain trivial hh hh.permit
    · exact checked_populateAndFlip hr sourceId chunks hh
  unfold reembedAndFlip
  dsimp only
  split
  · exact hrest h hh
  · exact Follows.bind (checked_plain trivial hh hh.permit) fun _ h hh => hrest h hh

end Programs

section Runs

variable {F T ι : Type} [LinearOrder T] [Zero T]

theorem checked_program (job : SweepJob F T) (c : Coordinate) : Checked c job.Reembeds false
    (fun _ => Held.Clean false none) job.program {} := by
  have hh : Held.Clean false none {} := ⟨rfl, rfl, rfl, rfl, rfl, rfl⟩
  cases job with
  | reembed sourceId docSummary summaryId =>
    exact checked_reembedAndFlip trivial sourceId docSummary summaryId hh
  | ingest e sourceId => exact checked_ingestSource e sourceId hh

/-- Only a change of the settings moves the coordinate. -/
theorem Cmd.run_coordinate {cmd : Cmd} {c : Coordinate} {P : Prop} {h : Held} {s s' : EngineState}
    (hallow : sweepAllows c P cmd h) {a : cmd.Reply} (hrun : cmd.run s = .ok (a, s')) :
    s'.coordinate = s.coordinate := by
  cases cmd with
  | setEmbeddingModel => cases hallow
  | flipActiveTxn c n =>
    simp only [Cmd.run] at hrun
    cases hr : s.registry.flip c n with
    | error e =>
      rw [hr] at hrun
      cases hrun
    | ok r =>
      rw [hr] at hrun
      cases hrun
      rfl
  | _ =>
    simp only [Cmd.run] at hrun
    try split at hrun
    all_goals cases hrun
    all_goals rfl

variable [DecidableEq ι]

theorem sweepInv_step {P : ι → Prop} {c : Coordinate} {held : ι → Held} {i : ι} {cmd : Cmd}
    {x : Option LensError} {s s' : EngineState} {r : Except Stop cmd.Reply}
    (hinv : SweepInv P held s ∧ s.coordinate = c)
    (hallow : sweepAllows c (P i) cmd (held i))
    (hg : cmd = .tableNames → (held i).swept.Nodup ∧
      ∀ n ∈ (held i).swept, ∀ j, P j → (held j).building ≠ some n)
    (hr : cmd.react x s = some (r, s')) :
    SweepInv P (Function.update held i (sweepMachine.note (held i) ⟨cmd, x, s, r⟩)) s' ∧
      s'.coordinate = c := by
  obtain ⟨hinv, rfl⟩ := hinv
  cases r with
  | ok a =>
    obtain ⟨hb, hrun⟩ := Cmd.react_ok hr
    exact ⟨hinv.done hb hallow hg hrun, Cmd.run_coordinate hallow hrun⟩
  | error stop =>
    obtain ⟨rfl, _⟩ := Cmd.react_error hr
    exact ⟨hinv.failed, rfl⟩

end Runs

/-- An indexed source that an enrichment embeds anew, and a PDF that waits. -/
def sweepSources : EngineState where
  notebook := "nb".toList
  embeddingModel := none
  embeddingBackend := none
  sources := [⟨"A", .text, .indexed, false, none, none, .enriching, false, none, none⟩,
    ⟨"B", .pdf, .queued, false, none, none, .none, false, none, none⟩]
  chunks := [⟨"a0", "A", .hierarchy .parent, 0, ['a'], some 0, 0, 1, none⟩]
  sections := []
  registry := ⟨[], List.nodup_nil⟩
  tables := ∅
  extracted := ∅
  tableMarkdown := ∅
  ingestLock := false

def onePage : ExtractOutput Nat where
  extractedText := ['b']
  blocks := [⟨.paragraph, [], ['b'], 0, 1⟩]
  anchors := []
  tableMarkdown := none

def pdfSurroundings : Surroundings Nat Nat where
  maxSourceBytes := 100
  fetchUrl := .ok []
  fileSize := .ok 1
  readFile := .ok [0]
  sha256Hex _ := "hash"
  segments := .ok []
  floats := ⟨fun _ => none, fun _ => ""⟩
  extract _ _ := .ok onePage
  belowTextRatio _ _ := false
  renderer := none
  extractHtml _ := .ok onePage
  detectLanguage _ := none
  tokenizer := .ok (Tokenizer.ofCount List.length)
  nowV7 level ordinal := toString level ++ "-" ++ toString ordinal
  anchorJson _ := none
  now := ""

/-- The re-embed is the job `true`. -/
def sweepPair : Bool → SweepJob Nat Nat
  | true => .reembed "A" [] "summary"
  | false => .ingest pdfSurroundings "B"

def sweepStart : Pool Bool Cmd Cmd.Reply Stop Unit EngineState Held :=
  Pool.start sweepSources {} fun i => (sweepPair i).program

/-- The re-embed creates and registers its table, then the ingest runs to the end of its sweep. -/
def sweepSchedule : List (Bool × Option LensError) :=
  List.replicate 7 (true, none) ++ List.replicate 15 (false, none)

theorem sweepSources_inOrder : sweepSources.InOrder := ⟨nofun, nofun, nofun, nofun⟩

end LensLM
