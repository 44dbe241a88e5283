import LensLM.Ingest
import LensLM.Lib.Throughout
import LensLM.TableRegistryRuns

/-!
# The vectors of indexed sources

A source that is indexed has the chunk rows of its last ingest, and a vector for each of them in the
active table. What a command may be issued for without breaking this is said once, and what the
vector store's operations do is derived from it.
-/

namespace LensLM

open ByteText Programs Program

set_option autoImplicit false

/-- A chunk row has its vector among the rows of a table. -/
def StoredChunk.VectorIn (row : StoredChunk) (rows : List VectorRow) : Prop :=
  ∃ v ∈ rows, v.chunkId = row.id ∧ v.sourceId = row.sourceId

instance (row : StoredChunk) (rows : List VectorRow) : Decidable (row.VectorIn rows) :=
  inferInstanceAs (Decidable (∃ _ ∈ _, _))

theorem StoredChunk.VectorIn.mono {row : StoredChunk} {rows rows' : List VectorRow}
    (h : row.VectorIn rows) (hsub : ∀ v ∈ rows, v.sourceId = row.sourceId → v ∈ rows') :
    row.VectorIn rows' := by
  obtain ⟨v, hv, hid, hsource⟩ := h
  exact ⟨v, hsub v hv hsource, hid, hsource⟩

/-- The rows of a table, if it exists. -/
def EngineState.rowsOf (s : EngineState) (name : Str) : List VectorRow :=
  (s.tables.lookup name).getD []

/-- The rows of the coordinate's active table. -/
def EngineState.activeRows (s : EngineState) (c : Coordinate) : List VectorRow :=
  ((s.registry.activeName c).map s.rowsOf).getD []

/-- The engine, and the chunk rows that each source had when its last ingest ended well. -/
structure Recorded where
  engine : EngineState
  written : String → List StoredChunk

/-- The source that a command makes indexed. -/
def Cmd.indexes : Cmd → Option String
  | .updateSourceStatus id .indexed => some id
  | _ => none

def Recorded.after (w : Recorded) (cmd : Cmd) (s : EngineState) : Recorded where
  engine := s
  written := match cmd.indexes with
    | some id => Function.update w.written id (s.chunksOf id)
    | none => w.written

def Recorded.react (cmd : Cmd) (fault : Option LensError) (w : Recorded) :
    Option (Except Stop cmd.Reply × Recorded) :=
  match cmd.react fault w.engine with
  | none => none
  | some (.ok a, s) => some (.ok a, w.after cmd s)
  | some (.error stop, s) => some (.error stop, { w with engine := s })

/-- A command is carried out, or it fails and changes nothing. -/
theorem Recorded.react_cases {cmd : Cmd} {fault : Option LensError} {w t : Recorded}
    {r : Except Stop cmd.Reply} (h : Recorded.react cmd fault w = some (r, t)) :
    (∃ a s, r = .ok a ∧ cmd.run w.engine = .ok (a, s) ∧ t = w.after cmd s) ∨
      ∃ stop, r = .error stop ∧ t = w := by
  unfold Recorded.react at h
  split at h
  · cases h
  · rename_i hreact
    cases h
    exact .inl ⟨_, _, rfl, (Cmd.react_ok hreact).2, rfl⟩
  · rename_i hreact
    cases h
    obtain ⟨rfl, _, _⟩ := Cmd.react_error hreact
    exact .inr ⟨_, rfl, rfl⟩

section Sound

variable {K : Coordinate → Prop} {c : Coordinate} {w : Recorded} {s s' : EngineState}

/-- No source of this id is indexed. -/
def EngineState.Unindexed (s : EngineState) (id : String) : Prop :=
  ∀ x ∈ s.sources, x.id = id → x.status ≠ .indexed

/-- The source may be wiped: it is not indexed, or has no chunk rows. -/
def EngineState.Wipeable (s : EngineState) (id : String) : Prop :=
  s.Unindexed id ∨ s.chunksOf id = []

instance (s : EngineState) (id : String) : Decidable (s.Unindexed id) :=
  inferInstanceAs (Decidable (∀ _ ∈ _, _))

instance (s : EngineState) (id : String) : Decidable (s.Wipeable id) :=
  inferInstanceAs (Decidable (_ ∨ _))

/-- Every indexed source has the chunk rows of its last ingest, and a vector for each of them in the
active table. -/
def Recorded.Complete (w : Recorded) : Prop :=
  ∀ x ∈ w.engine.sources, x.status = .indexed → w.engine.chunksOf x.id = w.written x.id ∧
    ∀ row ∈ w.engine.chunksOf x.id, row.VectorIn (w.engine.activeRows w.engine.coordinate)

/-- What holds at every command. A row of the coordinate that is not building was active once, and
there has been an active one since. -/
structure IndexSound (K : Coordinate → Prop) (c : Coordinate) (w : Recorded) : Prop where
  coordinate : w.engine.coordinate = c
  kept : RegistryKept K w.engine
  first : ∀ row ∈ w.engine.registry.rows, row.coord = c → row.status ≠ .building →
    (w.engine.registry.activeName c).isSome
  rows : ∀ x ∈ w.engine.sources, x.status = .indexed →
    w.engine.chunksOf x.id = w.written x.id
  vectors : ∀ x ∈ w.engine.sources, x.status = .indexed →
    ∀ row ∈ w.engine.chunksOf x.id, row.VectorIn (w.engine.activeRows c)

theorem IndexSound.complete (h : IndexSound K c w) : w.Complete := by
  intro x hx hs
  rw [h.coordinate]
  exact ⟨h.rows x hx hs, h.vectors x hx hs⟩

/-- What a command may be issued for. -/
def Cmd.Safe (K : Coordinate → Prop) (c : Coordinate) (s : EngineState) : Cmd → Prop
  | .setEmbeddingModel _ _ | .demoteActiveToStale _ | .purgeSource _
  | .insertSummaryChunk _ _ _ => False
  | .updateSourceStatus id status =>
    status = .indexed → ∀ row ∈ s.chunksOf id, row.VectorIn (s.activeRows c)
  | .replaceChunks id _ _ => s.Unindexed id
  | .wipeChunks id | .deleteRows _ id => s.Wipeable id
  | .dropTable name => ∀ row ∈ s.registry.rows, row.status = .active → row.table ≠ name
  | .deleteRowByTable _ name => ∀ row ∈ s.registry.rows, row.status = .active → row.table ≠ name
  | .register c' name status => c' = c ∧ K c ∧ name ∈ s.tables ∧
    (∀ row ∈ s.registry.rows, row.table ≠ name) ∧
    (status = .building ∧ (∃ g, 0 < g ∧ name = genTableName c g) ∨
      status = .active ∧ name = genTableName c 0 ∧ s.registry.activeName c = none)
  | .flipActiveTxn c' building => c' = c ∧ building ∈ s.tables ∧
    ∀ x ∈ s.sources, x.status = .indexed →
      ∀ row ∈ s.chunksOf x.id, row.VectorIn (s.rowsOf building)
  | _ => True

theorem rowsOf_withRows (s : EngineState) (name n : Str) (rows : List VectorRow) :
    (s.withRows name rows).rowsOf n = if n = name then rows else s.rowsOf n := by
  unfold EngineState.rowsOf EngineState.withRows
  split
  · rename_i hn
    rw [hn, AList.lookup_insert]
    rfl
  · rename_i hn
    rw [AList.lookup_insert_ne hn]

theorem activeRows_of_name {n : Str} (h : s.registry.activeName c = some n) :
    s.activeRows c = s.rowsOf n := by
  rw [EngineState.activeRows, h]
  rfl

/-- The active table's rows, where the registry is the same and the tables are read the same. -/
theorem activeRows_congr (hname : s'.registry.activeName c = s.registry.activeName c)
    (hrows : ∀ n, s.registry.activeName c = some n → s'.rowsOf n = s.rowsOf n) :
    s'.activeRows c = s.activeRows c := by
  unfold EngineState.activeRows
  rw [hname]
  cases hn : s.registry.activeName c with
  | none => rfl
  | some n => exact hrows n hn

theorem activeRows_withRows_active {name : Str} {rows : List VectorRow}
    (h : s.registry.activeName c = some name) : (s.withRows name rows).activeRows c = rows := by
  have h' : (s.withRows name rows).registry.activeName c = some name := h
  rw [activeRows_of_name h', rowsOf_withRows, if_pos rfl]

theorem activeRows_withRows_other {name : Str} {rows : List VectorRow}
    (h : s.registry.activeName c ≠ some name) :
    (s.withRows name rows).activeRows c = s.activeRows c := by
  refine activeRows_congr rfl fun n hn => ?_
  rw [rowsOf_withRows, if_neg]
  intro hne
  exact h (hn.trans (congrArg some hne))

theorem Registry.activeName_delete {r : Registry} {p : RegistryRow → Bool}
    (hp : ∀ row ∈ r.rows, row.status = .active → p row = false) (c : Coordinate) :
    (r.delete p).activeName c = r.activeName c := by
  cases hname : r.activeName c with
  | some n =>
    have hrow := Registry.activeName_eq_some hname
    apply Registry.activeName_of_mem
    exact List.mem_filter.mpr ⟨hrow, by simp [hp _ hrow rfl]⟩
  | none =>
    cases hdeleted : (r.delete p).activeName c with
    | none => rfl
    | some n =>
      have hrow := List.mem_of_mem_filter (Registry.activeName_eq_some hdeleted)
      rw [Registry.activeName_of_mem hrow] at hname
      cases hname

theorem Registry.activeName_building (r : Registry) (c c' : Coordinate) (name : Str) :
    (r.register ⟨c', name, .building⟩).activeName c = r.activeName c := by
  unfold Registry.activeName
  rw [Registry.register_building, List.find?_append]
  have hnot : ¬ RegistryRow.Is c .active ⟨c', name, .building⟩ := fun h => by cases h.2
  simp [hnot]

theorem Registry.activeName_first {r : Registry} {c : Coordinate} (h : r.activeName c = none)
    (name : Str) : (r.register ⟨c, name, .active⟩).activeName c = some name := by
  apply Registry.activeName_of_mem
  have hcoords : (activeCoords (r.rows ++ [⟨c, name, .active⟩])).Nodup := by
    unfold activeCoords
    rw [List.filter_append, List.map_append]
    refine Slots.nodup_push r.uqActive fun hmem => ?_
    obtain ⟨row, hrow, hc⟩ := List.mem_map.mp hmem
    obtain ⟨hrow, hactive⟩ := List.mem_filter.mp hrow
    have hfind := List.find?_eq_none.mp (Option.map_eq_none_iff.mp h) row hrow
    exact absurd (show row.Is c .active from ⟨hc, of_decide_eq_true hactive⟩) (by simpa using hfind)
  unfold Registry.register Registry.ofRows
  rw [dif_pos hcoords]
  simp

section Steps

/-- The tables and the registry change, and the vectors of the chunk rows are still there. -/
theorem IndexSound.onTables (h : IndexSound K c w) (registry : Registry)
    (tables : AList fun _ : Str => List VectorRow)
    (hkept : RegistryKept K { w.engine with registry := registry, tables := tables })
    (hfirst : ∀ row ∈ registry.rows, row.coord = c → row.status ≠ .building →
      (registry.activeName c).isSome)
    (hvectors : ∀ x ∈ w.engine.sources, x.status = .indexed → ∀ row ∈ w.engine.chunksOf x.id,
      row.VectorIn (w.engine.activeRows c) → row.VectorIn
        (EngineState.activeRows { w.engine with registry := registry, tables := tables } c)) :
    IndexSound K c
      { w with engine := { w.engine with registry := registry, tables := tables } } where
  coordinate := h.coordinate
  kept := hkept
  first := hfirst
  rows := h.rows
  vectors x hx hs row hrow := hvectors x hx hs row hrow (h.vectors x hx hs row hrow)

/-- A table gets other rows. -/
theorem IndexSound.withRows (h : IndexSound K c w) (name : Str) (rows : List VectorRow)
    (hrows : w.engine.registry.activeName c = some name → ∀ x ∈ w.engine.sources,
      x.status = .indexed → ∀ row ∈ w.engine.chunksOf x.id,
        row.VectorIn (w.engine.rowsOf name) → row.VectorIn rows) :
    IndexSound K c { w with engine := w.engine.withRows name rows } := by
  refine h.onTables _ _ (h.kept.withRows name rows) h.first fun x hx hs row hrow hv => ?_
  show row.VectorIn ((w.engine.withRows name rows).activeRows c)
  by_cases hname : w.engine.registry.activeName c = some name
  · rw [activeRows_of_name hname] at hv
    rw [activeRows_withRows_active hname]
    exact hrows hname x hx hs row hrow hv
  · rw [activeRows_withRows_other hname]
    exact hv

/-- Registry rows that are not active may go. -/
theorem IndexSound.delete (h : IndexSound K c w) {p : RegistryRow → Bool}
    (hp : ∀ row ∈ w.engine.registry.rows, row.status = .active → p row = false) :
    IndexSound K c
      { w with engine := w.engine.withRegistry (w.engine.registry.delete p) } := by
  have hname := Registry.activeName_delete hp c
  refine h.onTables _ _ (h.kept.delete p) ?_ fun x hx hs row hrow hv => ?_
  · intro row hrow hc hb
    rw [hname]
    exact h.first row (List.mem_of_mem_filter hrow) hc hb
  · show row.VectorIn ((w.engine.withRegistry (w.engine.registry.delete p)).activeRows c)
    have hsame : (w.engine.withRegistry (w.engine.registry.delete p)).activeRows c =
        w.engine.activeRows c := activeRows_congr hname fun _ _ => rfl
    rw [hsame]
    exact hv

/-- A building row is added, or the first row of the coordinate. -/
theorem IndexSound.register (h : IndexSound K c w) {name : Str} {status : IndexStatus}
    (hsafe : (Cmd.register c name status).Safe K c w.engine) :
    IndexSound K c { w with
      engine := w.engine.withRegistry (w.engine.registry.register ⟨c, name, status⟩) } := by
  obtain ⟨_, hK, htable, hfresh, hstatus⟩ := hsafe
  rcases hstatus with ⟨rfl, g, hg, hname⟩ | ⟨rfl, hname, hnone⟩
  · have hactive := Registry.activeName_building w.engine.registry c c name
    have hkept := h.kept.register ⟨c, name, .building⟩ hK ⟨g, hname, fun _ => hg⟩ hfresh htable
    refine h.onTables _ _ hkept ?_ fun x hx hs row hrow hv => ?_
    · intro row hrow hc hb
      rw [hactive]
      rcases Registry.mem_register hrow with hrow | rfl
      · exact h.first row hrow hc hb
      · exact absurd rfl hb
    · have hsame : (w.engine.withRegistry
          (w.engine.registry.register ⟨c, name, .building⟩)).activeRows c =
          w.engine.activeRows c := activeRows_congr hactive fun _ _ => rfl
      show row.VectorIn ((w.engine.withRegistry _).activeRows c)
      rw [hsame]
      exact hv
  · have hkept := h.kept.register ⟨c, name, .active⟩ hK ⟨0, hname, fun h => by cases h⟩ hfresh
      htable
    refine h.onTables _ _ hkept ?_ fun x hx hs row hrow hv => ?_
    · intro row _ _ _
      rw [Registry.activeName_first hnone]
      rfl
    · -- Without an active table no chunk row has a vector.
      have hempty : w.engine.activeRows c = [] := by
        unfold EngineState.activeRows
        rw [hnone]
        rfl
      rw [hempty] at hv
      obtain ⟨v, hv, _⟩ := hv
      cases hv

theorem IndexSound.flip (h : IndexSound K c w) {building : Str} {r : Registry}
    (hsafe : (Cmd.flipActiveTxn c building).Safe K c w.engine)
    (hflip : w.engine.registry.flip c building = .ok r) :
    IndexSound K c { w with engine := w.engine.withRegistry r } := by
  obtain ⟨_, htable, hrows⟩ := hsafe
  have hname := Registry.activeName_flip hflip
  refine h.onTables _ _ (h.kept.flip htable hflip) ?_ fun x hx hs row hrow _ => ?_
  · intro row _ _ _
    rw [hname]
    rfl
  · have hactive : (w.engine.withRegistry r).activeRows c = w.engine.rowsOf building :=
      activeRows_of_name hname
    show row.VectorIn ((w.engine.withRegistry r).activeRows c)
    rw [hactive]
    exact hrows x hx hs row hrow

/-- A table without an active row is dropped. -/
theorem IndexSound.drop (h : IndexSound K c w) {name : Str}
    (hsafe : (Cmd.dropTable name).Safe K c w.engine) :
    IndexSound K c { w with engine := { w.engine with tables := w.engine.tables.erase name } } := by
  have hne : ∀ n, w.engine.registry.activeName c = some n → n ≠ name := fun n hn =>
    hsafe _ (Registry.activeName_eq_some hn) rfl
  refine h.onTables w.engine.registry _ (h.kept.tables rfl ?_) h.first
    fun x hx hs row hrow hv => ?_
  · intro row hrow hactive
    exact AList.mem_erase.mpr ⟨hsafe row hrow hactive, h.kept.active row hrow hactive⟩
  · have hsame : EngineState.activeRows
        { w.engine with tables := w.engine.tables.erase name } c = w.engine.activeRows c := by
      refine activeRows_congr rfl fun n hn => ?_
      show ((w.engine.tables.erase name).lookup n).getD [] = _
      rw [AList.lookup_erase_ne (hne n hn)]
      rfl
    show row.VectorIn (EngineState.activeRows _ c)
    rw [hsame]
    exact hv

/-- The sources and the chunk rows change, the tables do not. -/
theorem IndexSound.onContent (h : IndexSound K c w) {s' : EngineState}
    {written : String → List StoredChunk} (hregistry : s'.registry = w.engine.registry)
    (htables : s'.tables = w.engine.tables) (hcoordinate : s'.coordinate = w.engine.coordinate)
    (hrows : ∀ x ∈ s'.sources, x.status = .indexed → s'.chunksOf x.id = written x.id)
    (hvectors : ∀ x ∈ s'.sources, x.status = .indexed → ∀ row ∈ s'.chunksOf x.id,
      row.VectorIn (w.engine.activeRows c)) : IndexSound K c ⟨s', written⟩ := by
  have hsame : s'.activeRows c = w.engine.activeRows c := by
    unfold EngineState.activeRows EngineState.rowsOf
    rw [hregistry, htables]
  refine ⟨hcoordinate.trans h.coordinate, h.kept.tables hregistry fun row hrow hactive => ?_, ?_,
    hrows, fun x hx hs row hrow => ?_⟩
  · rw [htables]
    exact h.kept.active row hrow hactive
  · show ∀ row ∈ s'.registry.rows, row.coord = c → row.status ≠ .building →
      (s'.registry.activeName c).isSome
    rw [hregistry]
    exact h.first
  · show row.VectorIn (s'.activeRows c)
    rw [hsame]
    exact hvectors x hx hs row hrow

/-- No source becomes indexed. -/
theorem IndexSound.map (h : IndexSound K c w) {f : Source → Source} (hid : ∀ x, (f x).id = x.id)
    (hf : ∀ x, (f x).status = .indexed → x.status = .indexed) :
    IndexSound K c { w with engine := { w.engine with sources := w.engine.sources.map f } } := by
  have hold : ∀ x ∈ w.engine.sources.map f, x.status = .indexed →
      ∃ y ∈ w.engine.sources, y.id = x.id ∧ y.status = .indexed := by
    intro x hx hs
    obtain ⟨y, hy, rfl⟩ := List.mem_map.mp hx
    exact ⟨y, hy, (hid y).symm, hf y hs⟩
  refine h.onContent rfl rfl rfl ?_ ?_
  · intro x hx hs
    obtain ⟨y, hy, hyx, hys⟩ := hold x hx hs
    exact hyx ▸ h.rows y hy hys
  · intro x hx hs row hrow
    obtain ⟨y, hy, hyx, hys⟩ := hold x hx hs
    rw [← hyx] at hrow
    exact h.vectors y hy hys row hrow

theorem Recorded.after_of_indexes {cmd : Cmd} (h : cmd.indexes = none) (w : Recorded)
    (s : EngineState) : w.after cmd s = { w with engine := s } := by
  unfold Recorded.after
  rw [h]

theorem IndexSound.updateStatus (h : IndexSound K c w) {id : String} {status : SourceStatus}
    (hsafe : (Cmd.updateSourceStatus id status).Safe K c w.engine) :
    IndexSound K c (w.after (.updateSourceStatus id status)
      (w.engine.updateSource id fun x => { x with status := status })) := by
  by_cases hstatus : status = .indexed
  · subst hstatus
    have hold : ∀ x ∈ (w.engine.updateSource id fun x => { x with status := .indexed }).sources,
        x.id ≠ id → x ∈ w.engine.sources := by
      intro x hx hne
      obtain ⟨y, hy, rfl⟩ := List.mem_map.mp hx
      split at hne
      · exact absurd ‹_› hne
      · rwa [if_neg ‹_›]
    refine h.onContent rfl rfl rfl ?_ ?_
    · intro x hx hs
      show w.engine.chunksOf x.id = Function.update w.written id (w.engine.chunksOf id) x.id
      by_cases hid : x.id = id
      · rw [hid, Function.update_self]
      · rw [Function.update_of_ne hid]
        exact h.rows x (hold x hx hid) hs
    · intro x hx hs row hrow
      by_cases hid : x.id = id
      · rw [hid] at hrow
        exact hsafe rfl row hrow
      · exact h.vectors x (hold x hx hid) hs row hrow
  · have hindexes : (Cmd.updateSourceStatus id status).indexes = none := by
      cases status with
      | indexed => exact absurd rfl hstatus
      | _ => rfl
    rw [Recorded.after_of_indexes hindexes]
    apply h.map
    · intro x
      split <;> rfl
    · intro x hx
      split at hx
      · exact absurd hx hstatus
      · exact hx

theorem chunksOf_wiped (s : EngineState) (id : String) :
    (s.withoutChunks id).chunksOf id = [] := by
  apply List.filter_eq_nil_iff.mpr
  intro row hrow heq
  exact of_decide_eq_true (List.mem_filter.mp hrow).2 (of_decide_eq_true heq)

theorem chunksOf_wiped_of_ne (s : EngineState) {id id' : String} (hid : id ≠ id') :
    (s.withoutChunks id').chunksOf id = s.chunksOf id := by
  show (s.chunks.filter _).filter _ = _
  rw [List.filter_filter]
  apply List.filter_congr
  intro row _
  by_cases hrow : row.sourceId = id
  · simp [hrow, hid]
  · simp [hrow]

theorem chunksOf_replaced (s : EngineState) {id id' : String} (hid : id ≠ id')
    {new : List StoredChunk} (hnew : ∀ row ∈ new, row.sourceId = id') :
    ((s.withoutChunks id').chunks ++ new).filter (fun row => row.sourceId = id) =
      s.chunksOf id := by
  have hnone : new.filter (fun row => row.sourceId = id) = [] := by
    apply List.filter_eq_nil_iff.mpr
    intro row hrow heq
    exact hid ((of_decide_eq_true heq).symm.trans (hnew row hrow))
  rw [List.filter_append, hnone, List.append_nil]
  exact chunksOf_wiped_of_ne s hid

/-- An indexed source that may be wiped has no chunk rows. -/
theorem EngineState.Wipeable.chunksOf_eq_nil {s : EngineState} {id : String} (h : s.Wipeable id)
    {x : Source} (hx : x ∈ s.sources) (hid : x.id = id) (hs : x.status = .indexed) :
    s.chunksOf x.id = [] := by
  rcases h with h | h
  · exact absurd hs (h x hx hid)
  · rw [hid]
    exact h

theorem IndexSound.step (h : IndexSound K c w) {cmd : Cmd} (hsafe : cmd.Safe K c w.engine)
    {a : cmd.Reply} (hrun : cmd.run w.engine = .ok (a, s')) : IndexSound K c (w.after cmd s') := by
  cases cmd with
  | setEmbeddingModel | demoteActiveToStale | purgeSource | insertSummaryChunk =>
    exact absurd hsafe id
  | outside | getSource | listSources | listChunksForReembed | resolveNotebookEmbedding
  | activeLanceTableName | activeCoordinates | lanceTableNamesForCoordinate
  | buildingLanceTableNames | registeredTableNames | unfinishedTableNames | tableNames =>
    cases hrun
    exact h
  | acquire | release | persistExtracted | persistTableMarkdown | removeSiblings =>
    cases hrun
    exact h.onContent rfl rfl rfl h.rows h.vectors
  | updateSourceStatus id status =>
    simp only [Cmd.run] at hrun
    split at hrun <;> cases hrun
    exact h.updateStatus hsafe
  | setSourceError id info =>
    cases hrun
    apply h.map
    · intro x
      split <;> rfl
    · intro x hx
      split at hx
      · cases hx
      · exact hx
  | clearSourceErrorMeta id =>
    cases hrun
    apply h.map
    · intro x
      split <;> rfl
    · intro x hx
      split at hx <;> exact hx
  | updateEnrichmentStatus id status =>
    cases hrun
    apply h.map
    · intro x
      split <;> rfl
    · intro x hx
      split at hx <;> exact hx
  | updateSourceMetadata id tokenCount contentHash language =>
    simp only [Cmd.run] at hrun
    split at hrun <;> cases hrun
    apply h.map
    · intro x
      split <;> rfl
    · intro x hx
      split at hx <;> exact hx
  | trashSource id =>
    simp only [Cmd.run] at hrun
    split at hrun <;> cases hrun
    apply h.map
    · intro x
      split <;> rfl
    · intro x hx
      split at hx <;> exact hx
  | recoverSources =>
    cases hrun
    apply h.map
    · intro x
      split <;> rfl
    · intro x hx
      split at hx
      · cases hx
      · exact hx
  | recoverEnrichment =>
    cases hrun
    apply h.map
    · intro x
      split <;> rfl
    · intro x hx
      split at hx <;> exact hx
  | replaceChunks id chunks sections =>
    simp only [Cmd.run] at hrun
    split at hrun <;> cases hrun
    have hrows : ∀ x ∈ w.engine.sources, x.status = .indexed →
        EngineState.chunksOf { w.engine with
          chunks := (w.engine.withoutChunks id).chunks ++ chunks.map (Chunk.row id) } x.id =
          w.engine.chunksOf x.id := by
      intro x hx hs
      refine chunksOf_replaced w.engine (fun hid => hsafe x hx hid hs) ?_
      intro row hrow
      obtain ⟨chunk, _, rfl⟩ := List.mem_map.mp hrow
      rfl
    exact h.onContent rfl rfl rfl (fun x hx hs => (hrows x hx hs).trans (h.rows x hx hs))
      fun x hx hs row hrow => h.vectors x hx hs row (hrows x hx hs ▸ hrow)
  | wipeChunks id =>
    cases hrun
    have hrows : ∀ x ∈ w.engine.sources, x.status = .indexed →
        (w.engine.withoutChunks id).chunksOf x.id = w.engine.chunksOf x.id := by
      intro x hx hs
      by_cases hid : x.id = id
      · rw [hsafe.chunksOf_eq_nil hx hid hs, hid, chunksOf_wiped]
      · exact chunksOf_wiped_of_ne w.engine hid
    exact h.onContent rfl rfl rfl (fun x hx hs => (hrows x hx hs).trans (h.rows x hx hs))
      fun x hx hs row hrow => h.vectors x hx hs row (hrows x hx hs ▸ hrow)
  | openTable name =>
    simp only [Cmd.run] at hrun
    split at hrun <;> cases hrun
    exact h
  | createEmptyTable name =>
    simp only [Cmd.run] at hrun
    split at hrun <;> cases hrun
    rename_i hnew
    refine h.withRows name [] fun hactive => ?_
    exact absurd (h.kept.active _ (Registry.activeName_eq_some hactive) rfl) hnew
  | dropTable name =>
    simp only [Cmd.run] at hrun
    split at hrun <;> cases hrun
    exact h.drop hsafe
  | addRows name rows =>
    simp only [Cmd.run] at hrun
    split at hrun <;> cases hrun
    rename_i old hold
    refine h.withRows name _ fun _ x _ _ row _ hv => hv.mono fun v hv _ => ?_
    rw [EngineState.rowsOf, hold] at hv
    exact List.mem_append_left _ hv
  | deleteRows name id =>
    simp only [Cmd.run] at hrun
    split at hrun <;> cases hrun
    rename_i old hold
    refine h.withRows name _ fun _ x hx hs row hrow hv => hv.mono fun v hv hsource => ?_
    rw [EngineState.rowsOf, hold] at hv
    refine List.mem_filter.mpr ⟨hv, decide_eq_true fun hid => ?_⟩
    have hrowId : row.sourceId = x.id := of_decide_eq_true (List.mem_filter.mp hrow).2
    rw [hsafe.chunksOf_eq_nil hx (hrowId.symm.trans (hsource.symm.trans hid)) hs] at hrow
    cases hrow
  | queryOthers name id =>
    simp only [Cmd.run] at hrun
    split at hrun <;> cases hrun
    exact h
  | register c' name status =>
    cases hrun
    obtain rfl := hsafe.1
    exact h.register hsafe
  | deleteBuildingRows c' =>
    cases hrun
    refine h.delete fun row _ hactive => ?_
    simp [RegistryRow.Is, hactive]
  | deleteRowByTable c' name =>
    cases hrun
    refine h.delete fun row hrow hactive => ?_
    simp [hsafe row hrow hactive]
  | deleteUnfinishedRows =>
    cases hrun
    refine h.delete fun row _ hactive => ?_
    simp [hactive]
  | flipActiveTxn c' building =>
    obtain rfl := hsafe.1
    simp only [Cmd.run] at hrun
    cases hflip : w.engine.registry.flip c' building with
    | error e =>
      rw [hflip] at hrun
      cases hrun
    | ok r =>
      rw [hflip] at hrun
      cases hrun
      exact h.flip hsafe hflip

end Steps

end Sound

end LensLM
