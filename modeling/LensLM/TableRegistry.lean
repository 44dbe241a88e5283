import LensLM.VectorTables
import LensLM.Lib.Recovery
import LensLM.Lib.Slots

/-!
# The registry of the vector tables

The registry is in the database and the tables are on disk, and every operation changes the two in
its own order. A crash in between is repaired at the next startup.
-/

namespace LensLM

open ByteText Programs Program

set_option autoImplicit false

section Operations

inductive TableOp where
  | ensure (c : Coordinate)
  | createBuilding (c : Coordinate)
  | flip (c : Coordinate) (buildingName : Str)
  | retire (c : Coordinate)
  | sweep (c : Coordinate)

def TableOp.coordinate : TableOp → Coordinate
  | .ensure c | .createBuilding c | .flip c _ | .retire c | .sweep c => c

def TableOp.job : TableOp → Job Unit
  | .ensure c => do
    let _ ← ensureTable c
    return ()
  | .createBuilding c => do
    let _ ← createBuildingTable c
    return ()
  | .flip c buildingName => flipActive c buildingName
  | .retire c => retireCoordinate c
  | .sweep c => sweepOrphanBuildingTables c

def vecTableNames : Job (List Str) := do
  let existing ← perform (.tableNames : Cmd)
  return existing.filter fun n => VEC_TABLE_PREFIX <+: n

/-- Drops the tables that no row names, unless the registry has been lost. -/
def gcUnregisteredVecTables (notebooks : Nat) : Job Unit := do
  let physical ← vecTableNames
  if physical.isEmpty then return ()
  else
    let registered ← perform (.registeredTableNames : Cmd)
    if registered.isEmpty ∧ 0 < notebooks then return ()
    else
      forEach physical fun name =>
        if name ∈ registered then return () else (dropTables [name]).handle fun _ => .ret ()

/-- The garbage collection of a startup; that of the entity tables drops tables of another kind. -/
def gcOrphanEmbeddingTables (notebooks : Nat) : Job Unit := do
  gcUnregisteredVecTables notebooks
  let tableNames ← perform (.unfinishedTableNames : Cmd)
  if tableNames.isEmpty then return ()
  else
    dropTables tableNames
    perform (.deleteUnfinishedRows : Cmd)

/-- A command of a process whose stores do not fail. -/
def Cmd.carryOut (c : Cmd) (s : EngineState) : Option (Except Stop c.Reply × EngineState) :=
  c.react none s

variable (K : Coordinate → Prop)

/-- Runs of operations on the given coordinates, with crashes and startups in between. -/
abbrev TableRun (start : EngineState) : Phase Cmd Cmd.Reply Stop × EngineState → Prop :=
  ProcessRun Cmd.carryOut (fun p => ∃ op : TableOp, K op.coordinate ∧ p = op.job)
    (fun p => ∃ notebooks, p = gcOrphanEmbeddingTables notebooks) start

end Operations

section Invariant

/-- No two of the coordinates have tables of one name. -/
def Distinguished (K : Coordinate → Prop) : Prop :=
  ∀ c d, K c → K d → ∀ g h, genTableName c g = genTableName d h → c = d

variable {K : Coordinate → Prop} {s s' : EngineState}

/-- What holds at every command: the tables of active rows exist, every row has a name of its
coordinate, and no two rows have one name. -/
structure RegistryKept (K : Coordinate → Prop) (s : EngineState) : Prop where
  active : ∀ row ∈ s.registry.rows, row.status = .active → row.table ∈ s.tables
  named : ∀ row ∈ s.registry.rows, K row.coord ∧ ∃ g, row.table = genTableName row.coord g ∧
    (row.status = .building → 0 < g)
  distinct : (s.registry.rows.map RegistryRow.table).Nodup

/-- What holds besides between the operations. -/
structure RegistrySettled (s : EngineState) : Prop where
  present : ∀ row ∈ s.registry.rows, row.table ∈ s.tables
  noStale : ∀ row ∈ s.registry.rows, row.status ≠ .stale

theorem RegistryKept.row_eq (h : RegistryKept K s) {row row' : RegistryRow}
    (hr : row ∈ s.registry.rows) (hr' : row' ∈ s.registry.rows) (ht : row.table = row'.table) :
    row = row' := List.inj_on_of_nodup_map h.distinct hr hr' ht

/-- Tables may come, and those without an active row may go. -/
theorem RegistryKept.tables (h : RegistryKept K s) (hreg : s'.registry = s.registry)
    (htab : ∀ row ∈ s.registry.rows, row.status = .active → row.table ∈ s'.tables) :
    RegistryKept K s' := by
  refine ⟨?_, ?_, ?_⟩
  · rw [hreg]
    exact htab
  · rw [hreg]
    exact h.named
  · rw [hreg]
    exact h.distinct

theorem carryOut_cases {c : Cmd} {r : Except Stop c.Reply} (h : c.carryOut s = some (r, s')) :
    (∃ a, r = .ok a ∧ c.run s = .ok (a, s')) ∨
      ∃ e, r = .error (.failed e) ∧ c.run s = .error e ∧ s' = s := by
  unfold Cmd.carryOut Cmd.react at h
  split at h
  · cases h
  · dsimp only at h
    split at h
    · rename_i hrun
      cases h
      exact .inl ⟨_, rfl, hrun⟩
    · rename_i hrun
      cases h
      exact .inr ⟨_, rfl, hrun, rfl⟩

/-- A command that succeeds. -/
theorem within_ok {J : EngineState → Prop} {c : Cmd} {a : c.Reply}
    {Q : Except Stop c.Reply → EngineState → Prop} (hs : J s) (hrun : c.run s = .ok (a, s'))
    (hs' : J s') (hQ : Q (.ok a) s') : Within Cmd.carryOut J Q (Program.perform c) s := by
  apply Within.perform hs
  intro r t h
  obtain ⟨a', rfl, hrun'⟩ | ⟨e, _, he, _⟩ := carryOut_cases h
  · rw [hrun] at hrun'
    cases hrun'
    exact ⟨hs', hQ⟩
  · rw [hrun] at he
    cases he

end Invariant

section Tables

variable {K : Coordinate → Prop} {s s' : EngineState}

abbrev KeptWithin {α : Type} (K : Coordinate → Prop) (Q : Except Stop α → EngineState → Prop)
    (p : Job α) (s : EngineState) : Prop := Within Cmd.carryOut (RegistryKept K) Q p s

/-- A command that reads, before the rest of a job. -/
theorem KeptWithin.read {c : Cmd} {a : c.Reply} {β : Type} {f : c.Reply → Job β}
    {Q : Except Stop β → EngineState → Prop} (hs : RegistryKept K s) (hrun : c.run s = .ok (a, s))
    (h : KeptWithin K Q (f a) s) : KeptWithin K Q ((Program.perform c).bind f) s :=
  Within.bind (within_ok hs hrun hs h)

theorem within_openTableByName (hs : RegistryKept K s) {name : Str} (hn : name ∈ s.tables) :
    KeptWithin K (fun r t => r = .ok (some name) ∧ t = s) (openTableByName name) s := by
  refine KeptWithin.read (a := s.tables.keys) hs rfl ?_
  rw [if_pos (AList.mem_keys.mp hn)]
  have hopen : (Cmd.openTable name).run s = .ok ((), s) := by
    simp only [Cmd.run, if_pos hn]
  exact KeptWithin.read hs hopen ⟨hs, rfl, rfl⟩

/-- The tables are those of another state without the dropped ones, and the registry is the same. -/
structure DroppedFrom (s : EngineState) (names : List Str) (t : EngineState) : Prop where
  registry : t.registry = s.registry
  tables : ∀ n, n ∈ t.tables ↔ n ∈ s.tables ∧ n ∉ names

/-- The tables with no active row may be dropped. -/
theorem within_dropTables {names : List Str} (hs : RegistryKept K s) (hnodup : names.Nodup)
    (hsafe : ∀ row ∈ s.registry.rows, row.status = .active → row.table ∉ names) :
    KeptWithin K (fun r t => r = .ok () ∧ DroppedFrom s names t) (dropTables names) s := by
  unfold dropTables
  split
  · rename_i hnil
    rw [List.isEmpty_iff.mp hnil]
    exact ⟨hs, rfl, rfl, by simp⟩
  · refine KeptWithin.read (a := s.tables.keys) hs rfl ?_
    refine (Within.forEach (I := fun xs t => ∃ dropped, names = dropped ++ xs ∧
      DroppedFrom s dropped t) ?_ hs ⟨[], rfl, rfl, by simp⟩).mono ?_
    · intro name xs t hkept h
      obtain ⟨dropped, hnames, ht⟩ := h
      have hfresh : name ∉ dropped := by
        rw [hnames] at hnodup
        exact fun hmem => (List.nodup_append.mp hnodup).2.2 _ hmem _ List.mem_cons_self rfl
      have hsplit : names = (dropped ++ [name]) ++ xs := by
        rw [hnames, List.append_assoc]
        rfl
      by_cases hex : name ∈ s.tables
      · rw [if_pos (AList.mem_keys.mp hex)]
        have hrun : (Cmd.dropTable name).run t =
            .ok ((), { t with tables := t.tables.erase name }) := by
          simp only [Cmd.run, if_pos ((ht.tables name).mpr ⟨hex, hfresh⟩)]
        have hdropped : DroppedFrom s (dropped ++ [name])
            { t with tables := t.tables.erase name } := by
          refine ⟨ht.registry, fun n => ?_⟩
          show n ∈ t.tables.erase name ↔ _
          rw [AList.mem_erase, ht.tables]
          simp only [List.mem_append, List.mem_singleton, not_or]
          tauto
        have hkept' : RegistryKept K { t with tables := t.tables.erase name } := by
          refine hkept.tables rfl fun row hrow hactive => ?_
          have hmem := hkept.active row hrow hactive
          rw [ht.registry] at hrow
          have hsafe := hsafe row hrow hactive
          apply AList.mem_erase.mpr
          refine ⟨fun h => hsafe ?_, hmem⟩
          rw [hnames, h]
          simp
        exact within_ok hkept hrun hkept' ⟨rfl, _, hsplit, hdropped⟩
      · rw [if_neg fun h => hex (AList.mem_keys.mpr h)]
        refine ⟨hkept, rfl, dropped ++ [name], hsplit, ht.registry, fun n => ?_⟩
        rw [ht.tables]
        simp only [List.mem_append, List.mem_singleton, not_or]
        constructor
        · intro h
          exact ⟨h.1, h.2, fun hn => hex (hn ▸ h.1)⟩
        · exact fun h => ⟨h.1, h.2.1⟩
    · intro r t _ h
      obtain ⟨hr, dropped, hnames, ht⟩ := h
      rw [List.append_nil] at hnames
      exact ⟨hr, hnames ▸ ht⟩

end Tables

section Steps

variable {K : Coordinate → Prop} {s s' : EngineState}

/-- A new row with a name that no row has, and with a table. -/
theorem RegistryKept.register (h : RegistryKept K s) (row : RegistryRow) (hK : K row.coord)
    (hname : ∃ g, row.table = genTableName row.coord g ∧ (row.status = .building → 0 < g))
    (hfresh : ∀ old ∈ s.registry.rows, old.table ≠ row.table) (htable : row.table ∈ s.tables) :
    RegistryKept K (s.withRegistry (s.registry.register row)) := by
  unfold EngineState.withRegistry Registry.register Registry.ofRows
  split
  · refine ⟨?_, ?_, ?_⟩
    · apply Slots.forall_mem_push h.active
      exact fun _ => htable
    · exact Slots.forall_mem_push h.named ⟨hK, hname⟩
    · show ((s.registry.rows ++ [row]).map RegistryRow.table).Nodup
      rw [List.map_append]
      apply Slots.nodup_push h.distinct
      intro hn
      obtain ⟨old, hold, heq⟩ := List.mem_map.mp hn
      exact hfresh old hold heq
  · exact h

theorem RegistrySettled.register (h : RegistrySettled s) (row : RegistryRow)
    (hstatus : row.status ≠ .stale) (htable : row.table ∈ s.tables) :
    RegistrySettled (s.withRegistry (s.registry.register row)) := by
  constructor
  · intro r hr
    rcases Registry.mem_register hr with hr | rfl
    · exact h.present r hr
    · exact htable
  · intro r hr
    rcases Registry.mem_register hr with hr | rfl
    · exact h.noStale r hr
    · exact hstatus

theorem mem_withRows {n name : Str} {rows : List VectorRow} :
    n ∈ (s.withRows name rows).tables ↔ n = name ∨ n ∈ s.tables := AList.mem_insert _

theorem RegistryKept.withRows (h : RegistryKept K s) (name : Str) (rows : List VectorRow) :
    RegistryKept K (s.withRows name rows) := by
  refine h.tables rfl fun row hrow hactive => ?_
  exact mem_withRows.mpr (.inr (h.active row hrow hactive))

theorem RegistrySettled.withRows (h : RegistrySettled s) (name : Str) (rows : List VectorRow) :
    RegistrySettled (s.withRows name rows) :=
  ⟨fun row hrow => mem_withRows.mpr (.inr (h.present row hrow)), h.noStale⟩

/-- A row whose table has a name of a coordinate is one of it, and of the same generation. -/
theorem RegistryKept.owner (hK : Distinguished K) (h : RegistryKept K s) {c : Coordinate}
    (hc : K c) {g : Nat} {row : RegistryRow} (hrow : row ∈ s.registry.rows)
    (ht : row.table = genTableName c g) :
    row.coord = c ∧ (row.status = .building → 0 < g) := by
  obtain ⟨hrowK, g', hname, hbuilding⟩ := h.named row hrow
  have hcoord := hK _ _ hrowK hc g' g (hname.symm.trans ht)
  refine ⟨hcoord, fun hb => ?_⟩
  rw [hcoord] at hname
  exact genTableName_injective c (hname.symm.trans ht) ▸ hbuilding hb

theorem within_ensureTable (hK : Distinguished K) (h : RegistryKept K s) (hset : RegistrySettled s)
    {c : Coordinate} (hc : K c) :
    KeptWithin K (fun _ => RegistrySettled) (ensureTable c) s := by
  refine KeptWithin.read (a := s.registry.activeName c) h rfl ?_
  cases hname : s.registry.activeName c with
  | some n =>
    have hn := h.active _ (Registry.activeName_eq_some hname) rfl
    apply Within.bind
    apply (within_openTableByName h hn).mono
    intro r t ht hr
    obtain ⟨rfl, rfl⟩ := hr
    exact ⟨ht, hset⟩
  | none =>
    -- No row has the first name: the active one is missing, and building rows have later ones.
    have hfresh : ∀ t : EngineState, t.registry = s.registry →
        ∀ old ∈ t.registry.rows, old.table ≠ genTableName c 0 := by
      intro t ht old hold hold'
      rw [ht] at hold
      obtain ⟨hcoord, hbuilding⟩ := h.owner hK hc hold hold'
      cases hstatus : old.status with
      | active =>
        have hfind := List.find?_eq_none.mp (Option.map_eq_none_iff.mp hname) old hold
        exact absurd (show old.Is c .active from ⟨hcoord, hstatus⟩) (by simpa using hfind)
      | building => exact absurd (hbuilding hstatus) (Nat.lt_irrefl 0)
      | stale => exact hset.noStale old hold hstatus
    have hregister : ∀ t : EngineState, RegistryKept K t → RegistrySettled t →
        t.registry = s.registry → genTableName c 0 ∈ t.tables →
        KeptWithin K (fun _ => RegistrySettled) (do
          perform (.register c (genTableName c 0) .active : Cmd)
          return genTableName c 0) t := by
      intro t ht htset hreg hmem
      apply Within.bind
      refine within_ok ht rfl ?_ ?_
      · exact ht.register ⟨c, genTableName c 0, .active⟩ hc ⟨0, rfl, fun h => by cases h⟩
          (hfresh t hreg) hmem
      · refine ⟨?_, htset.register ⟨c, genTableName c 0, .active⟩ (fun h => by cases h) hmem⟩
        exact ht.register ⟨c, genTableName c 0, .active⟩ hc ⟨0, rfl, fun h => by cases h⟩
          (hfresh t hreg) hmem
    refine KeptWithin.read (a := s.tables.keys) h rfl ?_
    by_cases hex : genTableName c 0 ∈ s.tables
    · rw [if_pos (AList.mem_keys.mp hex)]
      have hopen : (Cmd.openTable (genTableName c 0)).run s = .ok ((), s) := by
        simp only [Cmd.run, if_pos hex]
      exact KeptWithin.read h hopen (hregister s h hset rfl hex)
    · rw [if_neg fun hmem => hex (AList.mem_keys.mpr hmem)]
      have hcreate : (Cmd.createEmptyTable (genTableName c 0)).run s =
          .ok ((), s.withRows (genTableName c 0) []) := by
        simp only [Cmd.run, if_neg hex]
      apply Within.bind
      refine within_ok h hcreate (h.withRows _ _) ?_
      exact hregister _ (h.withRows _ _) (hset.withRows _ _) rfl (mem_withRows.mpr (.inl rfl))

/-- A building row does not violate the index. -/
theorem Registry.register_building (r : Registry) (c : Coordinate) (name : Str) :
    (r.register ⟨c, name, .building⟩).rows = r.rows ++ [⟨c, name, .building⟩] := by
  have hcoords : activeCoords (r.rows ++ [⟨c, name, .building⟩]) = activeCoords r.rows := by
    unfold activeCoords
    rw [List.filter_append, List.map_append]
    exact List.append_nil _
  unfold register ofRows
  rw [dif_pos (hcoords ▸ r.uqActive)]
  rfl

/-- The name of a building table is one of its coordinate, and no other row has it. -/
theorem within_createBuildingTable (hK : Distinguished K) (h : RegistryKept K s)
    (hset : RegistrySettled s) {c : Coordinate} (hc : K c) :
    KeptWithin K (fun r t => RegistrySettled t ∧ ∀ name, r = .ok name →
      t.registry.rows = s.registry.rows ++ [⟨c, name, .building⟩] ∧
        ∀ old ∈ s.registry.rows, old.table ≠ name) (createBuildingTable c) s := by
  refine KeptWithin.read (a := s.registry.names c) h rfl ?_
  refine KeptWithin.read (a := s.tables.keys) h rfl ?_
  generalize hb : freeTableName c (s.registry.names c ++ s.tables.keys) = building
  have hnot := freeTableName_notMem c (s.registry.names c ++ s.tables.keys)
  obtain ⟨g, hg, hname⟩ := freeTableName_eq c (s.registry.names c ++ s.tables.keys)
  rw [hb] at hnot hname
  have hnew : building ∉ s.tables := fun hmem =>
    hnot (List.mem_append_right _ (AList.mem_keys.mp hmem))
  have hfresh : ∀ old ∈ s.registry.rows, old.table ≠ building := by
    intro old hold ht
    have hcoord := (h.owner hK hc hold (ht.trans hname)).1
    apply hnot
    apply List.mem_append_left
    exact List.mem_map.mpr ⟨old, List.mem_filter.mpr ⟨hold, decide_eq_true hcoord⟩, ht⟩
  have hcreate : (Cmd.createEmptyTable building).run s = .ok ((), s.withRows building []) := by
    simp only [Cmd.run, if_neg hnew]
  have hmem : building ∈ (s.withRows building []).tables := mem_withRows.mpr (.inl rfl)
  have hkept := (h.withRows building []).register ⟨c, building, .building⟩ hc
    ⟨g, hname, fun _ => hg⟩ hfresh hmem
  apply Within.bind
  refine within_ok h hcreate (h.withRows _ _) ?_
  apply Within.bind
  refine within_ok (h.withRows _ _) rfl hkept ⟨hkept, ?_, ?_⟩
  · exact (hset.withRows building []).register ⟨c, building, .building⟩ (fun h => by cases h) hmem
  · intro name hok
    cases hok
    exact ⟨Registry.register_building _ c building, hfresh⟩

end Steps

end LensLM
