import LensLM.TableRegistry

/-!
# Runs of the registry's operations

A flip and a retirement demote the active row before they drop its table, and the startup drops
what the registry cannot name before it drops what is not active.
-/

namespace LensLM

open ByteText Fields Programs Program

set_option autoImplicit false

namespace Registry

theorem table_demoteRow (c : Coordinate) :
    RegistryRow.table ∘ demoteRow c = RegistryRow.table := by
  funext row
  show (demoteRow c row).table = row.table
  unfold demoteRow
  split
  · rfl
  · rfl

theorem table_promoteRow (c : Coordinate) (building : Str) :
    RegistryRow.table ∘ promoteRow c building = RegistryRow.table := by
  funext row
  show (promoteRow c building row).table = row.table
  unfold promoteRow
  split
  · rfl
  · rfl

/-- Where a row comes from that a demotion leaves. -/
theorem mem_demote {r : Registry} {c : Coordinate} {row : RegistryRow}
    (h : row ∈ (r.demote c).rows) :
    row ∈ r.rows ∨ row.status = .stale ∧ row.coord = c ∧ ⟨c, row.table, .active⟩ ∈ r.rows := by
  obtain ⟨old, hold, rfl⟩ := List.mem_map.mp h
  by_cases hc : old.Is c .active
  · rw [demoteRow, if_pos hc]
    obtain ⟨coord, table, status⟩ := old
    obtain ⟨rfl, rfl⟩ : coord = c ∧ status = .active := hc
    exact .inr ⟨rfl, rfl, hold⟩
  · rw [demoteRow, if_neg hc]
    exact .inl hold

theorem flip_rows {r r' : Registry} {c : Coordinate} {building : Str}
    (h : r.flip c building = .ok r') :
    r'.rows = (r.demote c).rows.map (promoteRow c building) := by
  unfold flip ofRows at h
  split at h
  · split at h
    · rename_i hr
      split at hr
      · cases hr
        cases h
        rfl
      · cases hr
    · cases h
  · cases h

/-- The active name of a coordinate is that of its active row. -/
theorem activeName_of_mem {r : Registry} {c : Coordinate} {n : Str}
    (h : ⟨c, n, .active⟩ ∈ r.rows) : r.activeName c = some n := by
  cases hname : r.activeName c with
  | none =>
    have hfind := List.find?_eq_none.mp (Option.map_eq_none_iff.mp hname) _ h
    exact absurd (show RegistryRow.Is c .active ⟨c, n, .active⟩ from ⟨rfl, rfl⟩)
      (by simpa using hfind)
  | some m =>
    have hm := activeName_eq_some hname
    have hrow := List.inj_on_of_nodup_map r.uqActive
      (List.mem_filter.mpr ⟨hm, rfl⟩) (List.mem_filter.mpr ⟨h, rfl⟩) rfl
    cases hrow
    rfl

/-- What is promoted was registered as building. -/
theorem mem_of_flip {r r' : Registry} {c : Coordinate} {building : Str}
    (h : r.flip c building = .ok r') : ⟨c, building, .building⟩ ∈ r.rows := by
  unfold flip at h
  split at h
  · rename_i hmem
    obtain ⟨row, hrow, rfl⟩ := List.mem_map.mp hmem
    obtain ⟨hrow, his⟩ := List.mem_filter.mp hrow
    obtain ⟨rfl, hb⟩ : row.Is c .building := of_decide_eq_true his
    rcases mem_demote hrow with hold | ⟨hstale, _⟩
    · exact hb ▸ hold
    · rw [hstale] at hb
      cases hb
  · cases h

theorem activeName_flip {r r' : Registry} {c : Coordinate} {building : Str}
    (h : r.flip c building = .ok r') : r'.activeName c = some building := by
  apply activeName_of_mem
  rw [flip_rows h]
  refine List.mem_map.mpr ⟨⟨c, building, .building⟩, ?_, if_pos ⟨⟨rfl, rfl⟩, rfl⟩⟩
  exact List.mem_map.mpr ⟨_, mem_of_flip h, if_neg fun his => by cases his.2⟩

/-- A flip makes a row stale only by its demotion. -/
theorem mem_flip_stale {r r' : Registry} {c : Coordinate} {building : Str}
    (h : r.flip c building = .ok r') {row : RegistryRow} (hs : row.status = .stale) :
    row ∈ r'.rows ↔ row ∈ (r.demote c).rows := by
  rw [flip_rows h, List.mem_map]
  constructor
  · rintro ⟨mid, hmid, rfl⟩
    unfold promoteRow at hs ⊢
    split at hs
    · cases hs
    · rw [if_neg ‹_›]
      exact hmid
  · intro hrow
    refine ⟨row, hrow, if_neg fun hp => ?_⟩
    have hb := hp.1.2
    rw [hs] at hb
    cases hb

theorem demote_of_activeName {r : Registry} {c : Coordinate} {n : Str}
    (h : r.activeName c = some n) : ⟨c, n, .stale⟩ ∈ (r.demote c).rows := by
  apply List.mem_map.mpr
  exact ⟨_, activeName_eq_some h, if_pos ⟨rfl, rfl⟩⟩

end Registry

section Retiring

variable {K : Coordinate → Prop} {s s' : EngineState}

/-- A coordinate's former active table is still to be dropped, and its row to be deleted. -/
structure Retiring (c : Coordinate) (former : Option Str) (s : EngineState) : Prop where
  present : ∀ row ∈ s.registry.rows, row.table ∈ s.tables
  stale : ∀ row ∈ s.registry.rows, row.status = .stale → row.coord = c ∧ former = some row.table
  former : ∀ n, former = some n → ⟨c, n, .stale⟩ ∈ s.registry.rows

theorem RegistryKept.delete (h : RegistryKept K s) (p : RegistryRow → Bool) :
    RegistryKept K (s.withRegistry (s.registry.delete p)) := by
  refine ⟨?_, ?_, ?_⟩
  · intro row hrow
    exact h.active row (List.mem_of_mem_filter hrow)
  · intro row hrow
    exact h.named row (List.mem_of_mem_filter hrow)
  · exact h.distinct.sublist (List.filter_sublist.map _)

theorem RegistryKept.demote (h : RegistryKept K s) (c : Coordinate) :
    RegistryKept K (s.withRegistry (s.registry.demote c)) := by
  refine ⟨?_, ?_, ?_⟩
  · intro row hrow hactive
    rcases Registry.mem_demote hrow with hold | ⟨hstale, _⟩
    · exact h.active row hold hactive
    · rw [hstale] at hactive
      cases hactive
  · intro row hrow
    rcases Registry.mem_demote hrow with hold | ⟨hstale, rfl, hold⟩
    · exact h.named row hold
    · obtain ⟨hK, g, hg, _⟩ := h.named _ hold
      refine ⟨hK, g, hg, fun hb => ?_⟩
      rw [hstale] at hb
      cases hb
  · show ((s.registry.rows.map _).map RegistryRow.table).Nodup
    rw [List.map_map, Registry.table_demoteRow]
    exact h.distinct

theorem RegistrySettled.demote (h : RegistrySettled s) (c : Coordinate) :
    Retiring c (s.registry.activeName c) (s.withRegistry (s.registry.demote c)) := by
  refine ⟨?_, ?_, ?_⟩
  · intro row hrow
    rcases Registry.mem_demote hrow with hold | ⟨_, _, hold⟩
    · exact h.present row hold
    · show row.table ∈ s.tables
      exact h.present ⟨c, row.table, .active⟩ hold
  · intro row hrow hstale
    rcases Registry.mem_demote hrow with hold | ⟨_, hc, hold⟩
    · exact absurd hstale (h.noStale row hold)
    · exact ⟨hc, Registry.activeName_of_mem hold⟩
  · exact fun n hn => Registry.demote_of_activeName hn

theorem RegistryKept.flip (h : RegistryKept K s) {c : Coordinate} {building : Str} {r : Registry}
    (htable : building ∈ s.tables) (hflip : s.registry.flip c building = .ok r) :
    RegistryKept K (s.withRegistry r) := by
  refine ⟨?_, ?_, ?_⟩
  · intro row hrow hactive
    obtain ⟨old, hold, _, ht, hfrom, _⟩ := Registry.mem_flip hflip hrow
    rcases hfrom hactive with ⟨_, hb⟩ | ⟨_, hold'⟩
    · exact hb ▸ htable
    · exact ht ▸ h.active old hold hold'
  · intro row hrow
    obtain ⟨old, hold, hc, ht, _, hb⟩ := Registry.mem_flip hflip hrow
    obtain ⟨hK, g, hg, hpos⟩ := h.named old hold
    rw [hc] at hK
    rw [ht, hc] at hg
    exact ⟨hK, g, hg, fun hbuilding => hpos (hb hbuilding).1⟩
  · show (r.rows.map RegistryRow.table).Nodup
    rw [Registry.flip_rows hflip, List.map_map, Registry.table_promoteRow]
    exact (h.demote c).distinct

theorem RegistrySettled.flip (h : RegistrySettled s) {c : Coordinate} {building : Str}
    {r : Registry} (hflip : s.registry.flip c building = .ok r) :
    Retiring c (s.registry.activeName c) (s.withRegistry r) := by
  refine ⟨?_, ?_, ?_⟩
  · intro row hrow
    obtain ⟨old, hold, _, ht, _⟩ := Registry.mem_flip hflip hrow
    exact ht ▸ h.present old hold
  · intro row hrow hstale
    exact (h.demote c).stale row ((Registry.mem_flip_stale hflip hstale).mp hrow) hstale
  · intro n hn
    exact (Registry.mem_flip_stale hflip rfl).mpr ((h.demote c).former n hn)

/-- The former table goes before its row does. -/
theorem within_dropStale (h : RegistryKept K s) {c : Coordinate} {former : Option Str}
    (hr : Retiring c former s) :
    KeptWithin K (fun r t => r = .ok () ∧ RegistrySettled t) (dropStale c former) s := by
  cases former with
  | none =>
    refine ⟨h, rfl, hr.present, fun row hrow hstale => ?_⟩
    cases (hr.stale row hrow hstale).2
  | some n =>
    have hrow := hr.former n rfl
    have hsafe : ∀ row ∈ s.registry.rows, row.status = .active → row.table ∉ [n] := by
      intro row hmem hactive ht
      cases h.row_eq hmem hrow (List.mem_singleton.mp ht)
      cases hactive
    apply Within.bind
    apply (within_dropTables h (List.nodup_singleton n) hsafe).mono
    intro r t ht hdropped
    obtain ⟨rfl, hdropped⟩ := hdropped
    refine within_ok ht rfl (ht.delete _) ⟨rfl, ?_, ?_⟩
    · intro row hmem
      obtain ⟨hmem, hnot⟩ := List.mem_filter.mp hmem
      rw [hdropped.registry] at hmem
      refine (hdropped.tables _).mpr ⟨hr.present row hmem, fun hn => ?_⟩
      cases h.row_eq hmem hrow (List.mem_singleton.mp hn)
      simp at hnot
    · intro row hmem hstale
      obtain ⟨hmem, hnot⟩ := List.mem_filter.mp hmem
      rw [hdropped.registry] at hmem
      obtain ⟨hc, hn⟩ := hr.stale row hmem hstale
      simp [hc, Option.some.inj hn] at hnot

theorem within_flipActive (h : RegistryKept K s) (hset : RegistrySettled s) (c : Coordinate)
    (building : Str) :
    KeptWithin K (fun r t => RegistrySettled t ∧ (r ≠ .ok () → t = s))
      (flipActive c building) s := by
  cases hflip : s.registry.flip c building with
  | error e =>
    apply Within.bind
    apply Within.perform h
    intro r t hr
    obtain ⟨a, _, hrun⟩ | ⟨e', rfl, _, rfl⟩ := carryOut_cases hr
    · simp only [Cmd.run, hflip, Except.map] at hrun
      cases hrun
    · exact ⟨h, hset, fun _ => rfl⟩
  | ok r =>
    have hrun : (Cmd.flipActiveTxn c building).run s =
        .ok (s.registry.activeName c, s.withRegistry r) := by
      simp only [Cmd.run, hflip, Except.map]
    have hkept := h.flip (hset.present _ (Registry.mem_of_flip hflip)) hflip
    apply Within.bind
    apply within_ok h hrun hkept
    apply (within_dropStale hkept (hset.flip hflip)).mono
    intro r t _ hr
    exact ⟨hr.2, fun hne => absurd hr.1 hne⟩

theorem within_retireCoordinate (h : RegistryKept K s) (hset : RegistrySettled s)
    (c : Coordinate) :
    KeptWithin K (fun _ => RegistrySettled) (retireCoordinate c) s := by
  apply Within.bind
  apply within_ok h rfl (h.demote c)
  exact (within_dropStale (h.demote c) (hset.demote c)).mono fun _ _ _ h => h.2

/-- Building tables have no active row. -/
theorem within_sweepOrphanBuildingTables (h : RegistryKept K s) (hset : RegistrySettled s)
    (c : Coordinate) :
    KeptWithin K (fun _ => RegistrySettled) (sweepOrphanBuildingTables c) s := by
  refine KeptWithin.read (a := s.registry.namesOf c .building) h rfl ?_
  split
  · exact ⟨h, hset⟩
  · have hnodup : (s.registry.namesOf c .building).Nodup :=
      h.distinct.sublist (List.filter_sublist.map _)
    have hswept : ∀ row ∈ s.registry.rows, row.table ∈ s.registry.namesOf c .building →
        row.Is c .building := by
      intro row hrow hmem
      obtain ⟨row', hrow', ht⟩ := List.mem_map.mp hmem
      obtain ⟨hrow', hb⟩ := List.mem_filter.mp hrow'
      cases h.row_eq hrow' hrow ht
      exact of_decide_eq_true hb
    have hsafe : ∀ row ∈ s.registry.rows, row.status = .active →
        row.table ∉ s.registry.namesOf c .building := by
      intro row hrow hactive hmem
      have hb := (hswept row hrow hmem).2
      rw [hactive] at hb
      cases hb
    apply Within.bind
    apply (within_dropTables h hnodup hsafe).mono
    intro r t ht hdropped
    obtain ⟨rfl, hdropped⟩ := hdropped
    refine within_ok ht rfl (ht.delete _) ⟨?_, ?_⟩
    · intro row hmem
      obtain ⟨hmem, hnot⟩ := List.mem_filter.mp hmem
      rw [hdropped.registry] at hmem
      refine (hdropped.tables _).mpr ⟨hset.present row hmem, fun hn => ?_⟩
      simp [hswept row hmem hn] at hnot
    · intro row hmem
      obtain ⟨hmem, _⟩ := List.mem_filter.mp hmem
      rw [hdropped.registry] at hmem
      exact hset.noStale row hmem

end Retiring

section Startup

variable {K : Coordinate → Prop} {s s' : EngineState}

theorem within_vecTableNames (h : RegistryKept K s) :
    KeptWithin K (fun r t => t = s ∧ ∃ names, r = .ok names) vecTableNames s :=
  KeptWithin.read h rfl ⟨h, rfl, _, rfl⟩

/-- A table that no row names has no active row. -/
theorem within_gcUnregisteredVecTables (h : RegistryKept K s) (notebooks : Nat) :
    KeptWithin K (fun r t => r = .ok () ∧ t.registry = s.registry)
      (gcUnregisteredVecTables notebooks) s := by
  apply Within.bind
  apply (within_vecTableNames h).mono
  intro r t ht hphysical
  obtain ⟨rfl, physical, rfl⟩ := hphysical
  dsimp only
  split
  · exact ⟨h, rfl, rfl⟩
  · refine KeptWithin.read (a := t.registry.rows.map RegistryRow.table) h rfl ?_
    split
    · exact ⟨h, rfl, rfl⟩
    · refine (Within.forEach (I := fun _ u => u.registry = t.registry) ?_ h rfl).mono
        fun _ _ _ h => h
      intro name _ u hu hreg
      split
      · exact ⟨hu, rfl, hreg⟩
      · rename_i hnot
        have hsafe : ∀ row ∈ u.registry.rows, row.status = .active → row.table ∉ [name] := by
          intro row hrow _ hmem
          rw [hreg] at hrow
          exact hnot (List.mem_map.mpr ⟨row, hrow, List.mem_singleton.mp hmem⟩)
        apply Within.handle
        apply (within_dropTables hu (List.nodup_singleton name) hsafe).mono
        intro r v _ hdropped
        obtain ⟨rfl, hdropped⟩ := hdropped
        exact ⟨rfl, hdropped.registry.trans hreg⟩

/-- The startup succeeds and leaves active rows only, each with its table. -/
theorem within_gcOrphanEmbeddingTables (h : RegistryKept K s) (notebooks : Nat) :
    KeptWithin K (fun r t => r = .ok () ∧ RegistrySettled t)
      (gcOrphanEmbeddingTables notebooks) s := by
  apply Within.bind
  apply (within_gcUnregisteredVecTables h notebooks).mono
  intro r t ht hr
  obtain ⟨rfl, _⟩ := hr
  let unfinished := t.registry.rows.filter fun row => row.status ≠ .active
  refine KeptWithin.read (a := unfinished.map RegistryRow.table) ht rfl ?_
  have hactive : ∀ row ∈ t.registry.rows, row ∉ unfinished → row.status = .active := by
    intro row hrow hnot
    by_contra hstatus
    exact hnot (List.mem_filter.mpr ⟨hrow, decide_eq_true hstatus⟩)
  split
  · rename_i hnil
    have hall : ∀ row ∈ t.registry.rows, row.status = .active := by
      intro row hrow
      apply hactive row hrow
      rw [List.map_eq_nil_iff.mp (List.isEmpty_iff.mp hnil)]
      exact List.not_mem_nil
    refine ⟨ht, rfl, fun row hrow => ht.active row hrow (hall row hrow), fun row hrow hs => ?_⟩
    rw [hall row hrow] at hs
    cases hs
  · have hsafe : ∀ row ∈ t.registry.rows, row.status = .active →
        row.table ∉ unfinished.map RegistryRow.table := by
      intro row hrow hstatus hmem
      obtain ⟨row', hrow', hname⟩ := List.mem_map.mp hmem
      obtain ⟨hrow', hne⟩ := List.mem_filter.mp hrow'
      cases ht.row_eq hrow' hrow hname
      exact of_decide_eq_true hne hstatus
    apply Within.bind
    apply (within_dropTables ht (ht.distinct.sublist (List.filter_sublist.map _)) hsafe).mono
    intro r u hu hdropped
    obtain ⟨rfl, hdropped⟩ := hdropped
    refine within_ok hu rfl (hu.delete _) ⟨rfl, ?_, ?_⟩
    · intro row hrow
      obtain ⟨hrow, hstatus⟩ := List.mem_filter.mp hrow
      exact hu.active row hrow (by simpa using hstatus)
    · intro row hrow hs
      obtain ⟨_, hstatus⟩ := List.mem_filter.mp hrow
      simp [hs] at hstatus

end Startup

section Runs

variable {K : Coordinate → Prop} {s : EngineState}

theorem within_job (hK : Distinguished K) (h : RegistryKept K s) (hset : RegistrySettled s)
    (op : TableOp) (hop : K op.coordinate) :
    KeptWithin K (fun _ => RegistrySettled) op.job s := by
  cases op with
  | ensure c =>
    apply Within.bind
    apply (within_ensureTable hK h hset hop).mono
    intro r t ht hset
    cases r with
    | ok a => exact ⟨ht, hset⟩
    | error e => exact hset
  | createBuilding c =>
    apply Within.bind
    apply (within_createBuildingTable hK h hset hop).mono
    intro r t ht hset
    cases r with
    | ok a => exact ⟨ht, hset.1⟩
    | error e => exact hset.1
  | flip c building => exact (within_flipActive h hset c building).mono fun _ _ _ h => h.1
  | retire c => exact within_retireCoordinate h hset c
  | sweep c => exact within_sweepOrphanBuildingTables h hset c

/-- What holds in each phase of a run from an empty registry. -/
theorem TableRun.holds (hK : Distinguished K) {start : EngineState}
    (hstart : start.registry.rows = []) {x : Phase Cmd Cmd.Reply Stop × EngineState}
    (h : TableRun K start x) : Phase.Holds Cmd.carryOut (RegistryKept K) RegistrySettled x := by
  apply ProcessRun.holds _ _ _ _ h
  · intro p hp s hs hset
    obtain ⟨op, hop, rfl⟩ := hp
    exact within_job hK hs hset op hop
  · intro p hp s hs
    obtain ⟨notebooks, rfl⟩ := hp
    exact (within_gcOrphanEmbeddingTables hs notebooks).mono fun _ _ _ h _ => h.2
  · refine ⟨?_, ?_, ?_⟩ <;> simp [hstart]
  · constructor <;> simp [hstart]

/-- In every state of a run with crashes no coordinate has two active rows and every active row has
its table. Between the operations a flip that fails leaves the registry as it was, and a building
table gets a name that no other row has. -/
theorem tableRegistry_sound (hK : Distinguished K) {start : EngineState}
    (hstart : start.registry.rows = []) {phase : Phase Cmd Cmd.Reply Stop}
    (h : TableRun K start (phase, s)) :
    (activeCoords s.registry.rows).Nodup ∧
    (∀ row ∈ s.registry.rows, row.status = .active → row.table ∈ s.tables) ∧
    (phase = .idle → ∀ c, K c →
      (∀ building e s', Exec (fun c (_ : Unit) => c.carryOut) (flipActive c building) s (.error e)
        s' → s'.registry = s.registry) ∧
      ∀ name s', Exec (fun c (_ : Unit) => c.carryOut) (createBuildingTable c) s (.ok name) s' →
        s'.registry.rows = s.registry.rows ++ [⟨c, name, .building⟩] ∧
          ∀ row ∈ s.registry.rows, row.table ≠ name) := by
  have hholds := h.holds hK hstart
  have hkept : RegistryKept K s := hholds.always
  refine ⟨s.registry.uqActive, hkept.active, ?_⟩
  intro hidle c hc
  subst hidle
  have hset : RegistrySettled s := hholds.2
  constructor
  · intro building e s' hexec
    have hfailed := ((within_flipActive hkept hset c building).result hexec).2.2
    rw [hfailed nofun]
  · intro name s' hexec
    exact ((within_createBuildingTable hK hkept hset hc).result hexec).2.2 name rfl

/-- Coordinates as the settings of the notebooks resolve to. -/
theorem distinguished_supported :
    Distinguished fun c => NoPair '_' c.notebook ∧ c.Supported := by
  intro c d hc hd g h hname
  exact ((genTableName_eq_iff hc.1 hd.1).mp hname).1.eq hc.2 hd.2

end Runs

section Examples

/-- A store in which nothing has been embedded. -/
def emptyStore : EngineState :=
  ⟨"nb".toList, none, none, [], [], [], ⟨[], List.nodup_nil⟩, ∅, ∅, ∅, false⟩

/-- The state after operations that nothing interrupts. -/
def afterOps : List TableOp → EngineState → Option EngineState
  | [], s => some s
  | op :: ops, s =>
    (runWith (fun c (_ : Unit) => c.carryOut) () op.job s).bind fun out => afterOps ops out.2

theorem TableRun.after {K : Coordinate → Prop} {start s s' : EngineState} {ops : List TableOp}
    (h : TableRun K start (.idle, s)) (hK : ∀ op ∈ ops, K op.coordinate)
    (hrun : afterOps ops s = some s') : TableRun K start (.idle, s') := by
  induction ops generalizing s with
  | nil =>
    cases hrun
    exact h
  | cons op ops ih =>
    obtain ⟨out, hout, hrun⟩ := Option.bind_eq_some_iff.mp hrun
    have hop := hK op List.mem_cons_self
    apply ih _ (fun op' h => hK op' (List.mem_cons_of_mem _ h)) hrun
    exact ProcessRun.complete h ⟨op, hop, rfl⟩ (exec_of_runWith hout)

/-- After a flip the store has the second table of a coordinate only. -/
theorem tableRegistry_sound_nomic : ∃ s s' name,
    s.registry.rows = [⟨nomicCoordinate, genTableName nomicCoordinate 1, .active⟩] ∧
      Exec (fun c (_ : Unit) => c.carryOut) (createBuildingTable nomicCoordinate) s (.ok name) s' ∧
        ∀ row ∈ s.registry.rows, row.table ∈ s.tables ∧ row.table ≠ name := by
  have hrun : ∃ s, afterOps [.ensure nomicCoordinate, .createBuilding nomicCoordinate,
      .flip nomicCoordinate (genTableName nomicCoordinate 1)] emptyStore = some s ∧
      s.registry.rows = [⟨nomicCoordinate, genTableName nomicCoordinate 1, .active⟩] ∧
      ∃ name s', runWith (fun c (_ : Unit) => c.carryOut) () (createBuildingTable nomicCoordinate)
        s = some (.ok name, s') := ⟨_, rfl, by decide +kernel, _, _, rfl⟩
  obtain ⟨s, hrun, hrows, name, s', hcreate⟩ := hrun
  have hK : NoPair '_' nomicCoordinate.notebook ∧ nomicCoordinate.Supported := by
    unfold NoPair Coordinate.Supported
    decide +kernel
  have hops : ∀ op ∈ [TableOp.ensure nomicCoordinate, .createBuilding nomicCoordinate,
      .flip nomicCoordinate (genTableName nomicCoordinate 1)],
      op.coordinate = nomicCoordinate := by simp [TableOp.coordinate]
  have hreach : TableRun (fun c => NoPair '_' c.notebook ∧ c.Supported) emptyStore (.idle, s) :=
    TableRun.after .start (fun op hop => by rwa [hops op hop]) hrun
  have hsound := tableRegistry_sound distinguished_supported rfl hreach
  have hexec := exec_of_runWith hcreate
  have hfresh := (hsound.2.2 rfl nomicCoordinate hK).2 name s' hexec
  refine ⟨s, s', name, hrows, hexec, fun row hrow => ⟨hsound.2.1 row hrow ?_, hfresh.2 row hrow⟩⟩
  rw [hrows, List.mem_singleton] at hrow
  rw [hrow]

/-- Two model ids of one slug share a table, which goes with the retirement of one of them. -/
theorem tableRegistry_unsound : ∃ s, TableRun (fun _ => True) emptyStore (.idle, s) ∧
    ∃ row ∈ s.registry.rows, row.status = .active ∧ row.table ∉ s.tables := by
  have hrun : ∃ s, afterOps [.ensure ⟨"nb".toList, .fastembed, "bge-m3".toList, 1024⟩,
      .ensure ⟨"nb".toList, .fastembed, "bge_m3".toList, 1024⟩,
      .retire ⟨"nb".toList, .fastembed, "bge-m3".toList, 1024⟩] emptyStore = some s ∧
      ∃ row ∈ s.registry.rows, row.status = .active ∧ row.table ∉ s.tables :=
    ⟨_, rfl, by decide +kernel⟩
  obtain ⟨s, hrun, hlost⟩ := hrun
  exact ⟨s, TableRun.after .start (fun _ _ => trivial) hrun, hlost⟩

end Examples

end LensLM
