import LensLM.IndexedVectors

/-!
# The vector store's operations and the indexed sources

Each operation only issues commands that are safe where it issues them. What it returns with is said
besides, as far as an ingest builds on it.
-/

namespace LensLM

open ByteText Programs Program Ranking

set_option autoImplicit false

variable {K : Coordinate → Prop} {c : Coordinate} {w : Recorded} {α β : Type}

/-- Every command of a job keeps the indexed sources sound, and a result comes with `P`. -/
abbrev Yields (K : Coordinate → Prop) (c : Coordinate) (P : α → Recorded → Prop) (p : Job α)
    (w : Recorded) : Prop :=
  Throughout Recorded.react (IndexSound K c) (fun r t => ∀ a, r = .ok a → P a t) p w

section Rules

theorem Yields.ret {P : α → Recorded → Prop} {a : α} (hs : IndexSound K c w) (h : P a w) :
    Yields K c P (.ret a) w := by
  refine ⟨hs, fun b hb => ?_⟩
  cases hb
  exact h

theorem Yields.fail {P : α → Recorded → Prop} (hs : IndexSound K c w) (e : Stop) :
    Yields K c P (.fail e) w := ⟨hs, fun _ h => by cases h⟩

theorem Yields.mono {P Q : α → Recorded → Prop} {p : Job α} (h : Yields K c P p w)
    (hPQ : ∀ a t, IndexSound K c t → P a t → Q a t) : Yields K c Q p w :=
  Throughout.mono h fun _ t ht hP a ha => hPQ a t ht (hP a ha)

theorem Yields.bind {P : α → Recorded → Prop} {Q : β → Recorded → Prop} {p : Job α}
    {f : α → Job β} (h : Yields K c P p w)
    (hf : ∀ a t, IndexSound K c t → P a t → Yields K c Q (f a) t) : Yields K c Q (p.bind f) w := by
  apply Throughout.bind
  apply Throughout.mono h
  intro r t ht hr
  cases r with
  | ok a => exact hf a t ht (hr a rfl)
  | error e => exact fun b hb => by cases hb

theorem Yields.forEach {I : List β → Recorded → Prop} {f : β → Job Unit}
    (hstep : ∀ x xs t, IndexSound K c t → I (x :: xs) t → Yields K c (fun _ => I xs) (f x) t)
    {xs : List β} (hs : IndexSound K c w) (hI : I xs w) :
    Yields K c (fun _ => I []) (Program.forEach xs f) w := by
  induction xs generalizing w with
  | nil => exact .ret hs hI
  | cons x xs ih => exact Yields.bind (hstep x xs w hs hI) fun _ t ht h => ih ht h

/-- A command that is safe where it is issued, and that changes nothing if it fails. -/
theorem throughout_command {k : Cmd} {Q : Except Stop k.Reply → Recorded → Prop}
    (hs : IndexSound K c w) (hsafe : k.Safe K c w.engine)
    (hok : ∀ a s', k.run w.engine = .ok (a, s') → Q (.ok a) (w.after k s'))
    (herr : ∀ stop, Q (.error stop) w) :
    Throughout Recorded.react (IndexSound K c) Q (perform k) w := by
  refine Throughout.perform (c := k) hs fun x r t hr => ?_
  obtain ⟨a, s, rfl, hrun, rfl⟩ | ⟨stop, rfl, rfl⟩ := Recorded.react_cases hr
  · exact ⟨hs.step hsafe hrun, hok a s hrun⟩
  · exact ⟨hs, herr stop⟩

theorem Yields.command {k : Cmd} {P : k.Reply → Recorded → Prop} (hs : IndexSound K c w)
    (hsafe : k.Safe K c w.engine)
    (h : ∀ a s', k.run w.engine = .ok (a, s') → P a (w.after k s')) :
    Yields K c P (perform k) w := by
  refine throughout_command hs hsafe (fun a s' hrun b hb => ?_) fun stop b hb => by cases hb
  cases hb
  exact h a s' hrun

/-- A command that reads. -/
theorem Yields.read {k : Cmd} {a : k.Reply} (hs : IndexSound K c w)
    (hsafe : k.Safe K c w.engine) (hindexes : k.indexes = none)
    (hrun : k.run w.engine = .ok (a, w.engine)) :
    Yields K c (fun b t => b = a ∧ t = w) (perform k) w := by
  refine Yields.command hs hsafe fun b s' hb => ?_
  rw [hrun] at hb
  cases hb
  exact ⟨rfl, Recorded.after_of_indexes hindexes w w.engine⟩

/-- The sources and the chunk rows are those of another state. -/
structure SameContent (w t : Recorded) : Prop where
  sources : t.engine.sources = w.engine.sources
  chunks : t.engine.chunks = w.engine.chunks
  written : t.written = w.written

theorem SameContent.chunksOf {t : Recorded} (h : SameContent w t) (id : String) :
    t.engine.chunksOf id = w.engine.chunksOf id := by
  unfold EngineState.chunksOf
  rw [h.chunks]

theorem SameContent.unindexed {t : Recorded} (h : SameContent w t) {id : String}
    (hid : w.engine.Unindexed id) : t.engine.Unindexed id := by
  intro x hx
  rw [h.sources] at hx
  exact hid x hx

theorem Cmd.OnTables.indexes {cmd : Cmd} (h : cmd.OnTables) : cmd.indexes = none := by
  cases cmd with
  | updateSourceStatus id status => exact absurd h not_false
  | _ => rfl

/-- A job on the tables leaves the sources and the chunk rows as they are. -/
theorem Yields.frame {P : α → Recorded → Prop} {p : Job α} (hp : p.All Cmd.OnTables)
    (h : Yields K c P p w) : Yields K c (fun a t => P a t ∧ SameContent w t) p w := by
  have hsame : Throughout Recorded.react (SameContent w) (fun _ _ => True) p w := by
    refine Throughout.quiet ?_ hp ⟨rfl, rfl, rfl⟩
    intro cmd x t r t' hcmd ht hr
    obtain ⟨a, s, rfl, hrun, rfl⟩ | ⟨stop, rfl, rfl⟩ := Recorded.react_cases hr
    · obtain ⟨registry, tables, rfl⟩ := hcmd.run hrun
      rw [Recorded.after_of_indexes hcmd.indexes]
      exact ⟨ht.sources, ht.chunks, ht.written⟩
    · exact ht
  refine (Throughout.and h hsame).mono fun r t _ hr a ha => ?_
  exact ⟨hr.1 a ha, hr.2.1⟩

end Rules

section Tables

theorem yields_openTableByName (hs : IndexSound K c w) (name : Str) :
    Yields K c (fun r t => r = (if name ∈ w.engine.tables then some name else none) ∧ t = w)
      (openTableByName name) w := by
  refine Yields.bind (Yields.read (k := .tableNames) hs trivial rfl rfl) ?_
  intro existing t _ h
  obtain ⟨rfl, rfl⟩ := h
  by_cases hname : name ∈ t.engine.tables
  · rw [if_pos (show name ∈ t.engine.tables.keys from AList.mem_keys.mp hname), if_pos hname]
    have hopen : (Cmd.openTable name).run t.engine = .ok ((), t.engine) := by
      simp only [Cmd.run, if_pos hname]
    refine Yields.bind (Yields.read hs trivial rfl hopen) ?_
    intro _ u hu h
    obtain ⟨_, rfl⟩ := h
    exact .ret hu ⟨rfl, rfl⟩
  · rw [if_neg fun h => hname (AList.mem_keys.mpr h), if_neg hname]
    exact .ret hs ⟨rfl, rfl⟩

/-- An active row has its table. -/
theorem yields_openActiveTable (hs : IndexSound K c w) :
    Yields K c (fun r t => r = w.engine.registry.activeName c ∧ t = w) (openActiveTable c) w := by
  refine Yields.bind (Yields.read (k := .activeLanceTableName c) hs trivial rfl rfl) ?_
  intro name t _ h
  obtain ⟨rfl, rfl⟩ := h
  cases hname : t.engine.registry.activeName c with
  | none => exact .ret hs ⟨rfl, rfl⟩
  | some n =>
    have hn : n ∈ t.engine.tables := hs.kept.active _ (Registry.activeName_eq_some hname) rfl
    refine (yields_openTableByName hs n).mono fun r u _ h => ?_
    rw [if_pos hn] at h
    exact h

theorem yields_dropSource (hs : IndexSound K c w) {id : String} (hid : w.engine.Wipeable id) :
    Yields K c (fun _ _ => True) (dropSource c id) w := by
  refine Yields.bind (yields_openActiveTable hs) fun table t ht h => ?_
  obtain ⟨rfl, rfl⟩ := h
  cases t.engine.registry.activeName c with
  | none => exact .ret ht trivial
  | some n => exact Yields.command (k := .deleteRows n id) ht hid fun _ _ _ => trivial

/-- The first table's name is free as long as there is no active table. -/
theorem IndexSound.first_fresh (hK : Distinguished K) (hc : K c) (hs : IndexSound K c w)
    (hnone : w.engine.registry.activeName c = none) :
    ∀ row ∈ w.engine.registry.rows, row.table ≠ genTableName c 0 := by
  intro row hrow hname
  obtain ⟨hcoord, hlater⟩ := hs.kept.owner hK hc hrow hname
  by_cases hb : row.status = .building
  · exact absurd (hlater hb) (Nat.lt_irrefl 0)
  · have hsome := hs.first row hrow hcoord hb
    rw [hnone] at hsome
    cases hsome

theorem yields_ensureTable (hK : Distinguished K) (hc : K c) (hs : IndexSound K c w) :
    Yields K c (fun n t => t.engine.registry.activeName c = some n ∧ n ∈ t.engine.tables)
      (ensureTable c) w := by
  refine Yields.bind (Yields.read (k := .activeLanceTableName c) hs trivial rfl rfl) ?_
  intro name t _ h
  obtain ⟨rfl, rfl⟩ := h
  cases hname : t.engine.registry.activeName c with
  | some n =>
    have hn : n ∈ t.engine.tables := hs.kept.active _ (Registry.activeName_eq_some hname) rfl
    refine Yields.bind (yields_openTableByName hs n) fun table u hu h => ?_
    rw [if_pos hn] at h
    obtain ⟨rfl, rfl⟩ := h
    exact .ret hu ⟨hname, hn⟩
  | none =>
    have hregister : ∀ u : Recorded, IndexSound K c u → u.engine.registry.activeName c = none →
        genTableName c 0 ∈ u.engine.tables →
        Yields K c (fun n t => t.engine.registry.activeName c = some n ∧ n ∈ t.engine.tables) (do
          perform (.register c (genTableName c 0) .active : Cmd)
          return genTableName c 0) u := by
      intro u hu hnone htable
      refine Yields.bind (Yields.command (k := .register c (genTableName c 0) .active)
        (P := fun _ t => t.engine.registry.activeName c = some (genTableName c 0) ∧
          genTableName c 0 ∈ t.engine.tables) hu
        ⟨rfl, hc, htable, hu.first_fresh hK hc hnone, .inr ⟨rfl, rfl, hnone⟩⟩ ?_) ?_
      · intro _ s' hrun
        cases hrun
        exact ⟨Registry.activeName_first hnone _, htable⟩
      · intro _ v hv h
        exact .ret hv h
    refine Yields.bind (Yields.read (k := .tableNames) hs trivial rfl rfl) ?_
    intro existing u _ h
    obtain ⟨rfl, rfl⟩ := h
    dsimp only
    by_cases hex : genTableName c 0 ∈ u.engine.tables
    · rw [if_pos (show genTableName c 0 ∈ u.engine.tables.keys from AList.mem_keys.mp hex)]
      have hopen : (Cmd.openTable (genTableName c 0)).run u.engine = .ok ((), u.engine) := by
        simp only [Cmd.run, if_pos hex]
      refine Yields.bind (Yields.read hs trivial rfl hopen) ?_
      intro _ v hv h
      obtain ⟨_, rfl⟩ := h
      exact hregister v hv hname hex
    · rw [if_neg fun h => hex (AList.mem_keys.mpr h)]
      refine Yields.bind (Yields.command (k := .createEmptyTable (genTableName c 0))
        (P := fun _ t => t.engine.registry.activeName c = none ∧
          genTableName c 0 ∈ t.engine.tables) hs trivial ?_) ?_
      · intro _ s' hrun
        simp only [Cmd.run, if_neg hex] at hrun
        cases hrun
        exact ⟨hname, mem_withRows.mpr (.inl rfl)⟩
      · intro _ v hv h
        exact hregister v hv h.1 h.2

theorem yields_addRows (hs : IndexSound K c w) (n : Str) (rows : List VectorRow) :
    Yields K c (fun _ t => t.engine.registry = w.engine.registry ∧ n ∈ t.engine.tables ∧
      t.engine.rowsOf n = w.engine.rowsOf n ++ rows) (perform (.addRows n rows : Cmd)) w := by
  refine Yields.command (k := .addRows n rows) hs trivial fun _ s' hrun => ?_
  simp only [Cmd.run] at hrun
  split at hrun <;> cases hrun
  rename_i old hold
  refine ⟨rfl, mem_withRows.mpr (.inl rfl), ?_⟩
  show (w.engine.withRows n (old ++ rows)).rowsOf n = _
  rw [rowsOf_withRows, if_pos rfl, EngineState.rowsOf, hold]
  rfl

theorem yields_addVectors (hK : Distinguished K) (hc : K c) (hs : IndexSound K c w)
    (rows : List VectorRow) :
    Yields K c (fun _ t => ∀ v ∈ rows, v ∈ t.engine.activeRows c) (addVectors c rows) w := by
  unfold addVectors
  split
  · rename_i hnil
    refine .ret hs ?_
    rw [List.isEmpty_iff.mp hnil]
    exact List.forall_mem_nil _
  · refine Yields.bind (yields_ensureTable hK hc hs) fun n t ht h => ?_
    refine (yields_addRows ht n rows).mono fun _ u _ hu v hv => ?_
    rw [activeRows_of_name (hu.1 ▸ h.1), hu.2.2]
    exact List.mem_append_right _ hv

/-- Tables without an active row are dropped, and the others stay, however it ends. -/
theorem throughout_dropTables (hs : IndexSound K c w) {names : List Str}
    (hnames : ∀ row ∈ w.engine.registry.rows, row.status = .active → row.table ∉ names) :
    Throughout Recorded.react (IndexSound K c)
      (fun _ t => t.engine.registry = w.engine.registry ∧
        ∀ n, n ∉ names → t.engine.rowsOf n = w.engine.rowsOf n) (dropTables names) w := by
  unfold dropTables
  split
  · exact ⟨hs, rfl, fun _ _ => rfl⟩
  · apply Throughout.bind
    refine throughout_command (k := .tableNames) hs trivial ?_ fun _ => ⟨rfl, fun _ _ => rfl⟩
    intro existing s' hrun
    cases hrun
    refine Throughout.forEach (I := fun rest u => rest ⊆ names ∧
      u.engine.registry = w.engine.registry ∧
      ∀ n, n ∉ names → u.engine.rowsOf n = w.engine.rowsOf n) ?_ (fun _ _ h => h.2) hs
      ⟨List.Subset.refl _, rfl, fun _ _ => rfl⟩
    intro name rest u hu h
    obtain ⟨hsub, hreg, hrows⟩ := h
    have hrest : rest ⊆ names := fun n hn => hsub (List.mem_cons_of_mem _ hn)
    have hname : name ∈ names := hsub List.mem_cons_self
    split
    · refine throughout_command (k := .dropTable name) hu ?_ ?_ fun _ => ⟨hreg, hrows⟩
      · intro row hrow hactive heq
        rw [hreg] at hrow
        exact hnames row hrow hactive (heq ▸ hname)
      · intro _ s' hrun
        simp only [Cmd.run] at hrun
        split at hrun <;> cases hrun
        refine ⟨hrest, hreg, fun n hn => ?_⟩
        rw [← hrows n hn]
        show ((u.engine.tables.erase name).lookup n).getD [] = _
        rw [AList.lookup_erase_ne]
        · rfl
        · intro heq
          rw [heq] at hn
          exact hn hname
    · exact ⟨hu, hrest, hreg, hrows⟩

theorem yields_dropTables (hs : IndexSound K c w) {names : List Str}
    (hnames : ∀ row ∈ w.engine.registry.rows, row.status = .active → row.table ∉ names) :
    Yields K c (fun _ t => t.engine.registry = w.engine.registry ∧
      ∀ n, n ∉ names → t.engine.rowsOf n = w.engine.rowsOf n) (dropTables names) w :=
  (throughout_dropTables hs hnames).mono fun _ _ _ h _ _ => h

/-- No two rows have one table, so that building tables are not active. -/
theorem yields_sweep (hs : IndexSound K c w) :
    Yields K c (fun _ _ => True) (sweepOrphanBuildingTables c) w := by
  refine Yields.bind (Yields.read (k := .buildingLanceTableNames c) hs trivial rfl rfl) ?_
  intro names t ht h
  obtain ⟨rfl, rfl⟩ := h
  split
  · exact .ret ht trivial
  · refine Yields.bind (yields_dropTables ht ?_) fun _ u hu _ =>
      Yields.command (k := .deleteBuildingRows c) hu trivial fun _ _ _ => trivial
    intro row hrow hactive hmem
    obtain ⟨row', hrow', hname⟩ := List.mem_map.mp hmem
    obtain ⟨hrow', his⟩ := List.mem_filter.mp hrow'
    cases ht.kept.row_eq hrow' hrow hname
    have hbuilding := (of_decide_eq_true his).2
    rw [hactive] at hbuilding
    cases hbuilding

/-- A table that is registered as building. -/
structure Building (c : Coordinate) (n : Str) (s : EngineState) : Prop where
  row : ⟨c, n, .building⟩ ∈ s.registry.rows
  table : n ∈ s.tables

theorem yields_createBuildingTable (hK : Distinguished K) (hc : K c) (hs : IndexSound K c w) :
    Yields K c (fun n t => Building c n t.engine) (createBuildingTable c) w := by
  refine Yields.bind (Yields.read (k := .lanceTableNamesForCoordinate c) hs trivial rfl rfl) ?_
  intro existing t _ h
  obtain ⟨rfl, rfl⟩ := h
  refine Yields.bind (Yields.read (k := .tableNames) hs trivial rfl rfl) ?_
  intro physical u _ h
  obtain ⟨rfl, rfl⟩ := h
  generalize hb : freeTableName c (u.engine.registry.names c ++ u.engine.tables.keys) = building
  have hnot := freeTableName_notMem c (u.engine.registry.names c ++ u.engine.tables.keys)
  obtain ⟨g, hg, hname⟩ := freeTableName_eq c (u.engine.registry.names c ++ u.engine.tables.keys)
  rw [hb] at hnot hname
  have hfresh : ∀ row ∈ u.engine.registry.rows, row.table ≠ building := by
    intro row hrow ht
    have hcoord := (hs.kept.owner hK hc hrow (ht.trans hname)).1
    apply hnot
    apply List.mem_append_left
    exact List.mem_map.mpr ⟨row, List.mem_filter.mpr ⟨hrow, decide_eq_true hcoord⟩, ht⟩
  refine Yields.bind (Yields.command (k := .createEmptyTable building)
    (P := fun _ t => t.engine.registry = u.engine.registry ∧ building ∈ t.engine.tables)
    hs trivial ?_) ?_
  · intro _ s' hrun
    simp only [Cmd.run] at hrun
    split at hrun <;> cases hrun
    exact ⟨rfl, mem_withRows.mpr (.inl rfl)⟩
  · intro _ v hv h
    obtain ⟨hreg, htable⟩ := h
    refine Yields.bind (Yields.command (k := .register c building .building)
      (P := fun _ t => Building c building t.engine) hv
      ⟨rfl, hc, htable, hreg ▸ hfresh, .inl ⟨rfl, g, hg, hname⟩⟩ ?_) fun _ x hx h => .ret hx h
    intro _ s' hrun
    cases hrun
    refine ⟨?_, htable⟩
    show _ ∈ (v.engine.registry.register ⟨c, building, .building⟩).rows
    rw [Registry.register_building]
    exact List.mem_append_right _ (List.mem_singleton_self _)

/-- The other sources' vectors are copied. -/
theorem yields_seed (hs : IndexSound K c w) {n : Str} (hb : Building c n w.engine) (id : String) :
    Yields K c (fun _ t => Building c n t.engine ∧
      ∀ v ∈ w.engine.activeRows c, v.sourceId ≠ id → v ∈ t.engine.rowsOf n)
      (seedBuildingFromActive c n id) w := by
  refine Yields.bind (yields_openActiveTable hs) fun active t ht h => ?_
  obtain ⟨rfl, rfl⟩ := h
  cases hactive : t.engine.registry.activeName c with
  | none =>
    refine .ret ht ⟨hb, ?_⟩
    unfold EngineState.activeRows
    rw [hactive]
    exact List.forall_mem_nil _
  | some active =>
    refine Yields.bind (yields_openTableByName ht n) fun table u hu h => ?_
    rw [if_pos hb.table] at h
    obtain ⟨rfl, rfl⟩ := h
    have hopen : active ∈ u.engine.tables :=
      ht.kept.active _ (Registry.activeName_eq_some hactive) rfl
    obtain ⟨old, hold⟩ := Option.isSome_iff_exists.mp (AList.lookup_isSome.mpr hopen)
    have hquery : (Cmd.queryOthers active id).run u.engine =
        .ok (old.filter fun r => r.sourceId ≠ id, u.engine) := by simp only [Cmd.run, hold]
    refine Yields.bind (Yields.read hu trivial rfl hquery) fun rows x hx h => ?_
    obtain ⟨rfl, rfl⟩ := h
    refine (yields_addRows hx n _).mono fun _ y _ hy =>
      ⟨⟨hy.1 ▸ hb.row, hy.2.1⟩, fun v hv hne => ?_⟩
    rw [activeRows_of_name hactive, EngineState.rowsOf, hold] at hv
    rw [hy.2.2]
    exact List.mem_append_right _ (List.mem_filter.mpr ⟨hv, decide_eq_true hne⟩)

theorem yields_addToTable (hs : IndexSound K c w) {n : Str} (hb : Building c n w.engine)
    (rows : List VectorRow) :
    Yields K c (fun _ t => Building c n t.engine ∧
      ∀ v ∈ w.engine.rowsOf n ++ rows, v ∈ t.engine.rowsOf n) (addToTable n rows) w := by
  unfold addToTable
  split
  · rename_i hnil
    rw [List.isEmpty_iff.mp hnil, List.append_nil]
    exact .ret hs ⟨hb, fun _ hv => hv⟩
  · refine Yields.bind (yields_openTableByName hs n) fun table u hu h => ?_
    rw [if_pos hb.table] at h
    obtain ⟨rfl, rfl⟩ := h
    refine (yields_addRows hu n rows).mono fun _ y _ hy => ⟨⟨hy.1 ▸ hb.row, hy.2.1⟩, ?_⟩
    rw [hy.2.2]
    exact fun _ hv => hv

/-- The former active table goes, and the new one is the building table as it was. -/
theorem yields_flipActive (hs : IndexSound K c w) {n : Str} (hb : Building c n w.engine)
    (hrows : ∀ x ∈ w.engine.sources, x.status = .indexed →
      ∀ row ∈ w.engine.chunksOf x.id, row.VectorIn (w.engine.rowsOf n)) :
    Yields K c (fun _ t => t.engine.activeRows c = w.engine.rowsOf n) (flipActive c n) w := by
  refine Yields.bind (Yields.command (k := .flipActiveTxn c n) (P := fun former t =>
    t.engine.registry.activeName c = some n ∧ t.engine.rowsOf n = w.engine.rowsOf n ∧
    ∀ f, former = some f → ⟨c, f, .stale⟩ ∈ t.engine.registry.rows) hs ⟨rfl, hb.table, hrows⟩ ?_) ?_
  · intro former s' hrun
    simp only [Cmd.run] at hrun
    cases hflip : w.engine.registry.flip c n with
    | error e =>
      rw [hflip] at hrun
      cases hrun
    | ok r =>
      rw [hflip] at hrun
      cases hrun
      refine ⟨Registry.activeName_flip hflip, rfl, fun f hf => ?_⟩
      exact (Registry.mem_flip_stale hflip rfl).mpr (Registry.demote_of_activeName hf)
  · intro former t ht h
    obtain ⟨hname, hsame, hformer⟩ := h
    have hactive : t.engine.activeRows c = w.engine.rowsOf n := by
      rw [activeRows_of_name hname, hsame]
    cases former with
    | none => exact .ret ht hactive
    | some f =>
      have hstale := hformer f rfl
      have hunused : ∀ row ∈ t.engine.registry.rows, row.status = .active → row.table ≠ f := by
        intro row hrow hs hf
        cases ht.kept.row_eq hrow hstale hf
        cases hs
      have hne : n ≠ f := hunused _ (Registry.activeName_eq_some hname) rfl
      refine Yields.bind (yields_dropTables ht fun row hrow hs hmem =>
        hunused row hrow hs (List.mem_singleton.mp hmem)) fun _ u hu h => ?_
      obtain ⟨hreg, hkeep⟩ := h
      have hunused' : ∀ row ∈ u.engine.registry.rows, row.status = .active → row.table ≠ f := by
        rw [hreg]
        exact hunused
      refine Yields.command (k := .deleteRowByTable c f) hu hunused' fun _ s' hrun => ?_
      cases hrun
      have hname' : (u.engine.registry.delete fun row => row.coord = c ∧ row.table = f).activeName
          c = some n := by
        rw [Registry.activeName_delete fun row hrow hs => by simp [hunused' row hrow hs], hreg]
        exact hname
      have hlast : (u.engine.withRegistry (u.engine.registry.delete fun row =>
          row.coord = c ∧ row.table = f)).activeRows c = u.engine.rowsOf n :=
        activeRows_of_name hname'
      exact hlast.trans ((hkeep n fun hmem => hne (List.mem_singleton.mp hmem)).trans hsame)

end Tables

section Index

/-- What the index is asked to hold: a vector for each chunk. -/
def ChunksIn (sourceId : String) (chunks : List Chunk) (rows : List VectorRow) : Prop :=
  ∀ chunk ∈ chunks, ∃ v ∈ rows, v.chunkId = chunk.id ∧ v.sourceId = sourceId

theorem chunksIn_vectorRows (notebook : Str) (sourceId : String) {chunks : List Chunk}
    {rows : List VectorRow} (h : ∀ v ∈ chunks.map (vectorRow notebook sourceId), v ∈ rows) :
    ChunksIn sourceId chunks rows := by
  intro chunk hchunk
  exact ⟨vectorRow notebook sourceId chunk, h _ (List.mem_map_of_mem hchunk), rfl, rfl⟩

theorem yields_outside (hs : IndexSound K c w) :
    Yields K c (fun _ t => t = w) (perform (.outside : Cmd)) w :=
  (Yields.read (k := .outside) hs trivial rfl rfl).mono fun _ _ _ h => h.2

theorem yields_indexDirect (hK : Distinguished K) (hc : K c) (hs : IndexSound K c w)
    (sourceId : String) (chunks : List Chunk) :
    Yields K c (fun _ t => ChunksIn sourceId chunks (t.engine.activeRows c))
      (indexDirect c sourceId chunks) w := by
  refine Yields.bind (Yields.forEach (I := fun _ _ => True) ?_ hs trivial) fun _ t ht _ => ?_
  · exact fun _ _ u hu _ => (yields_outside hu).mono fun _ _ _ _ => trivial
  · exact (yields_addVectors hK hc ht _).mono fun _ u _ h =>
      chunksIn_vectorRows c.notebook sourceId h

/-- The chunk rows of the indexed sources have their vectors in the building table. -/
def Others (n : Str) (s : EngineState) : Prop :=
  ∀ x ∈ s.sources, x.status = .indexed → ∀ row ∈ s.chunksOf x.id, row.VectorIn (s.rowsOf n)

theorem SameContent.others {t : Recorded} (h : SameContent w t) {n : Str}
    (hrows : ∀ x ∈ w.engine.sources, x.status = .indexed → ∀ row ∈ w.engine.chunksOf x.id,
      row.VectorIn (t.engine.rowsOf n)) : Others n t.engine := by
  intro x hx hs row hrow
  rw [h.sources] at hx
  rw [h.chunksOf] at hrow
  exact hrows x hx hs row hrow

/-- The seed copies the vectors of all but the source that is ingested, which is not indexed. -/
theorem yields_seed_others (hs : IndexSound K c w) {n : Str} (hb : Building c n w.engine)
    {sourceId : String} (hid : w.engine.Unindexed sourceId) :
    Yields K c (fun _ t => Building c n t.engine ∧ Others n t.engine)
      (seedBuildingFromActive c n sourceId) w := by
  refine (Yields.frame (seed_onTables c n sourceId) (yields_seed hs hb sourceId)).mono
    fun _ t _ h => ?_
  obtain ⟨⟨hb', hcopied⟩, hsame⟩ := h
  refine ⟨hb', hsame.others fun x hx hstatus row hrow => ?_⟩
  refine (hs.vectors x hx hstatus row hrow).mono fun v hv hsource => hcopied v hv fun hv' => ?_
  have hrowId : row.sourceId = x.id := of_decide_eq_true (List.mem_filter.mp hrow).2
  exact hid x hx (hrowId.symm.trans (hsource.symm.trans hv')) hstatus

theorem ChunksIn.mono {sourceId : String} {chunks : List Chunk} {rows rows' : List VectorRow}
    (h : ChunksIn sourceId chunks rows) (hsub : ∀ v ∈ rows, v ∈ rows') :
    ChunksIn sourceId chunks rows' := by
  intro chunk hchunk
  obtain ⟨v, hv, hrest⟩ := h chunk hchunk
  exact ⟨v, hsub v hv, hrest⟩

/-- One more batch of vectors. -/
theorem yields_populate (hs : IndexSound K c w) {n : Str} (hb : Building c n w.engine)
    (hothers : Others n w.engine) {sourceId : String} {done batch : List Chunk}
    (hdone : ChunksIn sourceId done (w.engine.rowsOf n)) :
    Yields K c (fun _ t => Building c n t.engine ∧ Others n t.engine ∧
      ChunksIn sourceId (done ++ batch) (t.engine.rowsOf n)) (populate n c sourceId batch) w := by
  refine Yields.bind (yields_outside hs) fun _ t ht h => ?_
  subst h
  refine (Yields.frame (addToTable_onTables n _) (yields_addToTable ht hb _)).mono
    fun _ u _ h => ?_
  obtain ⟨⟨hb', hmem⟩, hsame⟩ := h
  have hold : ∀ v ∈ t.engine.rowsOf n, v ∈ u.engine.rowsOf n := fun v hv =>
    hmem v (List.mem_append_left _ hv)
  refine ⟨hb', hsame.others fun x hx hstatus row hrow =>
    (hothers x hx hstatus row hrow).mono fun v hv _ => hold v hv, ?_⟩
  intro chunk hchunk
  rcases List.mem_append.mp hchunk with hchunk | hchunk
  · exact hdone.mono hold chunk hchunk
  · exact chunksIn_vectorRows c.notebook sourceId
      (fun v hv => hmem v (List.mem_append_right _ hv)) chunk hchunk

/-- The building table that replaces the active one has the vectors of the other sources, which the
seed has copied, and those of the chunks, batch by batch. -/
theorem yields_indexPdf (hK : Distinguished K) (hc : K c) (hs : IndexSound K c w)
    {sourceId : String} (hid : w.engine.Unindexed sourceId) (chunks : List Chunk) :
    Yields K c (fun _ t => ChunksIn sourceId chunks (t.engine.activeRows c))
      (indexPdf c sourceId chunks) w := by
  refine Yields.bind (Yields.frame (sweep_onTables c) (yields_sweep hs)) fun _ t ht h => ?_
  have hid := h.2.unindexed hid
  refine Yields.bind (Yields.frame (createBuildingTable_onTables c)
    (yields_createBuildingTable hK hc ht)) fun n u hu h => ?_
  obtain ⟨hb, hsame⟩ := h
  refine Yields.bind (yields_seed_others hu hb (hsame.unindexed hid)) fun _ v hv h => ?_
  refine Yields.bind (Yields.forEach (I := fun rest x => Building c n x.engine ∧
    Others n x.engine ∧ ∃ done, batches EMBED_BATCH chunks = done ++ rest ∧
      ChunksIn sourceId done.flatten (x.engine.rowsOf n)) ?_ hv ⟨h.1, h.2, [], rfl, ?_⟩) ?_
  · intro batch rest x hx h
    obtain ⟨hb, hothers, done, hsplit, hdone⟩ := h
    refine (yields_populate hx hb hothers hdone).mono fun _ y _ h => ?_
    refine ⟨h.1, h.2.1, done ++ [batch], by simp [hsplit], ?_⟩
    rw [List.flatten_append, List.flatten_singleton]
    exact h.2.2
  · exact List.forall_mem_nil _
  · intro _ x hx h
    obtain ⟨hb, hothers, done, hsplit, hdone⟩ := h
    rw [List.append_nil] at hsplit
    rw [← hsplit, flatten_batches] at hdone
    refine Yields.bind (yields_outside hx) fun _ y hy h => ?_
    subst h
    refine (yields_flipActive hy hb hothers).mono fun _ z _ h => ?_
    rw [h]
    exact hdone

end Index

end LensLM
