import LensLM.Reembed
import Mathlib.Data.Fintype.Defs

/-!
# The orphan sweep

A PDF ingest drops every table that is registered as building, under the ingest lock. An
enrichment builds its table without the lock, so that the sweep may take it for an orphan.
-/

namespace LensLM

open ByteText Programs Program

set_option autoImplicit false

/-- What a job is seen to hold: the permit, the table it builds until it flips it or fails, a table
it has opened under the permit, and the names it is about to drop. -/
structure Held where
  permit : Bool := false
  creating : Bool := false
  building : Option Str := none
  opened : Option Str := none
  /-- The names listed by a sweep. -/
  swept : List Str := []
  /-- The name that a flip has demoted. -/
  stale : Option Str := none
  /-- The listed names that a snapshot of the tables has. -/
  doomed : List Str := []

def Held.listed (h : Held) : List Str := if h.swept.isEmpty then h.stale.toList else h.swept

def Held.done (h : Held) : (c : Cmd) → c.Reply → Held
  | .acquire, _ => { h with permit := true }
  | .release, _ => {}
  | .lanceTableNamesForCoordinate _, _ => { h with creating := true }
  | .createEmptyTable n, _ =>
    if h.creating then { h with creating := false, building := some n }
    else if h.permit then { h with opened := some n } else h
  | .openTable n, _ => if h.permit then { h with opened := some n } else h
  | .buildingLanceTableNames _, names => { h with swept := names }
  | .flipActiveTxn _ _, stale => { h with building := none, stale := stale }
  | .tableNames, existing =>
    { h with swept := [], stale := none, doomed := h.listed.filter (· ∈ existing) }
  | .dropTable n, _ => { h with opened := none, doomed := h.doomed.erase n }
  | _, _ => h

/-- The machine of the engine's commands, with a failed command as the end of a building table. -/
def sweepMachine : Machine Cmd Cmd.Reply Stop (Option LensError) EngineState Held where
  react := Cmd.react
  note h x := match x.reply with
    | .ok a => h.done x.command a
    | .error _ => { h with building := none }

inductive SweepJob (F T : Type) where
  | reembed (sourceId : String) (docSummary : Str) (summaryId : String)
  | ingest (e : Surroundings F T) (sourceId : String)

section Jobs

variable {F T ι : Type} [LinearOrder T] [Zero T]

def SweepJob.Reembeds : SweepJob F T → Prop
  | .reembed _ _ _ => True
  | .ingest _ _ => False

instance : DecidablePred (SweepJob.Reembeds (F := F) (T := T))
  | .reembed _ _ _ => .isTrue trivial
  | .ingest _ _ => .isFalse id

def SweepJob.program : SweepJob F T → Job Unit
  | .reembed sourceId docSummary summaryId => reembedAndFlip sourceId docSummary summaryId
  | .ingest e sourceId => ingestSource e sourceId

/-- When a sweep takes its snapshot of the tables, none of the names it has listed is the building
table of a live re-embed, and none is listed twice. -/
def SweepsOrphans (jobs : ι → SweepJob F T) : Guard ι Cmd (Option LensError) EngineState Held :=
  fun held i c _ _ => match c with
    | .tableNames => (held i).swept.Nodup ∧
      ∀ n ∈ (held i).swept, ∀ j, (jobs j).Reembeds → (held j).building ≠ some n
    | _ => True

instance [Fintype ι] (jobs : ι → SweepJob F T) (held : ι → Held) (i : ι) (c : Cmd)
    (x : Option LensError) (s : EngineState) : Decidable (SweepsOrphans jobs held i c x s) := by
  unfold SweepsOrphans
  split
  · infer_instance
  · infer_instance

end Jobs

/-- The registry and the tables agree: an active table exists and is not registered as building
too, no building table has a first table's name, and other coordinates have other names. -/
structure EngineState.InOrder (s : EngineState) : Prop where
  active_exists : ∀ row ∈ s.registry.rows, row.status = .active → row.table ∈ s.tables
  active_unshared : ∀ row ∈ s.registry.rows, row.status = .active → ∀ row' ∈ s.registry.rows,
    row'.status = .building → row'.table ≠ row.table
  building_later : ∀ row ∈ s.registry.rows, row.status = .building →
    row.table ≠ genTableName s.coordinate 0
  foreign : ∀ row ∈ s.registry.rows, row.coord ≠ s.coordinate →
    (∀ g, row.table ≠ genTableName s.coordinate g) ∧
    ∀ row' ∈ s.registry.rows, row'.coord = s.coordinate → row'.table ≠ row.table

def EngineState.Inactive (s : EngineState) (n : Str) : Prop :=
  ∀ row ∈ s.registry.rows, row.status = .active → row.table ≠ n

section Invariant

variable {ι : Type}

/-- What holds of a job that holds `h`; `Free` are the names that no job builds. -/
structure HeldIn (s : EngineState) (reembeds : Prop) (Free : Str → Prop) (h : Held) : Prop where
  locked : h.permit = true → s.ingestLock = true
  building : ∀ n, h.building = some n → n ∈ s.tables ∧ s.Inactive n ∧
    (∃ g, 0 < g ∧ n = genTableName s.coordinate g) ∧ (¬ reembeds → h.permit = true)
  opened : ∀ n, h.opened = some n → h.permit = true ∧ n ∈ s.tables
  swept : ∀ n ∈ h.swept, h.permit = true ∧ s.Inactive n
  dropping : ∀ n, h.stale = some n ∨ n ∈ h.doomed →
    h.permit = true ∧ n ∈ s.tables ∧ s.Inactive n ∧ Free n
  nodup : h.doomed.Nodup

def Unbuilt (held : ι → Held) (n : Str) : Prop := ∀ j, (held j).building ≠ some n

structure SweepInv (reembeds : ι → Prop) (held : ι → Held) (s : EngineState) : Prop where
  order : s.InOrder
  job : ∀ i, HeldIn s (reembeds i) (Unbuilt held) (held i)
  alone : ∀ i j, (held i).permit = true → (held j).permit = true → i = j
  building_alone : ∀ i j n, (held i).building = some n → (held j).building = some n → i = j

variable {reembeds : ι → Prop} {held : ι → Held} {s s' : EngineState} {i : ι}

/-- Without the permit a job holds nothing but its building table. -/
theorem HeldIn.bare {P : Prop} {Free : Str → Prop} {h : Held} (hh : HeldIn s P Free h)
    (hp : h.permit = false) : h.opened = none ∧ h.swept = [] ∧ h.stale = none ∧ h.doomed = [] := by
  have hno : ¬ h.permit = true := by simp [hp]
  refine ⟨?_, ?_, ?_, ?_⟩
  · cases ho : h.opened with
    | none => rfl
    | some n => exact absurd (hh.opened n ho).1 hno
  · exact List.eq_nil_iff_forall_not_mem.mpr fun n hn => hno (hh.swept n hn).1
  · cases hs : h.stale with
    | none => rfl
    | some n => exact absurd (hh.dropping n (.inl hs)).1 hno
  · exact List.eq_nil_iff_forall_not_mem.mpr fun n hn => hno (hh.dropping n (.inr hn)).1

/-- No job but the holder of the permit is about to drop a table. -/
theorem SweepInv.idle_others (hinv : SweepInv reembeds held s) (hp : (held i).permit = true)
    {j : ι} (hj : j ≠ i) : (held j).permit = false := by
  by_contra hne
  exact hj (hinv.alone j i (by simpa using hne) hp)

theorem HeldIn.mono {P : Prop} {Free Free' : Str → Prop} {h : Held} (hh : HeldIn s P Free h)
    (hl : s.ingestLock = true → s'.ingestLock = true) (hc : s'.coordinate = s.coordinate)
    (ht : ∀ n ∈ s.tables, n ∈ s'.tables) (hr : ∀ row ∈ s'.registry.rows, row ∈ s.registry.rows)
    (hf : ∀ n ∈ s.tables, Free n → Free' n) : HeldIn s' P Free' h where
  locked hp := hl (hh.locked hp)
  building n hn := by
    obtain ⟨hmem, hin, hgen, hp⟩ := hh.building n hn
    exact ⟨ht n hmem, fun row hrow => hin row (hr row hrow), hc ▸ hgen, hp⟩
  opened n hn := ⟨(hh.opened n hn).1, ht n (hh.opened n hn).2⟩
  swept n hn := ⟨(hh.swept n hn).1, fun row hrow => (hh.swept n hn).2 row (hr row hrow)⟩
  dropping n hn := by
    obtain ⟨hp, hmem, hin, hfree⟩ := hh.dropping n hn
    exact ⟨hp, ht n hmem, fun row hrow => hin row (hr row hrow), hf n hmem hfree⟩
  nodup := hh.nodup

/-- A job without the permit: only its building table matters. -/
theorem HeldIn.idle {P : Prop} {Free Free' : Str → Prop} {h : Held} (hh : HeldIn s P Free h)
    (hp : h.permit = false) (hc : s'.coordinate = s.coordinate)
    (hb : ∀ n, h.building = some n → n ∈ s'.tables ∧ s'.Inactive n) : HeldIn s' P Free' h := by
  obtain ⟨ho, hsw, hst, hd⟩ := hh.bare hp
  refine ⟨?_, ?_, ?_, ?_, ?_, ?_⟩
  · intro h
    rw [hp] at h
    cases h
  · intro n hn
    obtain ⟨_, _, hgen, hperm⟩ := hh.building n hn
    exact ⟨(hb n hn).1, (hb n hn).2, hc ▸ hgen, hperm⟩
  · simp [ho]
  · simp [hsw]
  · simp [hst, hd]
  · simp [hd]

theorem EngineState.InOrder.mono (hs : s.InOrder) (hc : s'.coordinate = s.coordinate)
    (ht : ∀ n ∈ s.tables, n ∈ s'.tables) (hr : ∀ row ∈ s'.registry.rows, row ∈ s.registry.rows) :
    s'.InOrder where
  active_exists row hrow ha := ht _ (hs.active_exists row (hr row hrow) ha)
  active_unshared row hrow ha row' hrow' hb :=
    hs.active_unshared row (hr row hrow) ha row' (hr row' hrow') hb
  building_later row hrow hb := by
    rw [hc]
    exact hs.building_later row (hr row hrow) hb
  foreign row hrow hne := by
    rw [hc] at hne ⊢
    obtain ⟨hgen, hnames⟩ := hs.foreign row (hr row hrow) hne
    exact ⟨hgen, fun row' hrow' => hnames row' (hr row' hrow')⟩

variable [DecidableEq ι] {g : Held}

theorem SweepInv.update (hinv : SweepInv reembeds held s) (order : s'.InOrder)
    (hi : HeldIn s' (reembeds i) (Unbuilt (Function.update held i g)) g)
    (ho : ∀ j, j ≠ i → HeldIn s' (reembeds j) (Unbuilt (Function.update held i g)) (held j))
    (hp : g.permit = true → ∀ j, j ≠ i → (held j).permit = false)
    (hb : ∀ n, g.building = some n → ∀ j, j ≠ i → (held j).building ≠ some n) :
    SweepInv reembeds (Function.update held i g) s' := by
  refine ⟨order, ?_, ?_, ?_⟩
  · intro j
    by_cases hji : j = i
    · subst hji
      simpa using hi
    · simpa [hji] using ho j hji
  · intro j k hj hk
    by_cases hji : j = i
    · subst hji
      rw [Function.update_self] at hj
      by_contra hkj
      have hk' := hp hj k (Ne.symm hkj)
      rw [Function.update_of_ne (Ne.symm hkj), hk'] at hk
      cases hk
    · rw [Function.update_of_ne hji] at hj
      by_cases hki : k = i
      · subst hki
        rw [Function.update_self] at hk
        rw [hp hk j hji] at hj
        cases hj
      · rw [Function.update_of_ne hki] at hk
        exact hinv.alone j k hj hk
  · intro j k n hj hk
    by_cases hji : j = i
    · subst hji
      rw [Function.update_self] at hj
      by_contra hkj
      rw [Function.update_of_ne (Ne.symm hkj)] at hk
      exact hb n hj k (Ne.symm hkj) hk
    · rw [Function.update_of_ne hji] at hj
      by_cases hki : k = i
      · subst hki
        rw [Function.update_self] at hk
        exact absurd hj (hb n hk j hji)
      · rw [Function.update_of_ne hki] at hk
        exact hinv.building_alone j k n hj hk

theorem unbuilt_update {n : Str} (h : Unbuilt held n) (hg : g.building ≠ some n) :
    Unbuilt (Function.update held i g) n := by
  intro j
  by_cases hji : j = i
  · subst hji
    simpa using hg
  · simpa [hji] using h j

/-- `g` holds no more than `h`. -/
structure Held.Le (g h : Held) : Prop where
  permit : g.permit = h.permit
  building : ∀ n, g.building = some n → h.building = some n
  opened : ∀ n, g.opened = some n → h.opened = some n
  swept : g.swept ⊆ h.swept
  stale : ∀ n, g.stale = some n → h.stale = some n
  doomed : g.doomed.Sublist h.doomed

theorem Held.le_refl (h : Held) : h.Le h :=
  ⟨rfl, fun _ => id, fun _ => id, fun _ => id, fun _ => id, List.Sublist.refl _⟩

theorem HeldIn.le {P : Prop} {Free : Str → Prop} {h : Held} (hh : HeldIn s P Free h)
    (hg : g.Le h) : HeldIn s P Free g where
  locked hp := hh.locked (hg.permit ▸ hp)
  building n hn := by
    rw [hg.permit]
    exact hh.building n (hg.building n hn)
  opened n hn := by
    rw [hg.permit]
    exact hh.opened n (hg.opened n hn)
  swept n hn := by
    rw [hg.permit]
    exact hh.swept n (hg.swept hn)
  dropping n hn := by
    rw [hg.permit]
    exact hh.dropping n (hn.imp (hg.stale n) fun hn => hg.doomed.subset hn)
  nodup := hh.nodup.sublist hg.doomed

/-- A step that drops no table, registers nothing and leaves the lock alone. -/
theorem SweepInv.mono (hinv : SweepInv reembeds held s) (hg : g.Le (held i))
    (hl : s'.ingestLock = s.ingestLock) (hc : s'.coordinate = s.coordinate)
    (ht : ∀ n ∈ s.tables, n ∈ s'.tables) (hr : ∀ row ∈ s'.registry.rows, row ∈ s.registry.rows) :
    SweepInv reembeds (Function.update held i g) s' := by
  have hfree : ∀ n ∈ s.tables, Unbuilt held n → Unbuilt (Function.update held i g) n := by
    intro n _ hn
    exact unbuilt_update hn fun hb => hn i (hg.building n hb)
  have hlock : s.ingestLock = true → s'.ingestLock = true := fun h => hl ▸ h
  apply hinv.update (hinv.order.mono hc ht hr)
  · exact ((hinv.job i).mono hlock hc ht hr hfree).le hg
  · intro j _
    exact (hinv.job j).mono hlock hc ht hr hfree
  · intro hp j hj
    rw [hg.permit] at hp
    exact hinv.idle_others hp hj
  · intro n hn j hj hjb
    exact hj (hinv.building_alone j i n hjb (hg.building n hn))

/-- What a job may do, by what it holds; its tables belong to the coordinate `c`. -/
def sweepAllows (c : Coordinate) (reembeds : Prop) : Cmd → Held → Prop
  | .release, h => h.permit = true
  | .createEmptyTable n, h => h.building = none ∧ (h.creating = true →
    (∃ g, 0 < g ∧ n = genTableName c g) ∧ (¬ reembeds → h.permit = true))
  | .register c' n .building, h => c' = c ∧ h.building = some n
  | .register c' n .active, h => c' = c ∧ n = genTableName c 0 ∧ h.opened = some n ∧
    h.swept = [] ∧ h.stale = none ∧ h.doomed = []
  | .register _ _ .stale, _ => False
  | .buildingLanceTableNames _, h => h.permit = true
  | .tableNames, h => h.swept ≠ [] → h.building = none
  | .flipActiveTxn c' n, h => c' = c ∧ h.permit = true ∧ h.building = some n ∧
    h.swept = [] ∧ h.doomed = []
  | .dropTable n, h => n ∈ h.doomed ∧ h.stale = none
  | .setEmbeddingModel _ _, _ => False
  | .demoteActiveToStale _, _ => False
  | _, _ => True

section Steps

variable {s'' : EngineState}

theorem genTableName_ne_first (c : Coordinate) {n : Str} (h : ∃ g, 0 < g ∧ n = genTableName c g) :
    n ≠ genTableName c 0 := by
  obtain ⟨g, hg, rfl⟩ := h
  intro heq
  exact absurd (congrArg List.length heq) (genTableName_length_lt c hg).ne'

theorem SweepInv.acquire (hinv : SweepInv reembeds held s) (hl : s.ingestLock = false) :
    SweepInv reembeds (Function.update held i { held i with permit := true })
      { s with ingestLock := true } := by
  have hno : ∀ j, (held j).permit = false := by
    intro j
    by_contra hp
    rw [(hinv.job j).locked (by simpa using hp)] at hl
    cases hl
  obtain ⟨ho, hsw, hst, hd⟩ := (hinv.job i).bare (hno i)
  apply hinv.update
  · exact hinv.order.mono rfl (fun _ => id) fun _ => id
  · refine ⟨fun _ => rfl, ?_, ?_, ?_, ?_, ?_⟩
    · intro n hn
      obtain ⟨hmem, hin, hgen, _⟩ := (hinv.job i).building n hn
      exact ⟨hmem, hin, hgen, fun _ => rfl⟩
    · simp [ho]
    · simp [hsw]
    · simp [hst, hd]
    · simp [hd]
  · intro j _
    exact (hinv.job j).idle (hno j) rfl fun n hn => by
      obtain ⟨hmem, hin, _⟩ := (hinv.job j).building n hn
      exact ⟨hmem, hin⟩
  · intro _ j _
    exact hno j
  · intro n hn j hj hjb
    exact hj (hinv.building_alone j i n hjb hn)

theorem SweepInv.release (hinv : SweepInv reembeds held s) (hp : (held i).permit = true) :
    SweepInv reembeds (Function.update held i {}) { s with ingestLock := false } := by
  apply hinv.update
  · exact hinv.order.mono rfl (fun _ => id) fun _ => id
  · exact ⟨nofun, nofun, nofun, nofun, by simp, List.nodup_nil⟩
  · intro j hj
    exact (hinv.job j).idle (hinv.idle_others hp hj) rfl fun n hn => by
      obtain ⟨hmem, hin, _⟩ := (hinv.job j).building n hn
      exact ⟨hmem, hin⟩
  · intro h
    cases h
  · intro n hn
    cases hn

/-- A new table that is no building table. -/
theorem SweepInv.create (hinv : SweepInv reembeds held s) {n : Str} (rows : List VectorRow) :
    SweepInv reembeds (Function.update held i
      (if (held i).permit then { held i with opened := some n } else held i))
      (s.withRows n rows) := by
  have ht : ∀ m ∈ s.tables, m ∈ (s.withRows n rows).tables :=
    fun m hm => (AList.mem_insert _).mpr (.inr hm)
  by_cases hp : (held i).permit = true
  · rw [if_pos hp]
    have hfree : ∀ m ∈ s.tables, Unbuilt held m →
        Unbuilt (Function.update held i { held i with opened := some n }) m :=
      fun m _ hm => unbuilt_update hm (hm i)
    apply hinv.update
    · exact hinv.order.mono rfl ht fun _ => id
    · have hh : HeldIn (s.withRows n rows) _ _ _ := (hinv.job i).mono id rfl ht (fun _ => id) hfree
      exact ⟨hh.locked, hh.building, fun m hm => ⟨hp, by cases hm; exact (AList.mem_insert _).mpr (.inl rfl)⟩,
        hh.swept, hh.dropping, hh.nodup⟩
    · intro j _
      exact (hinv.job j).mono id rfl ht (fun _ => id) hfree
    · exact fun _ j hj => hinv.idle_others hp hj
    · intro m hm j hj hjb
      exact hj (hinv.building_alone j i m hjb hm)
  · rw [if_neg hp]
    exact hinv.mono (Held.le_refl _) rfl rfl ht fun _ => id

theorem SweepInv.open (hinv : SweepInv reembeds held s) {n : Str} (hn : n ∈ s.tables) :
    SweepInv reembeds (Function.update held i
      (if (held i).permit then { held i with opened := some n } else held i)) s := by
  by_cases hp : (held i).permit = true
  · rw [if_pos hp]
    have hfree : ∀ m ∈ s.tables, Unbuilt held m →
        Unbuilt (Function.update held i { held i with opened := some n }) m :=
      fun m _ hm => unbuilt_update hm (hm i)
    apply hinv.update
    · exact hinv.order
    · have hh := (hinv.job i).mono id rfl (fun _ => id) (fun _ => id) hfree
      exact ⟨hh.locked, hh.building, fun m hm => ⟨hp, by cases hm; exact hn⟩, hh.swept,
        hh.dropping, hh.nodup⟩
    · intro j _
      exact (hinv.job j).mono id rfl (fun _ => id) (fun _ => id) hfree
    · exact fun _ j hj => hinv.idle_others hp hj
    · intro m hm j hj hjb
      exact hj (hinv.building_alone j i m hjb hm)
  · rw [if_neg hp]
    exact hinv.mono (Held.le_refl _) rfl rfl (fun _ => id) fun _ => id

/-- A new building table: its name is new, so that no job builds or drops it. -/
theorem SweepInv.createBuilding (hinv : SweepInv reembeds held s) {n : Str} (hn : n ∉ s.tables)
    (hgen : ∃ g, 0 < g ∧ n = genTableName s.coordinate g)
    (hp : ¬ reembeds i → (held i).permit = true) :
    SweepInv reembeds (Function.update held i { held i with creating := false, building := some n })
      (s.withRows n []) := by
  have ht : ∀ m ∈ s.tables, m ∈ (s.withRows n []).tables :=
    fun m hm => (AList.mem_insert _).mpr (.inr hm)
  have hfree : ∀ m ∈ s.tables, Unbuilt held m → Unbuilt (Function.update held i
      { held i with creating := false, building := some n }) m := by
    intro m hm hfree
    apply unbuilt_update hfree
    rintro ⟨⟩
    exact hn hm
  apply hinv.update
  · exact hinv.order.mono rfl ht fun _ => id
  · have hh : HeldIn (s.withRows n []) _ _ _ := (hinv.job i).mono id rfl ht (fun _ => id) hfree
    refine ⟨hh.locked, ?_, hh.opened, hh.swept, hh.dropping, hh.nodup⟩
    rintro m ⟨⟩
    refine ⟨(AList.mem_insert _).mpr (.inl rfl), ?_, hgen, hp⟩
    rintro row hrow ha rfl
    exact hn (hinv.order.active_exists row hrow ha)
  · intro j _
    exact (hinv.job j).mono id rfl ht (fun _ => id) hfree
  · exact fun hp j hj => hinv.idle_others hp hj
  · rintro m ⟨⟩ j _ hjb
    exact hn ((hinv.job j).building n hjb).1

theorem SweepInv.list (hinv : SweepInv reembeds held s) (hp : (held i).permit = true)
    (c : Coordinate) : SweepInv reembeds
      (Function.update held i { held i with swept := s.registry.namesOf c .building }) s := by
  have hfree : ∀ m ∈ s.tables, Unbuilt held m → Unbuilt (Function.update held i
      { held i with swept := s.registry.namesOf c .building }) m :=
    fun m _ hm => unbuilt_update hm (hm i)
  apply hinv.update
  · exact hinv.order
  · have hh := (hinv.job i).mono id rfl (fun _ => id) (fun _ => id) hfree
    refine ⟨hh.locked, hh.building, hh.opened, ?_, hh.dropping, hh.nodup⟩
    intro n hn
    refine ⟨hp, ?_⟩
    obtain ⟨row', hrow', rfl⟩ := List.mem_map.mp hn
    have hb := List.mem_filter.mp hrow'
    intro row hrow ha
    exact (hinv.order.active_unshared row hrow ha row' hb.1 (of_decide_eq_true hb.2).2).symm
  · intro j _
    exact (hinv.job j).mono id rfl (fun _ => id) (fun _ => id) hfree
  · exact fun _ j hj => hinv.idle_others hp hj
  · intro m hm j hj hjb
    exact hj (hinv.building_alone j i m hjb hm)

/-- The snapshot of the tables: what was listed and exists is dropped from here on. -/
theorem SweepInv.snapshot (hinv : SweepInv reembeds held s)
    (hown : (held i).swept ≠ [] → (held i).building = none)
    (hg : (held i).swept.Nodup ∧
      ∀ n ∈ (held i).swept, ∀ j, reembeds j → (held j).building ≠ some n) :
    SweepInv reembeds (Function.update held i ((held i).done .tableNames s.tables.keys)) s := by
  have hfree : ∀ m ∈ s.tables, Unbuilt held m →
      Unbuilt (Function.update held i ((held i).done .tableNames s.tables.keys)) m :=
    fun m _ hm => unbuilt_update hm (hm i)
  have hh := (hinv.job i).mono id rfl (fun _ => id) (fun _ => id) hfree
  apply hinv.update
  · exact hinv.order
  · refine ⟨hh.locked, hh.building, hh.opened, nofun, ?_, ?_⟩
    · rintro n (hn | hn)
      · cases hn
      · simp only [Held.done, Held.listed, List.mem_filter, decide_eq_true_eq] at hn
        obtain ⟨hlisted, hmem⟩ := hn
        split at hlisted
        · exact hh.dropping n (.inl (Option.mem_toList.mp hlisted))
        · rename_i hne
          obtain ⟨hp, hin⟩ := (hinv.job i).swept n hlisted
          refine ⟨hp, hmem, hin, hfree n hmem ?_⟩
          intro j hjb
          by_cases hr : reembeds j
          · exact hg.2 n hlisted j hr hjb
          · -- Another ingest would hold the permit too.
            have hjp := ((hinv.job j).building n hjb).2.2.2 hr
            have hji := hinv.alone j i hjp hp
            subst hji
            rw [hown (by simpa using hne)] at hjb
            cases hjb
    · simp only [Held.done, Held.listed]
      apply List.Nodup.filter
      split
      · cases (held i).stale with
        | none => exact List.nodup_nil
        | some n => exact List.nodup_singleton n
      · exact hg.1
  · intro j _
    exact (hinv.job j).mono id rfl (fun _ => id) (fun _ => id) hfree
  · exact fun hp j hj => hinv.idle_others hp hj
  · intro m hm j hj hjb
    exact hj (hinv.building_alone j i m hjb hm)

/-- A doomed table is nobody's building table and not active. -/
theorem SweepInv.drop (hinv : SweepInv reembeds held s) {n : Str} (hn : n ∈ (held i).doomed)
    (hst : (held i).stale = none) : SweepInv reembeds
      (Function.update held i { held i with opened := none, doomed := (held i).doomed.erase n })
      { s with tables := s.tables.erase n } := by
  obtain ⟨hp, hmem, hin, hfree⟩ := (hinv.job i).dropping n (.inr hn)
  have hkeep : ∀ m ∈ s.tables, m ≠ n → m ∈ s.tables.erase n :=
    fun m hm hne => AList.mem_erase.mpr ⟨hne, hm⟩
  have hbuilt : ∀ j m, (held j).building = some m → m ≠ n := by
    rintro j m hjb rfl
    exact hfree j hjb
  apply hinv.update
  · refine ⟨?_, hinv.order.active_unshared, hinv.order.building_later, hinv.order.foreign⟩
    intro row hrow ha
    exact hkeep _ (hinv.order.active_exists row hrow ha) (hin row hrow ha)
  · refine ⟨(hinv.job i).locked, ?_, nofun, (hinv.job i).swept, ?_, ?_⟩
    · intro m hm
      obtain ⟨hmem, hrest⟩ := (hinv.job i).building m hm
      exact ⟨hkeep m hmem (hbuilt i m hm), hrest⟩
    · rintro m (hm | hm)
      · rw [show (held i).stale = some m from hm] at hst
        cases hst
      · obtain ⟨hne, hm⟩ := ((hinv.job i).nodup.mem_erase_iff).mp hm
        obtain ⟨hp, hmem, hin, hfree⟩ := (hinv.job i).dropping m (.inr hm)
        exact ⟨hp, hkeep m hmem hne, hin, unbuilt_update hfree (hfree i)⟩
    · exact (hinv.job i).nodup.erase n
  · intro j hj
    exact (hinv.job j).idle (hinv.idle_others hp hj) rfl fun m hm => by
      obtain ⟨hmem, hin, _⟩ := (hinv.job j).building m hm
      exact ⟨hkeep m hmem (hbuilt j m hm), hin⟩
  · exact fun _ j hj => hinv.idle_others hp hj
  · intro m hm j hj hjb
    exact hj (hinv.building_alone j i m hjb hm)

theorem SweepInv.registerBuilding (hinv : SweepInv reembeds held s) {n : Str}
    (hn : (held i).building = some n) : SweepInv reembeds (Function.update held i (held i))
      (s.withRegistry (s.registry.register ⟨s.coordinate, n, .building⟩)) := by
  obtain ⟨_, hin, hgen, _⟩ := (hinv.job i).building n hn
  have hstays : ∀ m, s.Inactive m → 
      (s.withRegistry (s.registry.register ⟨s.coordinate, n, .building⟩)).Inactive m := by
    intro m hm row hrow ha
    obtain hold | rfl := Registry.mem_register hrow
    · exact hm row hold ha
    · cases ha
  have hjob : ∀ j, HeldIn (s.withRegistry (s.registry.register ⟨s.coordinate, n, .building⟩))
      (reembeds j) (Unbuilt held) (held j) := by
    intro j
    have hh := hinv.job j
    refine ⟨hh.locked, ?_, hh.opened, ?_, ?_, hh.nodup⟩
    · intro m hm
      obtain ⟨hmem, hin, hrest⟩ := hh.building m hm
      exact ⟨hmem, hstays m hin, hrest⟩
    · intro m hm
      exact ⟨(hh.swept m hm).1, hstays m (hh.swept m hm).2⟩
    · intro m hm
      obtain ⟨hp, hmem, hin, hfree⟩ := hh.dropping m hm
      exact ⟨hp, hmem, hstays m hin, hfree⟩
  rw [Function.update_eq_self]
  refine ⟨⟨?_, ?_, ?_, ?_⟩, hjob, hinv.alone, hinv.building_alone⟩
  · intro row hrow ha
    obtain hold | rfl := Registry.mem_register hrow
    · exact hinv.order.active_exists row hold ha
    · cases ha
  · intro row hrow ha row' hrow' hb
    obtain hold | rfl := Registry.mem_register hrow
    · obtain hold' | rfl := Registry.mem_register hrow'
      · exact hinv.order.active_unshared row hold ha row' hold' hb
      · exact (hin row hold ha).symm
    · cases ha
  · intro row hrow hb
    obtain hold | rfl := Registry.mem_register hrow
    · exact hinv.order.building_later row hold hb
    · exact genTableName_ne_first _ hgen
  · intro row hrow hne
    obtain hold | rfl := Registry.mem_register hrow
    · obtain ⟨hgens, hnames⟩ := hinv.order.foreign row hold hne
      refine ⟨hgens, fun row' hrow' hc => ?_⟩
      obtain hold' | rfl := Registry.mem_register hrow'
      · exact hnames row' hold' hc
      · obtain ⟨g, _, hg⟩ := hgen
        intro heq
        exact hgens g (heq.symm.trans hg)
    · exact absurd rfl hne

/-- The first table of the coordinate, which the holder of the permit has opened. -/
theorem SweepInv.registerActive (hinv : SweepInv reembeds held s)
    (ho : (held i).opened = some (genTableName s.coordinate 0)) (hsw : (held i).swept = [])
    (hst : (held i).stale = none) (hd : (held i).doomed = []) :
    SweepInv reembeds (Function.update held i (held i))
      (s.withRegistry (s.registry.register ⟨s.coordinate, genTableName s.coordinate 0, .active⟩)) := by
  obtain ⟨hp, hmem⟩ := (hinv.job i).opened _ ho
  have hbuilt : ∀ j m, (held j).building = some m → 
      (s.withRegistry (s.registry.register
        ⟨s.coordinate, genTableName s.coordinate 0, .active⟩)).Inactive m := by
    intro j m hm row hrow ha
    obtain ⟨_, hin, hgen, _⟩ := (hinv.job j).building m hm
    obtain hold | rfl := Registry.mem_register hrow
    · exact hin row hold ha
    · exact (genTableName_ne_first _ hgen).symm
  apply hinv.update
  · refine ⟨?_, ?_, ?_, ?_⟩
    · intro row hrow ha
      obtain hold | rfl := Registry.mem_register hrow
      · exact hinv.order.active_exists row hold ha
      · exact hmem
    · intro row hrow ha row' hrow' hb
      obtain hold' | rfl := Registry.mem_register hrow'
      · obtain hold | rfl := Registry.mem_register hrow
        · exact hinv.order.active_unshared row hold ha row' hold' hb
        · exact hinv.order.building_later row' hold' hb
      · cases hb
    · intro row hrow hb
      obtain hold | rfl := Registry.mem_register hrow
      · exact hinv.order.building_later row hold hb
      · cases hb
    · intro row hrow hne
      obtain hold | rfl := Registry.mem_register hrow
      · obtain ⟨hgens, hnames⟩ := hinv.order.foreign row hold hne
        refine ⟨hgens, fun row' hrow' hc => ?_⟩
        obtain hold' | rfl := Registry.mem_register hrow'
        · exact hnames row' hold' hc
        · exact (hgens 0).symm
      · exact absurd rfl hne
  · have hh := hinv.job i
    refine ⟨hh.locked, ?_, hh.opened, by simp [hsw], by simp [hst, hd], hh.nodup⟩
    intro m hm
    obtain ⟨hmem, _, hrest⟩ := hh.building m hm
    exact ⟨hmem, hbuilt i m hm, hrest⟩
  · intro j hj
    exact (hinv.job j).idle (hinv.idle_others hp hj) rfl fun m hm =>
      ⟨((hinv.job j).building m hm).1, hbuilt j m hm⟩
  · exact fun _ j hj => hinv.idle_others hp hj
  · intro m hm j hj hjb
    exact hj (hinv.building_alone j i m hjb hm)

/-- The flip: the building table becomes active, the old active one is left to be dropped. -/
theorem SweepInv.flip (hinv : SweepInv reembeds held s) {n : Str} {r : Registry}
    (hp : (held i).permit = true) (hn : (held i).building = some n) (hsw : (held i).swept = [])
    (hd : (held i).doomed = []) (hr : s.registry.flip s.coordinate n = .ok r) :
    SweepInv reembeds (Function.update held i
      { held i with building := none, stale := s.registry.activeName s.coordinate })
      (s.withRegistry r) := by
  obtain ⟨hmem, hin, ⟨g, hg, hgen⟩, _⟩ := (hinv.job i).building n hn
  -- An active name after the flip is the new one, or was active before.
  have hactive : ∀ row ∈ r.rows, row.status = .active → row.table = n ∨
      row.coord ≠ s.coordinate ∧ ∃ old ∈ s.registry.rows, old.coord = row.coord ∧
        old.status = .active ∧ old.table = row.table := by
    intro row hrow ha
    obtain ⟨old, hold, hc, ht, hact, _⟩ := Registry.mem_flip hr hrow
    obtain ⟨_, hb⟩ | ⟨hne, hs⟩ := hact ha
    · exact .inl hb
    · exact .inr ⟨hne, old, hold, hc, hs, ht⟩
  have hstays : ∀ m, m ≠ n → s.Inactive m → (s.withRegistry r).Inactive m := by
    intro m hm hin row hrow ha
    obtain rfl | ⟨_, old, hold, _, hs, ht⟩ := hactive row hrow ha
    · exact hm.symm
    · exact ht ▸ hin old hold hs
  have hbuilt : ∀ j, j ≠ i → ∀ m, (held j).building = some m →
      m ∈ s.tables ∧ (s.withRegistry r).Inactive m := by
    intro j hj m hm
    obtain ⟨hmem, hin, _⟩ := (hinv.job j).building m hm
    refine ⟨hmem, hstays m ?_ hin⟩
    rintro rfl
    exact hj (hinv.building_alone j i m hm hn)
  apply hinv.update
  · refine ⟨?_, ?_, ?_, ?_⟩
    · intro row hrow ha
      obtain rfl | ⟨_, old, hold, _, hs, ht⟩ := hactive row hrow ha
      · exact hmem
      · exact ht ▸ hinv.order.active_exists old hold hs
    · intro row hrow ha row' hrow' hb
      obtain ⟨old', hold', hc', ht', _, hbuild⟩ := Registry.mem_flip hr hrow'
      obtain ⟨hs', hother⟩ := hbuild hb
      obtain rfl | ⟨_, old, hold, _, hs, ht⟩ := hactive row hrow ha
      · by_cases hc : row'.coord = s.coordinate
        · exact hother hc
        · rw [← ht', hgen]
          exact (hinv.order.foreign old' hold' (hc' ▸ hc)).1 g
      · rw [← ht, ← ht']
        exact hinv.order.active_unshared old hold hs old' hold' hs'
    · intro row hrow hb
      obtain ⟨old, hold, _, ht, _, hbuild⟩ := Registry.mem_flip hr hrow
      exact ht ▸ hinv.order.building_later old hold (hbuild hb).1
    · intro row hrow hne
      obtain ⟨old, hold, hc, ht, _⟩ := Registry.mem_flip hr hrow
      obtain ⟨hgens, hnames⟩ := hinv.order.foreign old hold (hc ▸ hne)
      refine ⟨fun g => ht ▸ hgens g, fun row' hrow' hc' => ?_⟩
      obtain ⟨old', hold', hcold, ht', _⟩ := Registry.mem_flip hr hrow'
      exact ht ▸ ht' ▸ hnames old' hold' (hcold.trans hc')
  · refine ⟨(hinv.job i).locked, nofun, (hinv.job i).opened, by simp [hsw], ?_, by simp [hd]⟩
    rintro a (ha | ha)
    · have hrow := Registry.activeName_eq_some ha
      have hne : ∀ j, (held j).building ≠ some a :=
        fun j hj => ((hinv.job j).building a hj).2.1 _ hrow rfl rfl
      refine ⟨hp, hinv.order.active_exists _ hrow rfl, ?_, unbuilt_update hne nofun⟩
      intro row hrow' hact
      obtain rfl | ⟨hc, old, hold, hco, _, ht⟩ := hactive row hrow' hact
      · exact fun heq => hin _ hrow rfl heq.symm
      · rw [← ht]
        exact ((hinv.order.foreign old hold (hco ▸ hc)).2 _ hrow rfl).symm
    · rw [show (held i).doomed = [] from hd] at ha
      cases ha
  · intro j hj
    exact (hinv.job j).idle (hinv.idle_others hp hj) rfl (hbuilt j hj)
  · exact fun _ j hj => hinv.idle_others hp hj
  · nofun

end Steps

/-- The commands that say nothing about what a job holds. -/
def Cmd.Plain : Cmd → Prop
  | .acquire | .release | .setEmbeddingModel _ _ | .lanceTableNamesForCoordinate _
  | .buildingLanceTableNames _ | .register _ _ _ | .flipActiveTxn _ _ | .demoteActiveToStale _
  | .tableNames | .openTable _ | .createEmptyTable _ | .dropTable _ => False
  | _ => True

/-- They keep the lock, the coordinate and every table, and register nothing. -/
theorem Cmd.run_plain {c : Cmd} (hc : c.Plain) {a : c.Reply} (h : c.run s = .ok (a, s')) :
    s'.ingestLock = s.ingestLock ∧ s'.coordinate = s.coordinate ∧
      (∀ n ∈ s.tables, n ∈ s'.tables) ∧ ∀ row ∈ s'.registry.rows, row ∈ s.registry.rows := by
  cases c with
  | acquire | release | setEmbeddingModel | lanceTableNamesForCoordinate
  | buildingLanceTableNames | register | flipActiveTxn | demoteActiveToStale | tableNames
  | openTable | createEmptyTable | dropTable => cases hc
  | addRows | deleteRows =>
    simp only [Cmd.run] at h
    split at h
    · cases h
      exact ⟨rfl, rfl, fun n hn => (AList.mem_insert _).mpr (.inr hn), fun _ => id⟩
    · cases h
  | deleteBuildingRows | deleteRowByTable | deleteUnfinishedRows =>
    cases h
    exact ⟨rfl, rfl, fun _ => id, fun row hrow => (List.mem_filter.mp hrow).1⟩
  | _ =>
    simp only [Cmd.run] at h
    try split at h
    all_goals cases h
    all_goals exact ⟨rfl, rfl, fun _ => id, fun _ => id⟩

theorem Held.done_plain {c : Cmd} (hc : c.Plain) (h : Held) (a : c.Reply) : h.done c a = h := by
  cases c with
  | acquire | release | setEmbeddingModel | lanceTableNamesForCoordinate
  | buildingLanceTableNames | register | flipActiveTxn | demoteActiveToStale | tableNames
  | openTable | createEmptyTable | dropTable => cases hc
  | _ => rfl

theorem SweepInv.plain (hinv : SweepInv reembeds held s) {c : Cmd} {a : c.Reply}
    (h : c.run s = .ok (a, s')) (hc : c.Plain) :
    SweepInv reembeds (Function.update held i ((held i).done c a)) s' := by
  obtain ⟨hl, hco, ht, hr⟩ := Cmd.run_plain hc h
  rw [Held.done_plain hc]
  exact hinv.mono (Held.le_refl _) hl hco ht hr

/-- What a job may do keeps the invariant, under the guard at a sweep's snapshot. -/
theorem SweepInv.done (hinv : SweepInv reembeds held s) {c : Cmd} {a : c.Reply}
    (hb : Cmd.blocked s c = false) (hallow : sweepAllows s.coordinate (reembeds i) c (held i))
    (hg : c = .tableNames → (held i).swept.Nodup ∧
      ∀ n ∈ (held i).swept, ∀ j, reembeds j → (held j).building ≠ some n)
    (h : c.run s = .ok (a, s')) :
    SweepInv reembeds (Function.update held i ((held i).done c a)) s' := by
  cases c with
  | acquire =>
    cases h
    exact hinv.acquire hb
  | release =>
    cases h
    exact hinv.release hallow
  | setEmbeddingModel | demoteActiveToStale => cases hallow
  | lanceTableNamesForCoordinate c =>
    cases h
    exact hinv.mono ⟨rfl, fun _ => id, fun _ => id, fun _ => id, fun _ => id, List.Sublist.refl _⟩
      rfl rfl (fun _ => id) fun _ => id
  | buildingLanceTableNames c =>
    cases h
    exact hinv.list hallow c
  | register c n status =>
    cases h
    cases status with
    | active =>
      obtain ⟨rfl, rfl, ho, hsw, hst, hd⟩ := hallow
      exact hinv.registerActive ho hsw hst hd
    | building =>
      obtain ⟨rfl, hn⟩ := hallow
      exact hinv.registerBuilding hn
    | stale => cases hallow
  | flipActiveTxn c n =>
    obtain ⟨rfl, hp, hn, hsw, hd⟩ := hallow
    simp only [Cmd.run] at h
    cases hr : s.registry.flip s.coordinate n with
    | error e =>
      rw [hr] at h
      cases h
    | ok r =>
      rw [hr] at h
      cases h
      exact hinv.flip hp hn hsw hd hr
  | tableNames =>
    cases h
    exact hinv.snapshot hallow (hg rfl)
  | openTable n =>
    simp only [Cmd.run] at h
    split at h
    · rename_i hn
      cases h
      exact hinv.open hn
    · cases h
  | createEmptyTable n =>
    simp only [Cmd.run] at h
    split at h
    · cases h
    · rename_i hn
      cases h
      by_cases hcr : (held i).creating = true
      · obtain ⟨hgen, hp⟩ := hallow.2 hcr
        simpa only [Held.done, if_pos hcr] using hinv.createBuilding hn hgen hp
      · simpa only [Held.done, if_neg hcr] using hinv.create []
  | dropTable n =>
    simp only [Cmd.run] at h
    split at h
    · cases h
      exact hinv.drop hallow.1 hallow.2
    · cases h
  | _ => exact hinv.plain h trivial

/-- A failed command ends the building table. -/
theorem SweepInv.failed (hinv : SweepInv reembeds held s) :
    SweepInv reembeds (Function.update held i { held i with building := none }) s :=
  hinv.mono ⟨rfl, nofun, fun _ => id, fun _ => id, fun _ => id, List.Sublist.refl _⟩ rfl rfl
    (fun _ => id) fun _ => id

end Invariant

end LensLM
