import Mathlib.Data.List.Basic
import Mathlib.Data.List.Infix

/-!
# Walks that stop at enough entries

The items of a list are visited in turn, and each may add entries to the output. Once there are
`cap` entries, no further item is visited.
-/

namespace CappedWalk

set_option autoImplicit false

/-- The output so far, and the number of items visited for it. -/
structure Walk (β : Type*) where
  out : List β
  visited : Nat

variable {α β : Type*} (entries : α → List β) (cap : Nat)

def visit (w : Walk β) (a : α) : Walk β := ⟨w.out ++ entries a, w.visited + 1⟩

def visitAll (w : Walk β) (l : List α) : Walk β :=
  l.foldl (fun w a => if cap ≤ w.out.length then w else visit entries w a) w

def start : Walk β := ⟨[], 0⟩

theorem visitAll_nil (w : Walk β) : visitAll entries cap w [] = w := rfl

theorem visitAll_append (w : Walk β) (l r : List α) :
    visitAll entries cap w (l ++ r) = visitAll entries cap (visitAll entries cap w l) r :=
  List.foldl_append

variable {cap}

theorem visitAll_full {w : Walk β} (h : cap ≤ w.out.length) (l : List α) :
    visitAll entries cap w l = w := by
  induction l with
  | nil => rfl
  | cons a l ih =>
    unfold visitAll at ih ⊢
    rw [List.foldl_cons, if_pos h]
    exact ih

theorem visitAll_cons {w : Walk β} (h : ¬cap ≤ w.out.length) (a : α) (l : List α) :
    visitAll entries cap w (a :: l) = visitAll entries cap (visit entries w a) l := by
  unfold visitAll
  rw [List.foldl_cons, if_neg h]

theorem length_entries_mono {q l : List α} (h : q <+: l) :
    (q.flatMap entries).length ≤ (l.flatMap entries).length := by
  obtain ⟨r, rfl⟩ := h
  rw [List.flatMap_append, List.length_append]
  omega

/-- The items that are visited: all, or the first ones with enough entries. -/
theorem visitAll_start (cap : Nat) (l : List α) : ∃ q, q <+: l ∧
    visitAll entries cap start l = ⟨q.flatMap entries, q.length⟩ ∧
    (q = l ∨ cap ≤ (q.flatMap entries).length) ∧
    ∀ s, s <+: q → s ≠ q → (s.flatMap entries).length < cap := by
  induction l using List.reverseRecOn with
  | nil =>
    refine ⟨[], List.prefix_refl _, rfl, .inl rfl, ?_⟩
    intro s hs hne
    exact absurd (List.prefix_nil.mp hs) hne
  | append_singleton l a ih =>
    obtain ⟨q, hq, hwalk, hall, hless⟩ := ih
    rw [visitAll_append, hwalk]
    by_cases hfull : cap ≤ (q.flatMap entries).length
    · refine ⟨q, hq.trans (List.prefix_append _ _), ?_, .inr hfull, hless⟩
      exact visitAll_full entries hfull [a]
    · have hql : q = l := hall.resolve_right hfull
      subst hql
      refine ⟨q ++ [a], List.prefix_refl _, ?_, .inl rfl, ?_⟩
      · rw [visitAll_cons entries hfull, visitAll_nil]
        unfold visit
        rw [List.flatMap_append, List.flatMap_singleton, List.length_append, List.length_singleton]
      · intro s hs hne
        have hsq : s <+: q := (List.prefix_concat_iff.mp hs).resolve_left hne
        exact lt_of_le_of_lt (length_entries_mono entries hsq) (not_le.mp hfull)

theorem visited_le_iff (cap bound : Nat) (l : List α) :
    (visitAll entries cap start l).visited ≤ bound ↔
      l.length ≤ bound ∨ cap ≤ ((l.take bound).flatMap entries).length := by
  obtain ⟨q, hq, hwalk, hall, hless⟩ := visitAll_start entries cap l
  rw [hwalk]
  constructor
  · intro h
    rcases hall with rfl | hfull
    · exact .inl h
    · right
      have htake : q <+: l.take bound := List.prefix_take_iff.mpr ⟨hq, h⟩
      exact le_trans hfull (length_entries_mono entries htake)
  · intro h
    by_contra hmany
    have hlong : bound < q.length := not_le.mp hmany
    have hlen : q.length ≤ l.length := hq.length_le
    rcases h with hl | hfull
    · omega
    · have htake : l.take bound = q.take bound := by
        obtain ⟨r, rfl⟩ := hq
        exact List.take_append_of_le_length (le_of_lt hlong)
      have hne : q.take bound ≠ q := by
        intro heq
        have := congrArg List.length heq
        rw [List.length_take] at this
        omega
      have hfirst := List.take_prefix bound q
      rw [htake] at hfull
      exact absurd hfull (not_le.mpr (hless _ hfirst hne))

/-- An item with at most one entry does not go past the cap. -/
theorem length_out_le (cap : Nat) {l : List α} (hone : ∀ a ∈ l, (entries a).length ≤ 1) :
    (visitAll entries cap start l).out.length ≤ cap := by
  obtain ⟨q, hq, hwalk, hall, hless⟩ := visitAll_start entries cap l
  rw [hwalk]
  cases q using List.reverseRecOn with
  | nil => exact Nat.zero_le _
  | append_singleton s a =>
    have hs : (s.flatMap entries).length < cap :=
      hless s (List.prefix_append _ _) (by simp)
    have ha : (entries a).length ≤ 1 := hone a (hq.subset (by simp))
    simp only [List.flatMap_append, List.flatMap_singleton, List.length_append]
    omega

theorem mem_out {cap : Nat} {l : List α} {e : β} (h : e ∈ (visitAll entries cap start l).out) :
    ∃ a ∈ l, e ∈ entries a := by
  obtain ⟨q, hq, hwalk, -, -⟩ := visitAll_start entries cap l
  rw [hwalk] at h
  obtain ⟨a, ha, he⟩ := List.mem_flatMap.mp h
  exact ⟨a, hq.subset ha, he⟩

end CappedWalk
