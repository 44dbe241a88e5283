import Mathlib.Data.List.Sort
import Mathlib.Order.Basic

/-!
# Ranked lists and their first entries

A list is ranked by a key and cut to its first entries. The first entries of a list are found
among those of its parts.
-/

namespace Ranking

set_option autoImplicit false

section Prefixes

variable {α : Type*}

/-- An entry of the prefix stays in the prefix of every part that it belongs to. -/
theorem mem_take_filter {l : List α} {k : Nat} {p : α → Bool} {x : α} (hx : x ∈ l.take k)
    (hp : p x = true) : x ∈ (l.filter p).take k := by
  have hmem : x ∈ (l.take k).filter p := List.mem_filter.mpr ⟨hx, hp⟩
  have hlen : ((l.take k).filter p).length ≤ k :=
    le_trans (List.length_filter_le _ _) (List.length_take_le _ _)
  have hsplit : l.filter p = (l.take k).filter p ++ (l.drop k).filter p := by
    rw [← List.filter_append, List.take_append_drop]
  rw [hsplit, List.take_append, List.take_of_length_le hlen]
  exact List.mem_append_left _ hmem

/-- A part that holds the whole prefix has the same prefix. -/
theorem take_filter_of_forall {l : List α} {k : Nat} {p : α → Bool}
    (h : ∀ x ∈ l.take k, p x = true) : (l.filter p).take k = l.take k := by
  have hsplit : l.filter p = l.take k ++ (l.drop k).filter p := by
    rw [← List.filter_eq_self.mpr h, ← List.filter_append, List.take_append_drop]
  by_cases hk : k ≤ l.length
  · rw [hsplit]
    exact List.take_left' (List.length_take_of_le hk)
  · have hdrop : l.drop k = [] := List.drop_eq_nil_of_le (by omega)
    rw [hsplit, hdrop, List.filter_nil, List.append_nil, List.take_take, min_self]

/-- What comes before an entry of the prefix comes before it in the prefix. -/
theorem idxOf_take_lt [DecidableEq α] {l : List α} {k : Nat} {a b : α} (hb : b ∈ l.take k)
    (h : l.idxOf a < l.idxOf b) : (l.take k).idxOf a < (l.take k).idxOf b := by
  have hbl : l.idxOf b = (l.take k).idxOf b := by
    conv_lhs => rw [← List.take_append_drop k l]
    exact List.idxOf_append_of_mem hb
  have hlen := List.idxOf_lt_length_of_mem hb
  by_cases ha : a ∈ l.take k
  · have hal : l.idxOf a = (l.take k).idxOf a := by
      conv_lhs => rw [← List.take_append_drop k l]
      exact List.idxOf_append_of_mem ha
    rwa [hal, hbl] at h
  · have hal : l.idxOf a = (l.take k).length + (l.drop k).idxOf a := by
      conv_lhs => rw [← List.take_append_drop k l]
      exact List.idxOf_append_of_notMem ha
    omega

end Prefixes

section Sorting

variable {α δ : Type*} [LinearOrder δ] (f : α → δ)

/-- A stable sort by a key, smallest first. -/
def sortByKey (l : List α) : List α := l.insertionSort fun a b => f a ≤ f b

theorem sortByKey_perm (l : List α) : (sortByKey f l).Perm l :=
  List.perm_insertionSort _ l

@[simp] theorem mem_sortByKey {l : List α} {x : α} : x ∈ sortByKey f l ↔ x ∈ l :=
  List.mem_insertionSort _

theorem pairwise_sortByKey (l : List α) : (sortByKey f l).Pairwise fun a b => f a ≤ f b := by
  have htotal : Std.Total fun a b : α => f a ≤ f b := ⟨fun a b => le_total (f a) (f b)⟩
  have htrans : IsTrans α fun a b => f a ≤ f b := ⟨fun _ _ _ => le_trans⟩
  exact List.pairwise_insertionSort _ l

/-- Entries with one key stay in order. -/
theorem sortByKey_class (l : List α) (k : δ) :
    (sortByKey f l).filter (fun x => f x = k) = l.filter fun x => f x = k := by
  have htotal : Std.Total fun a b : α => f a ≤ f b := ⟨fun a b => le_total (f a) (f b)⟩
  have htrans : IsTrans α fun a b => f a ≤ f b := ⟨fun _ _ _ => le_trans⟩
  have hsame : (l.filter fun x => f x = k).Pairwise fun a b => f a ≤ f b := by
    apply List.pairwise_of_forall_mem_list
    intro a ha b hb
    have hak : f a = k := by simpa using (List.mem_filter.mp ha).2
    have hbk : f b = k := by simpa using (List.mem_filter.mp hb).2
    exact le_of_eq (hak.trans hbk.symm)
  have hsub := (List.sublist_insertionSort hsame List.filter_sublist).filter fun x => f x = k
  rw [List.filter_filter] at hsub
  simp only [Bool.and_self] at hsub
  exact (hsub.eq_of_length ((sortByKey_perm f l).filter _).length_eq.symm).symm

theorem pairwise_class {R : α → α → Prop} {l : List α}
    (h : l.Pairwise fun a b => f a = f b → R a b) :
    (sortByKey f l).Pairwise fun a b => f a = f b → R a b := by
  apply List.pairwise_iff_forall_sublist.mpr
  intro a b hab heq
  have hclass := hab.filter fun x => f x = f b
  rw [sortByKey_class, List.filter_cons_of_pos (by simpa using heq),
    List.filter_cons_of_pos (by simp)] at hclass
  exact List.pairwise_iff_forall_sublist.mp h (hclass.trans List.filter_sublist) heq

variable {f}

theorem strict_of_nodup {l : List α} (h : l.Pairwise fun a b => f a ≤ f b)
    (hnodup : (l.map f).Nodup) : l.Pairwise fun a b => f a < f b := by
  have hne : l.Pairwise fun a b => f a ≠ f b := List.pairwise_map.mp hnodup
  exact h.imp₂ (fun _ _ hle hne => lt_of_le_of_ne hle hne) hne

theorem sortByKey_strict {l : List α} (h : (l.map f).Nodup) :
    (sortByKey f l).Pairwise fun a b => f a < f b :=
  strict_of_nodup (pairwise_sortByKey f l) (((sortByKey_perm f l).map f).nodup_iff.mpr h)

/-- A strictly ranked list is determined by its members. -/
theorem eq_of_strict {l m : List α} (hl : l.Pairwise fun a b => f a < f b)
    (hm : m.Pairwise fun a b => f a < f b) (h : ∀ a, a ∈ l ↔ a ∈ m) : l = m := by
  have hanti : Std.Antisymm fun a b : α => f a < f b :=
    ⟨fun _ _ hab hba => absurd hba (lt_asymm hab)⟩
  have hirrefl : Std.Irrefl fun a b : α => f a < f b := ⟨fun _ => lt_irrefl _⟩
  exact hl.eq_of_mem_iff hm h

theorem sortByKey_filter {l : List α} (h : (l.map f).Nodup) (p : α → Bool) :
    sortByKey f (l.filter p) = (sortByKey f l).filter p := by
  have hsub : ((l.filter p).map f).Nodup := h.sublist (List.filter_sublist.map f)
  apply eq_of_strict (sortByKey_strict hsub) ((sortByKey_strict h).filter p)
  intro a
  simp

/-- A ranked list is left as it is. -/
theorem sortByKey_of_perm_strict {l m : List α} (hm : m.Pairwise fun a b => f a < f b)
    (h : l.Perm m) : sortByKey f l = m := by
  have hnodup : (l.map f).Nodup := by
    rw [(h.map f).nodup_iff]
    exact List.pairwise_map.mpr (hm.imp fun hlt => ne_of_lt hlt)
  apply eq_of_strict (sortByKey_strict hnodup) hm
  intro a
  rw [mem_sortByKey, h.mem_iff]

/-- Entries of distinct keys are ranked alike, whatever their order. -/
theorem sortByKey_eq_of_perm {l m : List α} (h : l.Perm m) (hnodup : (l.map f).Nodup) :
    sortByKey f l = sortByKey f m := by
  have hm : (m.map f).Nodup := (h.map f).nodup_iff.mp hnodup
  exact sortByKey_of_perm_strict (sortByKey_strict hm) (h.trans (sortByKey_perm f m).symm)

end Sorting

section Batches

variable {α : Type*}

/-- Consecutive parts of at most `n + 1` entries. -/
def batches (n : Nat) (l : List α) : List (List α) :=
  if h : l = [] then [] else l.take (n + 1) :: batches n (l.drop (n + 1))
termination_by l.length
decreasing_by
  have hpos := List.length_pos_iff.mpr h
  rw [List.length_drop]
  omega

theorem flatten_batches (n : Nat) (l : List α) : (batches n l).flatten = l := by
  fun_induction batches n l with
  | case1 => rfl
  | case2 l _ ih => rw [List.flatten_cons, ih, List.take_append_drop]

theorem ne_nil_of_mem_batches {n : Nat} {l b : List α} (h : b ∈ batches n l) : b ≠ [] := by
  fun_induction batches n l with
  | case1 => cases h
  | case2 l hl ih =>
    cases List.mem_cons.mp h with
    | inl h =>
      rw [h]
      simpa using hl
    | inr h => exact ih h

theorem mem_iff_mem_batch {n : Nat} {l : List α} {x : α} :
    x ∈ l ↔ ∃ b ∈ batches n l, x ∈ b := by
  rw [← List.mem_flatten, flatten_batches]

end Batches

end Ranking
