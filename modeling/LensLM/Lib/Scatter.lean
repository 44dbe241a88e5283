import Mathlib.Algebra.BigOperators.Group.Finset.Piecewise
import Mathlib.Algebra.Order.BigOperators.Group.List
import Mathlib.Data.List.Basic

/-!
# Amounts deposited at places

A loop over a list adds an amount at one place after the other. What a place holds in the end is what
it held before and the amounts that were sent there.
-/

namespace Scatter

set_option autoImplicit false

variable {α ι M : Type*} [DecidableEq ι]

section Deposit

variable [AddCommMonoid M]

def deposit (held : ι → M) (place : ι) (amount : M) : ι → M :=
  Function.update held place (held place + amount)

theorem deposit_at (held : ι → M) (place : ι) (amount : M) :
    deposit held place amount place = held place + amount := by
  unfold deposit
  rw [Function.update_self]

theorem deposit_elsewhere (held : ι → M) {place i : ι} (h : i ≠ place) (amount : M) :
    deposit held place amount i = held i := by
  unfold deposit
  rw [Function.update_of_ne h]

/-- The deposits of all items of a list, one after the other. -/
def deposits (place : α → ι) (amount : α → M) (held : ι → M) (l : List α) : ι → M :=
  l.foldl (fun held a => deposit held (place a) (amount a)) held

theorem deposits_cons (place : α → ι) (amount : α → M) (held : ι → M) (a : α) (l : List α) :
    deposits place amount held (a :: l) =
      deposits place amount (deposit held (place a) (amount a)) l := rfl

theorem deposits_apply (place : α → ι) (amount : α → M) (held : ι → M) (l : List α) (i : ι) :
    deposits place amount held l i =
      held i + ((l.filter fun a => place a = i).map amount).sum := by
  induction l generalizing held with
  | nil => simp [deposits]
  | cons a l ih =>
    rw [deposits_cons, ih]
    by_cases h : place a = i
    · subst h
      rw [deposit_at, List.filter_cons_of_pos (by simp), List.map_cons, List.sum_cons, add_assoc]
    · rw [deposit_elsewhere held (Ne.symm h), List.filter_cons_of_neg (by simpa using h)]

/-- A place to which nothing is sent keeps what it holds. -/
theorem deposits_elsewhere (place : α → ι) {amount : α → M} (held : ι → M) {l : List α} {i : ι}
    (h : ∀ a ∈ l, place a = i → amount a = 0) : deposits place amount held l i = held i := by
  rw [deposits_apply, List.sum_eq_zero, add_zero]
  intro m hm
  obtain ⟨a, ha, rfl⟩ := List.mem_map.mp hm
  obtain ⟨hal, hplace⟩ := List.mem_filter.mp ha
  exact h a hal (of_decide_eq_true hplace)

variable [Fintype ι]

theorem total_deposit (held : ι → M) (place : ι) (amount : M) :
    ∑ i, deposit held place amount i = ∑ i, held i + amount := by
  unfold deposit
  rw [Finset.sum_update_of_mem (Finset.mem_univ place),
    ← Finset.add_sum_erase Finset.univ held (Finset.mem_univ place), Finset.sdiff_singleton_eq_erase]
  rw [add_assoc, add_assoc, add_comm amount]

/-- Nothing is lost on the way. -/
theorem total_deposits (place : α → ι) (amount : α → M) (held : ι → M) (l : List α) :
    ∑ i, deposits place amount held l i = ∑ i, held i + (l.map amount).sum := by
  induction l generalizing held with
  | nil => simp [deposits]
  | cons a l ih => rw [deposits_cons, ih, total_deposit, List.map_cons, List.sum_cons, add_assoc]

end Deposit

theorem deposits_nonneg [AddCommMonoid M] [PartialOrder M] [IsOrderedAddMonoid M] (place : α → ι)
    {amount : α → M} {held : ι → M} {l : List α} (hheld : ∀ i, 0 ≤ held i)
    (hl : ∀ a ∈ l, 0 ≤ amount a) (i : ι) : 0 ≤ deposits place amount held l i := by
  rw [deposits_apply]
  apply add_nonneg (hheld i)
  apply List.sum_nonneg
  intro m hm
  obtain ⟨a, ha, rfl⟩ := List.mem_map.mp hm
  exact hl a (List.mem_filter.mp ha).1

/-- One value is written at every place of a list. -/
theorem foldl_write_apply (value : M) (held : ι → M) (l : List ι) (i : ι) :
    l.foldl (fun held place => Function.update held place value) held i =
      if i ∈ l then value else held i := by
  induction l generalizing held with
  | nil => simp
  | cons place l ih =>
    rw [List.foldl_cons, ih]
    by_cases hmem : i ∈ l
    · simp [hmem]
    · by_cases h : i = place
      · subst h
        simp
      · simp [hmem, h]

end Scatter
