import Mathlib.Algebra.GroupWithZero.Nat
import Mathlib.Data.List.Chain

/-!
# Greedy batches

Items with a cost are put into batches in their order. A batch is closed when the next item would
take it over the budget, so that the first item behind a batch never fits into it.
-/

namespace Batches

set_option autoImplicit false

variable {α : Type} {cost : α → Nat} {budget : Nat} {items current : List α}
  {closed batches : List (List α)} {x : α}

/-- The cost of a batch, and of a list of items before it is one. -/
def total (cost : α → Nat) (batch : List α) : Nat := (batch.map cost).sum

@[simp] theorem total_nil : total cost [] = 0 := rfl

@[simp] theorem total_singleton : total cost [x] = cost x := by simp [total]

@[simp] theorem total_concat : total cost (current ++ [x]) = total cost current + cost x := by
  simp [total]

/-- The first item of the next batch does not fit into a batch. -/
def Full (cost : α → Nat) (budget : Nat) (batch next : List α) : Prop :=
  ∀ x ∈ next.head?, budget < total cost batch + cost x

structure Greedy (cost : α → Nat) (budget : Nat) (items : List α) (batches : List (List α)) :
    Prop where
  flatten : batches.flatten = items
  nonempty : [] ∉ batches
  within : ∀ batch ∈ batches, total cost batch ≤ budget ∨ ∃ x, batch = [x]
  full : batches.IsChain (Full cost budget)

theorem Greedy.nil : Greedy cost budget [] [] where
  flatten := rfl
  nonempty := List.not_mem_nil
  within _ h := absurd h List.not_mem_nil
  full := .nil

theorem Greedy.start : Greedy cost budget [x] [[x]] where
  flatten := rfl
  nonempty := by simp
  within batch h := .inr ⟨x, List.mem_singleton.mp h⟩
  full := .singleton [x]

/-- The next item goes into the last batch. -/
theorem Greedy.extend (h : Greedy cost budget items (closed ++ [current]))
    (hfits : total cost current + cost x ≤ budget) :
    Greedy cost budget (items ++ [x]) (closed ++ [current ++ [x]]) where
  flatten := by
    have hflatten := h.flatten
    rw [List.flatten_concat] at hflatten
    rw [List.flatten_concat, ← List.append_assoc, hflatten]
  nonempty := by
    intro hmem
    rcases List.mem_append.mp hmem with hmem | hmem
    · exact h.nonempty (List.mem_append_left _ hmem)
    · simp at hmem
  within := by
    intro batch hbatch
    rcases List.mem_append.mp hbatch with hmem | hmem
    · exact h.within batch (List.mem_append_left _ hmem)
    · obtain rfl := List.mem_singleton.mp hmem
      rw [total_concat]
      exact .inl hfits
  full := by
    obtain ⟨hclosed, -, hlast⟩ := List.isChain_append.mp h.full
    refine List.isChain_append.mpr ⟨hclosed, .singleton _, ?_⟩
    intro batch hbatch next hnext
    obtain rfl := Option.some.inj hnext
    -- the batch keeps its first item
    have hcurrent : current ≠ [] := by
      rintro rfl
      exact h.nonempty (List.mem_append_right _ List.mem_cons_self)
    unfold Full
    rw [List.head?_append_of_ne_nil _ hcurrent]
    exact hlast batch hbatch current rfl

/-- The next item is over the budget and opens a batch. -/
theorem Greedy.close (h : Greedy cost budget items (closed ++ [current]))
    (hover : budget < total cost current + cost x) :
    Greedy cost budget (items ++ [x]) (closed ++ [current] ++ [[x]]) where
  flatten := by rw [List.flatten_concat, h.flatten]
  nonempty := by
    intro hmem
    rcases List.mem_append.mp hmem with hmem | hmem
    · exact h.nonempty hmem
    · simp at hmem
  within := by
    intro batch hbatch
    rcases List.mem_append.mp hbatch with hmem | hmem
    · exact h.within batch hmem
    · exact .inr ⟨x, List.mem_singleton.mp hmem⟩
  full := by
    refine List.isChain_append.mpr ⟨h.full, .singleton _, ?_⟩
    intro batch hbatch next hnext y hy
    obtain rfl := Option.some.inj hnext
    obtain rfl := Option.some.inj hy
    rw [List.getLast?_concat] at hbatch
    obtain rfl := Option.some.inj hbatch
    exact hover

end Batches
