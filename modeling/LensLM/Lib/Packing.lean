import LensLM.Lib.Spans

/-!
# Packing into few spans

Spans that tile an interval. Where whatever lies within a fitting span fits as well, a tiling whose
spans cannot be extended by one place has the fewest spans.
-/

namespace Packing

open Spans

set_option autoImplicit false

/-- Consecutive non-empty spans from one position to another. -/
inductive Tiles : Nat → Nat → List Span → Prop
  | nil (a : Nat) : Tiles a a []
  | cons {a b c : Nat} {l : List Span} : a < b → Tiles b c l → Tiles a c (⟨a, b⟩ :: l)

/-- A tiling by fitting spans, each extended as far as it fits. -/
inductive Eager (fits : Span → Prop) : Nat → Nat → List Span → Prop
  | nil (a : Nat) : Eager fits a a []
  | last {a c : Nat} : a < c → fits ⟨a, c⟩ → Eager fits a c [⟨a, c⟩]
  | cons {a b c : Nat} {l : List Span} : a < b → fits ⟨a, b⟩ → ¬ fits ⟨a, b + 1⟩ →
      Eager fits b c l → Eager fits a c (⟨a, b⟩ :: l)

variable {fits : Span → Prop} {a b c : Nat} {l : List Span}

theorem Tiles.le (h : Tiles a c l) : a ≤ c := by
  induction h with
  | nil a => exact Nat.le_refl a
  | cons hab _ ih => omega

theorem Tiles.stop_le (h : Tiles a c l) {s : Span} (hs : s ∈ l) : s.stop ≤ c := by
  induction h with
  | nil a => simp at hs
  | cons hab htail ih =>
    rcases List.mem_cons.mp hs with rfl | hs
    · exact htail.le
    · exact ih hs

theorem Tiles.of_append {r : List Span} (h : Tiles a c (l ++ r)) : ∃ b, Tiles a b l ∧ Tiles b c r := by
  induction l generalizing a with
  | nil => exact ⟨a, .nil a, h⟩
  | cons s l ih =>
    cases h with
    | cons hlt htail =>
      obtain ⟨b, hl, hr⟩ := ih htail
      exact ⟨b, .cons hlt hl, hr⟩

theorem Eager.tiles (h : Eager fits a c l) : Tiles a c l := by
  induction h with
  | nil a => exact .nil a
  | last hac _ => exact .cons hac (.nil _)
  | cons hab _ _ _ ih => exact .cons hab ih

theorem Eager.fits_of_mem (h : Eager fits a c l) : ∀ s ∈ l, fits s := by
  induction h with
  | nil a => simp
  | last _ hfit => simpa using hfit
  | cons _ hfit _ _ ih => simpa using ⟨hfit, ih⟩

/-- A tiling that begins no later ends no earlier with as many spans. -/
theorem Eager.length_le (hmono : ∀ s t : Span, s.Within t → fits t → fits s)
    (h : Eager fits a c l) {a' : Nat} {m : List Span} (hle : a' ≤ a) (hm : Tiles a' c m)
    (hfits : ∀ s ∈ m, fits s) : l.length ≤ m.length := by
  induction h generalizing a' m with
  | nil a => simp
  | last hac _ =>
    cases hm with
    | nil => omega
    | cons _ _ => simp
  | @cons a b c l hab _ hfull htail ih =>
    have hbc : b ≤ c := htail.tiles.le
    cases hm with
    | nil => omega
    | @cons _ b' _ m' hab' hm' =>
      -- the first span of the other tiling ends no later, or it would contain the extended one
      have hb : b' ≤ b := by
        by_contra hlt
        apply hfull
        exact hmono _ ⟨a', b'⟩ ⟨hle, by simp; omega⟩ (hfits _ (by simp))
      have hlen := ih hb hm' fun s hs => hfits s (List.mem_cons_of_mem _ hs)
      simpa using hlen

section Part

variable {α : Type} {xs : List α}

/-- The elements of a list at the places of a span. -/
def part (xs : List α) (s : Span) : List α := (xs.drop s.start).take (s.stop - s.start)

theorem part_split (hab : a ≤ b) (hbc : b ≤ c) :
    part xs ⟨a, c⟩ = part xs ⟨a, b⟩ ++ part xs ⟨b, c⟩ := by
  have hlen : c - a = (b - a) + (c - b) := by omega
  have hdrop : xs.drop b = (xs.drop a).drop (b - a) := by
    rw [List.drop_drop]
    congr 1
    omega
  simp only [part]
  rw [hlen, List.take_add, hdrop]

theorem part_of_ge (h : b ≤ a) : part xs ⟨a, b⟩ = [] := by
  have hzero : b - a = 0 := by omega
  simp [part, hzero]

theorem part_all : part xs ⟨0, xs.length⟩ = xs := by simp [part]

theorem length_part (h : b ≤ xs.length) : (part xs ⟨a, b⟩).length = b - a := by
  simp only [part, List.length_take, List.length_drop]
  omega

theorem Tiles.flatMap_part (h : Tiles a c l) : l.flatMap (part xs) = part xs ⟨a, c⟩ := by
  induction h with
  | nil a => simp [part_of_ge]
  | cons hab htail ih =>
    rw [List.flatMap_cons, ih]
    exact (part_split (Nat.le_of_lt hab) htail.le).symm

end Part

end Packing
