import LensLM.Lib.ByteText
import Mathlib.Order.Bounds.Basic

/-!
# Nearest boundaries

An offset within a text stands in one character, so that a boundary is near on either side.
-/

namespace ByteText

set_option autoImplicit false

variable {s : Str} {i n : Nat}

theorem exists_char_at (h : i < byteLen s) :
    ∃ p c q, s = p ++ c :: q ∧ byteLen p ≤ i ∧ i < byteLen p + c.utf8Size := by
  induction s generalizing i with
  | nil => exact absurd h (Nat.not_lt_zero i)
  | cons d s ih =>
    by_cases hd : i < d.utf8Size
    · exact ⟨[], d, s, rfl, Nat.zero_le i, by simpa using hd⟩
    · rw [byteLen_cons] at h
      obtain ⟨p, c, q, rfl, hle, hlt⟩ := ih (i := i - d.utf8Size) (by omega)
      refine ⟨d :: p, c, q, rfl, ?_, ?_⟩
      · rw [byteLen_cons]
        omega
      · rw [byteLen_cons]
        omega

/-- No boundary is inside a character. -/
theorem IsBoundary.beside {p q : Str} {c : Char} (h : IsBoundary (p ++ c :: q) n) :
    n ≤ byteLen p ∨ byteLen p + c.utf8Size ≤ n := by
  obtain ⟨a, b, heq, rfl⟩ := h
  rcases List.append_eq_append_iff.mp heq with ⟨m, hm, hb⟩ | ⟨m, hm, hb⟩
  · cases m with
    | nil =>
      left
      rw [hm, List.append_nil]
    | cons d m =>
      right
      obtain ⟨rfl, -⟩ := List.cons.inj hb
      rw [hm, byteLen_append, byteLen_cons]
      omega
  · left
    rw [hm, byteLen_append]
    omega

/-- The last boundary up to an offset is less than a character before it. -/
theorem floor_gap (h : i ≤ byteLen s) (hn : IsGreatest {m | IsBoundary s m ∧ m ≤ i} n) :
    i < n + 4 := by
  rcases Nat.lt_or_eq_of_le h with hlt | rfl
  · obtain ⟨p, c, q, rfl, hle, hc⟩ := exists_char_at hlt
    have hp := hn.2 ⟨⟨p, c :: q, rfl, rfl⟩, hle⟩
    have hsize := c.utf8Size_le_four
    omega
  · have hend := hn.2 ⟨isBoundary_byteLen s, Nat.le_refl _⟩
    omega

theorem ceil_gap (h : i ≤ byteLen s) (hn : IsLeast {m | IsBoundary s m ∧ i ≤ m} n) :
    n < i + 4 := by
  rcases Nat.lt_or_eq_of_le h with hlt | rfl
  · obtain ⟨p, c, q, rfl, hle, hc⟩ := exists_char_at hlt
    have hsize := c.utf8Size_le_four
    by_cases hp : byteLen p = i
    · have hleast := hn.2 ⟨⟨p, c :: q, rfl, hp⟩, Nat.le_refl i⟩
      omega
    · have hleast := hn.2 ⟨⟨p ++ [c], q, by simp, by simp⟩, Nat.le_of_lt hc⟩
      have hpos : byteLen p < i := by omega
      omega
  · have hleast := hn.2 ⟨isBoundary_byteLen s, Nat.le_refl _⟩
    omega

end ByteText
