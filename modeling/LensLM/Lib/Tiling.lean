import LensLM.Lib.Spans

/-!
# Tilings

Ranges of which each one starts where the one before it ends.
-/

namespace Spans

set_option autoImplicit false

/-- The ranges follow each other from `start` to `stop`. -/
def Consecutive : Nat → Nat → List Span → Prop
  | start, stop, [] => start = stop
  | start, stop, s :: l => s.start = start ∧ s.start ≤ s.stop ∧ Consecutive s.stop stop l

instance : (start stop : Nat) → (l : List Span) → Decidable (Consecutive start stop l)
  | _, _, [] => inferInstanceAs (Decidable (_ = _))
  | _, stop, s :: l =>
    have := instDecidableConsecutive s.stop stop l
    inferInstanceAs (Decidable (_ ∧ _ ∧ _))

theorem Consecutive.append {a b c : Nat} {l r : List Span} (hl : Consecutive a b l) (hr : Consecutive b c r) :
    Consecutive a c (l ++ r) := by
  induction l generalizing a with
  | nil =>
    obtain rfl : a = b := hl
    exact hr
  | cons s l ih => exact ⟨hl.1, hl.2.1, ih hl.2.2⟩

theorem Consecutive.concat {a b c : Nat} {l : List Span} (hl : Consecutive a b l) (h : b ≤ c) :
    Consecutive a c (l ++ [⟨b, c⟩]) :=
  hl.append ⟨rfl, h, rfl⟩

end Spans
