import Mathlib.Data.List.Basic

/-!
# Pipes of lines

What goes through a pipe is cut into lines by one symbol, and by nothing else. A reader that takes
one symbol after the other finds the lines that were written, wherever the writer had paused.
-/

namespace LinePipe

set_option autoImplicit false

variable {B : Type} {nl : B}

/-- The lines as they are written, each with its end. -/
def framed (nl : B) (lines : List (List B)) : List B := lines.flatMap (· ++ [nl])

/-- The first complete line and what comes after it. -/
def nextLine [DecidableEq B] (nl : B) : List B → Option (List B × List B)
  | [] => none
  | b :: bs => if b = nl then some ([], bs) else (nextLine nl bs).map fun r => (b :: r.1, r.2)

@[simp] theorem framed_nil : framed nl [] = [] := rfl

@[simp] theorem framed_cons (l : List B) (ls : List (List B)) :
    framed nl (l :: ls) = l ++ nl :: framed nl ls := by
  simp [framed]

theorem framed_concat (ls : List (List B)) (l : List B) :
    framed nl (ls ++ [l]) = framed nl ls ++ (l ++ [nl]) := by
  simp [framed]

theorem nextLine_line [DecidableEq B] {l : List B} (h : nl ∉ l) (r : List B) :
    nextLine nl (l ++ nl :: r) = some (l, r) := by
  induction l with
  | nil => simp [nextLine]
  | cons b l ih =>
    obtain ⟨hb, hl⟩ := not_or.mp (mt List.mem_cons.mpr h)
    rw [List.cons_append, nextLine, if_neg (Ne.symm hb), ih hl]
    rfl

theorem nextLine_open [DecidableEq B] {l : List B} (h : nl ∉ l) : nextLine nl l = none := by
  induction l with
  | nil => rfl
  | cons b l ih =>
    obtain ⟨hb, hl⟩ := not_or.mp (mt List.mem_cons.mpr h)
    rw [nextLine, if_neg (Ne.symm hb), ih hl]
    rfl

/-- The next symbol of a line begun, when the line is `l`: it ends the line or is part of it. -/
theorem next_symbol {part l rest later : List B} {b : B} (hpart : nl ∉ part) (hl : nl ∉ l)
    (h : part ++ b :: rest = l ++ nl :: later) :
    (b = nl ∧ part = l ∧ rest = later) ∨ (b ≠ nl ∧ part ++ [b] <+: l) := by
  induction part generalizing l with
  | nil =>
    cases l with
    | nil =>
      obtain ⟨hb, hr⟩ := List.cons.inj h
      exact .inl ⟨hb, rfl, hr⟩
    | cons c l =>
      obtain ⟨hb, -⟩ := List.cons.inj h
      refine .inr ⟨?_, ?_⟩
      · intro heq
        apply hl
        rw [← heq, hb]
        exact List.mem_cons_self
      · rw [hb]
        exact ⟨l, rfl⟩
  | cons c part ih =>
    cases l with
    | nil =>
      obtain ⟨hc, -⟩ := List.cons.inj h
      rw [hc] at hpart
      exact absurd List.mem_cons_self hpart
    | cons d l =>
      obtain ⟨hcd, ht⟩ := List.cons.inj h
      have hp : nl ∉ part := fun hmem => hpart (List.mem_cons_of_mem c hmem)
      have hq : nl ∉ l := fun hmem => hl (List.mem_cons_of_mem d hmem)
      rcases ih hp hq ht with ⟨hb, heq, hr⟩ | ⟨hb, hbegin⟩
      · exact .inl ⟨hb, by rw [hcd, heq], hr⟩
      · refine .inr ⟨hb, ?_⟩
        rw [hcd]
        exact (List.prefix_cons_inj d).mpr hbegin

/-- What is read of a pipe of lines before the end of one belongs to the first of them. -/
theorem first_line {part rest : List B} {b : B} {lines : List (List B)} (hpart : nl ∉ part)
    (hlines : ∀ l ∈ lines, nl ∉ l) (h : part ++ b :: rest = framed nl lines) :
    ∃ l later, lines = l :: later ∧
      ((b = nl ∧ part = l ∧ rest = framed nl later) ∨ (b ≠ nl ∧ part ++ [b] <+: l)) := by
  cases lines with
  | nil => exact absurd h (by simp)
  | cons l later =>
    rw [framed_cons] at h
    exact ⟨l, later, rfl, next_symbol hpart (hlines l List.mem_cons_self) h⟩

end LinePipe
