import Mathlib.Data.List.DropRight

/-!
# Maximal runs

A maximal run of the elements of a list with a property is bounded by an element without it, or by
the end of the list, on either side.
-/

namespace Runs

set_option autoImplicit false

variable {α : Type} {p : α → Bool} {l before run after blank : List α} {x : α}

/-- `run` is a maximal run of the elements of `l` with `p`, between `before` and `after`. -/
structure IsRun (p : α → Bool) (l before run after : List α) : Prop where
  split : l = before ++ (run ++ after)
  ne_nil : run ≠ []
  holds : ∀ x ∈ run, p x = true
  left : ∀ x ∈ before.getLast?, p x = false
  right : ∀ x ∈ after.head?, p x = false

/-- Every element with `p` is in a run. -/
theorem exists_isRun {l₁ l₂ : List α} (h : l = l₁ ++ x :: l₂) (hx : p x = true) :
    ∃ before run after r₁ r₂, IsRun p l before run after ∧ run = r₁ ++ x :: r₂ ∧
      l₁ = before ++ r₁ := by
  refine ⟨l₁.rdropWhile p, l₁.rtakeWhile p ++ x :: l₂.takeWhile p, l₂.dropWhile p,
    l₁.rtakeWhile p, l₂.takeWhile p, ⟨?_, by simp, ?_, ?_, ?_⟩, rfl,
    List.rdropWhile_append_rtakeWhile.symm⟩
  · rw [List.append_assoc, ← List.append_assoc, List.rdropWhile_append_rtakeWhile,
      List.cons_append, List.takeWhile_append_dropWhile, h]
  · intro y hy
    rcases List.mem_append.mp hy with hy | hy
    · exact List.mem_rtakeWhile_imp hy
    · rcases List.mem_cons.mp hy with rfl | hy
      · exact hx
      · exact List.mem_takeWhile_imp hy
  · intro y hy
    obtain ⟨hne, rfl⟩ := List.mem_getLast?_eq_getLast hy
    exact Bool.eq_false_iff.mpr (List.rdropWhile_last_not p l₁ hne)
  · intro y hy
    have hhead := List.head?_dropWhile_not p l₂
    rw [Option.mem_def.mp hy] at hhead
    simpa using hhead

theorem not_isRun_nil : ¬ IsRun p [] before run after := by
  intro h
  have hnil := h.split.symm
  simp only [List.append_eq_nil_iff] at hnil
  exact h.ne_nil hnil.2.1

theorem isRun_cons_iff (hx : p x = false) : IsRun p (x :: l) before run after ↔
    ∃ more, before = x :: more ∧ IsRun p l more run after := by
  constructor
  · intro h
    cases before with
    | nil =>
      exfalso
      cases run with
      | nil => exact h.ne_nil rfl
      | cons y run =>
        obtain ⟨rfl, -⟩ := List.cons.inj h.split
        rw [h.holds x List.mem_cons_self] at hx
        cases hx
    | cons y more =>
      obtain ⟨rfl, hsplit⟩ := List.cons.inj h.split
      refine ⟨more, rfl, hsplit, h.ne_nil, h.holds, ?_, h.right⟩
      intro z hz
      apply h.left z
      rw [List.getLast?_cons, Option.mem_def.mp hz]
      rfl
  · rintro ⟨more, rfl, h⟩
    refine ⟨congrArg (x :: ·) h.split, h.ne_nil, h.holds, ?_, h.right⟩
    intro z hz
    cases hmore : more.getLast? with
    | none =>
      rw [List.getLast?_cons, hmore] at hz
      cases hz
      exact hx
    | some y =>
      rw [List.getLast?_cons, hmore] at hz
      cases hz
      exact h.left y hmore

/-- Elements without `p` in front belong to no run. -/
theorem isRun_blank_append_iff (hblank : ∀ x ∈ blank, p x = false) :
    IsRun p (blank ++ l) before run after ↔
      ∃ more, before = blank ++ more ∧ IsRun p l more run after := by
  induction blank generalizing before with
  | nil => simp
  | cons x blank ih =>
    rw [List.cons_append, isRun_cons_iff (hblank x List.mem_cons_self)]
    have htail : ∀ y ∈ blank, p y = false := fun y hy => hblank y (List.mem_cons_of_mem x hy)
    constructor
    · rintro ⟨more, rfl, h⟩
      obtain ⟨rest, rfl, hrest⟩ := (ih htail).mp h
      exact ⟨rest, rfl, hrest⟩
    · rintro ⟨rest, rfl, hrest⟩
      exact ⟨blank ++ rest, rfl, (ih htail).mpr ⟨rest, rfl, hrest⟩⟩

theorem takeWhile_run (hrun : ∀ x ∈ run, p x = true) (hafter : ∀ x ∈ after.head?, p x = false) :
    (run ++ after).takeWhile p = run := by
  rw [List.takeWhile_append_of_pos hrun]
  cases after with
  | nil => simp
  | cons x after => rw [List.takeWhile_cons_of_neg (by simp [hafter x rfl]), List.append_nil]

/-- A whole run in front is a run, and every other one is behind it. -/
theorem isRun_append_iff {first rest : List α} (hne : first ≠ [])
    (hfirst : ∀ x ∈ first, p x = true) (hrest : ∀ x ∈ rest.head?, p x = false) :
    IsRun p (first ++ rest) before run after ↔
      (before = [] ∧ run = first ∧ after = rest) ∨
        ∃ more, before = first ++ more ∧ IsRun p rest more run after := by
  constructor
  · intro h
    rcases List.append_eq_append_iff.mp h.split with ⟨m, hm, hr⟩ | ⟨m, hm, hr⟩
    · right
      refine ⟨m, hm, hr, h.ne_nil, h.holds, ?_, h.right⟩
      intro z hz
      apply h.left z
      rw [hm, List.getLast?_append, Option.mem_def.mp hz]
      rfl
    · rcases List.eq_nil_or_concat' before with rfl | ⟨front, y, rfl⟩
      · left
        have hsplit : first ++ rest = run ++ after := h.split
        have hrun : first = run := by
          rw [← takeWhile_run hfirst hrest, hsplit, takeWhile_run h.holds h.right]
        rw [hrun] at hsplit
        exact ⟨rfl, hrun.symm, (List.append_cancel_left hsplit).symm⟩
      · have hy := hfirst y (by simp [hm])
        rw [h.left y (by simp)] at hy
        cases hy
  · rintro (⟨rfl, rfl, rfl⟩ | ⟨more, rfl, h⟩)
    · exact ⟨rfl, hne, hfirst, nofun, hrest⟩
    · refine ⟨by rw [h.split, List.append_assoc], h.ne_nil, h.holds, ?_, h.right⟩
      intro z hz
      cases hmore : more.getLast? with
      | none =>
        obtain rfl := List.getLast?_eq_none_iff.mp hmore
        exfalso
        cases run with
        | nil => exact h.ne_nil rfl
        | cons y run =>
          have hy := h.holds y List.mem_cons_self
          rw [hrest y (by simp [h.split])] at hy
          cases hy
      | some y =>
        rw [List.getLast?_append, hmore] at hz
        cases hz
        exact h.left z hmore

end Runs
