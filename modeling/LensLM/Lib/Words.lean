import Mathlib.Data.List.DropRight
import Mathlib.Data.List.Infix
import Mathlib.Tactic.Cases

/-!
# Words and separators

A list is cut into words at its separators. Words that are joined by single separators are read back
as they were.
-/

namespace Words

set_option autoImplicit false

variable {α : Type*} {p : α → Bool}

def IsWord (p : α → Bool) (w : List α) : Prop := w ≠ [] ∧ ∀ c ∈ w, p c = false

/-- No separator at an end, and no two in a row. -/
structure Tidy (p : α → Bool) (s : List α) : Prop where
  head : ∀ c ∈ s.head?, p c = false
  last : ∀ c ∈ s.getLast?, p c = false
  single : ∀ x c d y, s = x ++ c :: d :: y → p c = true → p d = false

theorem mem_splitOnP {s w : List α} (h : w ∈ s.splitOnP p) {c : α} (hc : c ∈ w) :
    c ∈ s ∧ p c = false := by
  induction s generalizing w with
  | nil =>
    rw [List.splitOnP_nil, List.mem_singleton] at h
    simp [h] at hc
  | cons d s ih =>
    rw [List.splitOnP_cons_eq_if_modifyHead] at h
    split at h
    · rcases List.mem_cons.mp h with rfl | h
      · simp at hc
      · exact (ih h hc).imp_left (List.mem_cons_of_mem d)
    · next hd =>
      cases hs : s.splitOnP p with
      | nil => exact absurd hs (List.splitOnP_ne_nil _ _)
      | cons m ms =>
        rw [hs, List.modifyHead_cons] at h
        rcases List.mem_cons.mp h with rfl | h
        · rcases List.mem_cons.mp hc with rfl | hc
          · exact ⟨List.mem_cons_self, by simpa using hd⟩
          · exact (ih (by rw [hs]; exact List.mem_cons_self) hc).imp_left (List.mem_cons_of_mem d)
        · exact (ih (by rw [hs]; exact List.mem_cons_of_mem m h) hc).imp_left
            (List.mem_cons_of_mem d)

/-- A list none of whose parts is empty is tidy. -/
theorem tidy_of_splitOnP {s : List α} (h : [] ∉ s.splitOnP p) : Tidy p s := by
  have hcut : ∀ x c y, s = x ++ c :: y → p c = true → s.splitOnP p = x.splitOnP p ++ y.splitOnP p :=
    fun x c y heq hc => by rw [heq, List.splitOnP_append_cons _ _ hc]
  constructor
  · intro c hc
    apply Bool.eq_false_iff.mpr
    intro hsep
    obtain ⟨y, hy⟩ := List.head?_eq_some_iff.mp hc
    apply h
    rw [hcut [] c y hy hsep, List.splitOnP_nil]
    exact List.mem_cons_self
  · intro c hc
    apply Bool.eq_false_iff.mpr
    intro hsep
    obtain ⟨x, hx⟩ := List.getLast?_eq_some_iff.mp hc
    apply h
    rw [hcut x c [] hx hsep, List.splitOnP_nil]
    exact List.mem_append_right _ List.mem_cons_self
  · intro x c d y heq hc
    apply Bool.eq_false_iff.mpr
    intro hd
    apply h
    have hsecond : (d :: y).splitOnP p = [] :: y.splitOnP p := by
      have hempty := List.splitOnP_append_cons [] y hd
      rwa [List.nil_append, List.splitOnP_nil] at hempty
    rw [hcut x c (d :: y) heq hc, hsecond]
    exact List.mem_append_right _ List.mem_cons_self

section Joined

variable {sep : α} (hsep : p sep = true) {ws : List (List α)}
include hsep

theorem splitOnP_intercalate (hwords : ∀ w ∈ ws, IsWord p w) (hne : ws ≠ []) :
    ([sep].intercalate ws).splitOnP p = ws := by
  induction ws with
  | nil => exact absurd rfl hne
  | cons w ws ih =>
    obtain ⟨hw, hws⟩ := List.forall_mem_cons.mp hwords
    cases ws with
    | nil => rw [List.intercalate_singleton, List.splitOnP_eq_singleton hw.2]
    | cons v ws =>
      rw [List.intercalate_cons_cons, List.append_assoc, List.singleton_append,
        List.splitOnP_append_cons_of_forall_mem hw.2 sep hsep, ih hws (List.cons_ne_nil v ws)]

/-- The words of joined words. -/
theorem words_intercalate (hwords : ∀ w ∈ ws, IsWord p w) :
    (([sep].intercalate ws).splitOnP p).filter (fun w => !w.isEmpty) = ws := by
  cases ws with
  | nil => rfl
  | cons w ws =>
    rw [splitOnP_intercalate hsep hwords (List.cons_ne_nil w ws)]
    apply List.filter_eq_self.mpr
    intro v hv
    simpa using (hwords v hv).1

theorem tidy_intercalate (hwords : ∀ w ∈ ws, IsWord p w) : Tidy p ([sep].intercalate ws) := by
  cases ws with
  | nil => exact ⟨nofun, nofun, fun x c d y h => by simp at h⟩
  | cons w ws =>
    apply tidy_of_splitOnP
    rw [splitOnP_intercalate hsep hwords (List.cons_ne_nil w ws)]
    exact fun hnil => (hwords [] hnil).1 rfl

end Joined

theorem intercalate_concat (sep : List α) {ws : List (List α)} (h : ws ≠ []) (w : List α) :
    sep.intercalate (ws ++ [w]) = sep.intercalate ws ++ (sep ++ w) := by
  induction ws with
  | nil => exact absurd rfl h
  | cons v ws ih =>
    cases ws with
    | nil => rw [List.singleton_append, List.intercalate_cons_cons, List.intercalate_singleton,
        List.intercalate_singleton, List.append_assoc]
    | cons x ws =>
      have hrest := ih (List.cons_ne_nil x ws)
      rw [List.cons_append, List.cons_append, List.intercalate_cons_cons, ← List.cons_append, hrest,
        List.intercalate_cons_cons, List.append_assoc, List.append_assoc, List.append_assoc]

section Endings

variable {q : α → Bool} {u : List α}

/-- Only the last part loses its end, unless nothing is left of it. -/
theorem rdropWhile_append_of_ne_nil (s : List α) (h : u.rdropWhile q ≠ []) :
    (s ++ u).rdropWhile q = s ++ u.rdropWhile q := by
  unfold List.rdropWhile at h ⊢
  rw [List.reverse_append, List.dropWhile_append, if_neg (by simpa using h), List.reverse_append,
    List.reverse_reverse]

theorem rdropWhile_append_of_eq_nil (s : List α) (h : u.rdropWhile q = []) :
    (s ++ u).rdropWhile q = s.rdropWhile q := by
  unfold List.rdropWhile at h ⊢
  rw [List.reverse_append, List.dropWhile_append, if_pos (by simpa using h)]

end Endings

end Words
