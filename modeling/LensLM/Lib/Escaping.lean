import Mathlib.Data.List.Basic

/-!
# Escaped fields

Fields are joined by a separator after an escape has been put before every special symbol in them.
Split where the separator stands without an escape, a line gives its fields back.
-/

namespace Escaping

set_option autoImplicit false

variable {α : Type} (esc sep : α)

/-- An escape before every special symbol. -/
def escaped (special : α → Bool) (s : List α) : List α :=
  s.flatMap fun c => if special c then [esc, c] else [c]

/-- The text without its escapes; the flag says that one has just been read. -/
def unescapeFrom [DecidableEq α] : Bool → List α → List α
  | _, [] => []
  | true, c :: s => c :: unescapeFrom false s
  | false, c :: s => if c = esc then unescapeFrom true s else c :: unescapeFrom false s

def unescape [DecidableEq α] (s : List α) : List α := unescapeFrom esc false s

/-- A text in front of the first field. -/
def prepend (p : List α) : List (List α) → List (List α)
  | [] => [p]
  | f :: fs => (p ++ f) :: fs

/-- The fields between the separators that no escape precedes. -/
def splitFrom [DecidableEq α] : Bool → List α → List (List α)
  | _, [] => [[]]
  | true, c :: s => prepend [c] (splitFrom false s)
  | false, c :: s =>
    if c = sep then [] :: splitFrom false s else prepend [c] (splitFrom (decide (c = esc)) s)

def splitBare [DecidableEq α] (s : List α) : List (List α) := splitFrom esc sep false s

/-- A text that lies within one field, wherever it stands. -/
inductive Whole : List α → Prop
  | nil : Whole []
  | plain {c : α} {s : List α} : c ≠ esc → c ≠ sep → Whole s → Whole (c :: s)
  | escaped {s : List α} (c : α) : Whole s → Whole (esc :: c :: s)

variable {esc sep}

theorem Whole.append {s t : List α} (hs : Whole esc sep s) (ht : Whole esc sep t) :
    Whole esc sep (s ++ t) := by
  induction hs with
  | nil => exact ht
  | plain hesc hsep _ ih => exact .plain hesc hsep ih
  | escaped c _ ih => exact .escaped c ih

theorem whole_escaped {special : α → Bool} (hesc : special esc = true) (hsep : special sep = true)
    (s : List α) : Whole esc sep (escaped esc special s) := by
  induction s with
  | nil => exact .nil
  | cons c s ih =>
    unfold escaped at ih ⊢
    rw [List.flatMap_cons]
    by_cases hc : special c = true
    · rw [if_pos hc]
      exact .escaped c ih
    · rw [if_neg hc]
      refine .plain ?_ ?_ ih
      · rintro rfl
        exact hc hesc
      · rintro rfl
        exact hc hsep

@[simp] theorem prepend_nil {fs : List (List α)} (h : fs ≠ []) : prepend [] fs = fs := by
  cases fs with
  | nil => exact absurd rfl h
  | cons f fs => rfl

theorem prepend_prepend (p q : List α) (fs : List (List α)) :
    prepend p (prepend q fs) = prepend (p ++ q) fs := by
  cases fs with
  | nil => rfl
  | cons f fs => simp [prepend]

theorem prepend_ne_nil (p : List α) (fs : List (List α)) : prepend p fs ≠ [] := by
  cases fs with
  | nil => exact List.cons_ne_nil _ _
  | cons f fs => exact List.cons_ne_nil _ _

variable [DecidableEq α]

theorem unescape_escaped {special : α → Bool} (hesc : special esc = true) (s : List α) :
    unescape esc (escaped esc special s) = s := by
  unfold unescape escaped
  induction s with
  | nil => rfl
  | cons c s ih =>
    rw [List.flatMap_cons]
    by_cases hc : special c = true
    · rw [if_pos hc, List.cons_append, unescapeFrom, if_pos rfl, List.singleton_append,
        unescapeFrom, ih]
    · have hne : c ≠ esc := by
        rintro rfl
        exact hc hesc
      rw [if_neg hc, List.singleton_append, unescapeFrom, if_neg hne, ih]

theorem splitBare_ne_nil (s : List α) : splitBare esc sep s ≠ [] := by
  unfold splitBare
  cases s with
  | nil => exact List.cons_ne_nil _ _
  | cons c s =>
    rw [splitFrom]
    split
    · exact List.cons_ne_nil _ _
    · exact prepend_ne_nil _ _

/-- What comes after a text within a field is split as if the text were not there. -/
theorem splitBare_append (hne : esc ≠ sep) {s : List α} (h : Whole esc sep s) (t : List α) :
    splitBare esc sep (s ++ t) = prepend s (splitBare esc sep t) := by
  unfold splitBare
  induction h with
  | nil => exact (prepend_nil (splitBare_ne_nil t)).symm
  | plain hesc hsep _ ih =>
    rw [List.cons_append, splitFrom, if_neg hsep, decide_eq_false hesc, ih, prepend_prepend]
    rfl
  | escaped c _ ih =>
    rw [List.cons_append, List.cons_append, splitFrom, if_neg hne, decide_eq_true rfl, splitFrom, ih,
      prepend_prepend, prepend_prepend]
    rfl

theorem splitBare_cons_sep (s : List α) :
    splitBare esc sep (sep :: s) = [] :: splitBare esc sep s := by
  unfold splitBare
  rw [splitFrom, if_pos rfl]

/-- Each field with a separator after it. -/
theorem splitBare_fields (hne : esc ≠ sep) {fields : List (List α)}
    (h : ∀ f ∈ fields, Whole esc sep f) :
    splitBare esc sep (fields.flatMap (· ++ [sep])) = fields ++ [[]] := by
  induction fields with
  | nil => rfl
  | cons f fields ih =>
    obtain ⟨hf, hfields⟩ := List.forall_mem_cons.mp h
    rw [List.flatMap_cons, List.append_assoc, splitBare_append hne hf, List.singleton_append,
      splitBare_cons_sep, ih hfields]
    simp [prepend]

end Escaping
