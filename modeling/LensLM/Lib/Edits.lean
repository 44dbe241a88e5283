import Mathlib.Data.List.Infix
import Mathlib.Tactic.Cases

/-!
# Edits of a list

An edit puts a new piece in the place of a span. Disjoint edits are told from left to right; when
they are made from right to left, what lies before the last one made is still the original.
-/

namespace Edits

set_option autoImplicit false

/-- The span from `start` to `stop` is to become `new`. -/
structure Edit (α : Type*) where
  start : Nat
  stop : Nat
  new : List α

variable {α : Type*}

/-- Two spans share a place, or one lies strictly inside the other. -/
def Edit.Overlaps (e f : Edit α) : Prop := e.start < f.stop ∧ f.start < e.stop

instance (e f : Edit α) : Decidable (e.Overlaps f) :=
  inferInstanceAs (Decidable (e.start < f.stop ∧ f.start < e.stop))

/-- The edits, from left to right, turn the rest of a list from `offset` on into another. -/
inductive Replaced : Nat → List (Edit α) → List α → List α → Prop where
  | done (offset : Nat) (rest : List α) : Replaced offset [] rest rest
  | edit {offset : Nat} {e : Edit α} {edits : List (Edit α)} {rest out : List α}
      (gap old : List α) (hstart : e.start = offset + gap.length)
      (hstop : e.stop = e.start + old.length) (hrest : Replaced e.stop edits rest out) :
      Replaced offset (e :: edits) (gap ++ (old ++ rest)) (gap ++ (e.new ++ out))

namespace Replaced

variable {offset : Nat} {edits : List (Edit α)} {rest out : List α}

/-- What is left alone in front of the edits. -/
theorem prepend (gap : List α) (h : Replaced (offset + gap.length) edits rest out) :
    Replaced offset edits (gap ++ rest) (gap ++ out) := by
  cases h with
  | done => exact .done offset (gap ++ rest)
  | edit inner old hstart hstop hrest =>
    rw [← List.append_assoc gap inner, ← List.append_assoc gap inner]
    apply Replaced.edit (gap ++ inner) old _ hstop hrest
    rw [hstart, List.length_append, Nat.add_assoc]

theorem start_le (h : Replaced offset edits rest out) {e : Edit α} (he : e ∈ edits) :
    offset ≤ e.start := by
  induction h with
  | done => cases he
  | edit gap old hstart hstop _ ih =>
    cases List.mem_cons.mp he with
    | inl heq => rw [heq]; omega
    | inr he =>
      have hle := ih he
      omega

/-- The edits are disjoint. -/
theorem disjoint (h : Replaced offset edits rest out) :
    edits.Pairwise fun e f => e.stop ≤ f.start := by
  induction h with
  | done => exact .nil
  | edit _ _ _ _ hrest ih => exact List.pairwise_cons.mpr ⟨fun _ hf => hrest.start_le hf, ih⟩

theorem new_infix (h : Replaced offset edits rest out) {e : Edit α} (he : e ∈ edits) :
    e.new <:+: out := by
  induction h with
  | done => cases he
  | @edit offset f edits rest out gap old _ _ _ ih =>
    cases List.mem_cons.mp he with
    | inl heq =>
      rw [heq]
      exact ⟨gap, out, List.append_assoc gap f.new out⟩
    | inr he =>
      apply (ih he).trans
      rw [← List.append_assoc]
      exact (List.suffix_append (gap ++ f.new) out).isInfix

end Replaced

/-- The part from `offset` on is edited, the part before it is the original. -/
def EditedFrom (text : List α) (offset : Nat) (edits : List (Edit α)) (result : List α) : Prop :=
  ∃ pre rest out, text = pre ++ rest ∧ result = pre ++ out ∧ pre.length = offset ∧
    Replaced offset edits rest out

namespace EditedFrom

variable {text result : List α} {offset : Nat} {edits : List (Edit α)}

theorem init (text : List α) : EditedFrom text text.length [] text :=
  ⟨text, [], [], by simp, by simp, rfl, .done _ _⟩

theorem replaced (h : EditedFrom text offset edits result) : Replaced 0 edits text result := by
  obtain ⟨pre, rest, out, rfl, rfl, hlen, hrep⟩ := h
  apply Replaced.prepend
  rwa [Nat.zero_add, hlen]

/-- An edit that ends at `offset` or before it is found where it was in the original. -/
theorem step (h : EditedFrom text offset edits result) {e : Edit α} {p old q : List α}
    (htext : text = p ++ (old ++ q)) (hstart : e.start = p.length)
    (hstop : e.stop = e.start + old.length) (hle : e.stop ≤ offset) :
    ∃ q', result = p ++ (old ++ q') ∧
      EditedFrom text e.start (e :: edits) (p ++ (e.new ++ q')) := by
  obtain ⟨pre, rest, out, htext', rfl, hlen, hrep⟩ := h
  have hspan : p ++ old <+: text := ⟨q, by rw [htext, List.append_assoc]⟩
  have hprefix : p ++ old <+: pre := by
    apply List.prefix_of_prefix_length_le hspan ⟨rest, htext'.symm⟩
    rw [List.length_append]
    omega
  obtain ⟨gap, rfl⟩ := hprefix
  have hq : q = gap ++ rest := by
    rw [htext'] at htext
    simpa only [List.append_assoc, List.append_cancel_left_eq] using htext.symm
  refine ⟨gap ++ out, by simp only [List.append_assoc], p, old ++ q, e.new ++ (gap ++ out), htext,
    rfl, hstart.symm, ?_⟩
  have hgap : Replaced e.stop edits (gap ++ rest) (gap ++ out) := by
    apply Replaced.prepend
    have hoffset : e.stop + gap.length = offset := by
      simp only [List.length_append] at hlen
      omega
    rwa [hoffset]
  rw [hq]
  exact Replaced.edit [] old rfl hstop hgap

end EditedFrom

end Edits
