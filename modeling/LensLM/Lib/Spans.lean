import Mathlib.Data.List.Basic
import Mathlib.Data.List.Pairwise

/-!
# Half-open spans

Lists of spans that are separated, ascending, or that cover given positions.
-/

namespace Spans

set_option autoImplicit false

structure Span where
  start : Nat
  stop : Nat
deriving DecidableEq, Repr

/-- The position lies in the half-open span. -/
def Span.Has (s : Span) (n : Nat) : Prop := s.start ≤ n ∧ n < s.stop

def Span.Within (s t : Span) : Prop := t.start ≤ s.start ∧ s.stop ≤ t.stop

instance (s : Span) (n : Nat) : Decidable (s.Has n) := inferInstanceAs (Decidable (_ ∧ _))
instance (s t : Span) : Decidable (s.Within t) := inferInstanceAs (Decidable (_ ∧ _))

/-- Each span ends before the next begins. -/
def Separated (l : List Span) : Prop := l.Pairwise fun a b => a.stop ≤ b.start

/-- Starts and ends both strictly increase. -/
def Ascending (l : List Span) : Prop := l.Pairwise fun a b => a.start < b.start ∧ a.stop < b.stop

def Covers (l : List Span) (n : Nat) : Prop := ∃ s ∈ l, s.Has n

@[simp] theorem separated_nil : Separated [] := List.Pairwise.nil
@[simp] theorem ascending_nil : Ascending [] := List.Pairwise.nil

theorem Covers.append_left {l r : List Span} {n : Nat} (h : Covers l n) : Covers (l ++ r) n := by
  obtain ⟨s, hs, hn⟩ := h
  exact ⟨s, List.mem_append_left r hs, hn⟩

theorem Covers.append_right {l r : List Span} {n : Nat} (h : Covers r n) : Covers (l ++ r) n := by
  obtain ⟨s, hs, hn⟩ := h
  exact ⟨s, List.mem_append_right l hs, hn⟩

theorem covers_concat {l : List Span} {s : Span} {n : Nat} :
    Covers (l ++ [s]) n ↔ Covers l n ∨ s.Has n := by
  constructor
  · rintro ⟨t, ht, hn⟩
    rcases List.mem_append.mp ht with ht | ht
    · exact Or.inl ⟨t, ht, hn⟩
    · rw [List.mem_singleton] at ht
      exact Or.inr (ht ▸ hn)
  · rintro (h | h)
    · exact h.append_left
    · exact ⟨s, by simp, h⟩

theorem Separated.append {l r : List Span} {m : Nat} (hl : Separated l) (hr : Separated r)
    (hlm : ∀ s ∈ l, s.stop ≤ m) (hrm : ∀ s ∈ r, m ≤ s.start) : Separated (l ++ r) := by
  refine List.pairwise_append.mpr ⟨hl, hr, ?_⟩
  intro a ha b hb
  exact Nat.le_trans (hlm a ha) (hrm b hb)

theorem Separated.concat {l : List Span} {s : Span} (hl : Separated l)
    (h : ∀ t ∈ l, t.stop ≤ s.start) : Separated (l ++ [s]) :=
  hl.append (List.pairwise_singleton _ s) h (by simp)

theorem Ascending.concat {l : List Span} {s : Span} (hl : Ascending l)
    (h : ∀ t, l.getLast? = some t → t.start < s.start ∧ t.stop < s.stop) :
    Ascending (l ++ [s]) := by
  refine List.pairwise_append.mpr ⟨hl, List.pairwise_singleton _ s, ?_⟩
  intro a ha b hb
  obtain rfl : b = s := by simpa using hb
  rcases List.eq_nil_or_concat' l with rfl | ⟨l', t, rfl⟩
  · simp at ha
  · have ht := h t (by simp)
    rcases List.mem_append.mp ha with ha | ha
    · have := (List.pairwise_append.mp hl).2.2 a ha t (by simp)
      omega
    · obtain rfl : a = t := by simpa using ha
      exact ht

/-- Of separated things only one holds a given position. -/
theorem Separated.unique {α : Type} {f : α → Span} {l : List α} (h : Separated (l.map f)) {a b : α}
    {n : Nat} (ha : a ∈ l) (hb : b ∈ l) (han : (f a).Has n) (hbn : (f b).Has n) : a = b := by
  induction l with
  | nil => simp at ha
  | cons c l ih =>
    rw [List.map_cons] at h
    obtain ⟨hc, hl⟩ := List.pairwise_cons.mp h
    unfold Span.Has at han hbn
    rcases List.mem_cons.mp ha with ha | ha <;> rcases List.mem_cons.mp hb with hb | hb
    · rw [ha, hb]
    · have := hc (f b) (List.mem_map_of_mem hb)
      rw [ha] at han
      omega
    · have := hc (f a) (List.mem_map_of_mem ha)
      rw [hb] at hbn
      omega
    · exact ih hl ha hb

end Spans
