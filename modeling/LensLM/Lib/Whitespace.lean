import LensLM.Lib.ByteText
import Mathlib.Data.List.DropRight

/-!
# Whitespace and trimming

`isWhitespace` is the Unicode White_Space property; trimming removes a prefix and a
suffix of such characters, so the trimmed text is a slice of the original.
-/

namespace ByteText

set_option autoImplicit false

/-- The Unicode White_Space property. -/
def isWhitespace (c : Char) : Bool :=
  let n := c.toNat
  (9 ≤ n && n ≤ 13) || n == 0x20 || n == 0x85 || n == 0xA0 || n == 0x1680 ||
    (0x2000 ≤ n && n ≤ 0x200A) || n == 0x2028 || n == 0x2029 || n == 0x202F ||
    n == 0x205F || n == 0x3000

def trimStart (s : Str) : Str := s.dropWhile isWhitespace

def trimEnd (s : Str) : Str := s.rdropWhile isWhitespace

def trim (s : Str) : Str := trimEnd (trimStart s)

/-- Nothing but whitespace. -/
def IsBlank (s : Str) : Prop := ∀ c ∈ s, isWhitespace c = true

instance (s : Str) : Decidable (IsBlank s) := List.decidableBAll (fun c => isWhitespace c = true) s

@[simp] theorem isBlank_nil : IsBlank [] := by simp [IsBlank]

@[simp] theorem isBlank_append {p q : Str} : IsBlank (p ++ q) ↔ IsBlank p ∧ IsBlank q := by
  simp only [IsBlank, List.mem_append]
  exact ⟨fun h => ⟨fun c hc => h c (Or.inl hc), fun c hc => h c (Or.inr hc)⟩,
    fun ⟨hp, hq⟩ c hc => hc.elim (hp c) (hq c)⟩

/-- The leading whitespace that `trimStart` removes. -/
def leadingBlank (s : Str) : Str := s.takeWhile isWhitespace

/-- The trailing whitespace that `trimEnd` removes. -/
def trailingBlank (s : Str) : Str := s.rtakeWhile isWhitespace

theorem leadingBlank_append_trimStart (s : Str) : leadingBlank s ++ trimStart s = s :=
  List.takeWhile_append_dropWhile

theorem trimEnd_append_trailingBlank (s : Str) : trimEnd s ++ trailingBlank s = s :=
  List.rdropWhile_append_rtakeWhile

theorem leadingBlank_blank (s : Str) : IsBlank (leadingBlank s) :=
  fun _ hc => List.mem_takeWhile_imp hc

theorem trailingBlank_blank (s : Str) : IsBlank (trailingBlank s) :=
  fun _ hc => List.mem_rtakeWhile_imp hc

theorem trim_decomposition (s : Str) :
    s = leadingBlank s ++ (trim s ++ trailingBlank (trimStart s)) := by
  unfold trim
  rw [trimEnd_append_trailingBlank, leadingBlank_append_trimStart]

theorem trim_eq_nil_iff {s : Str} : trim s = [] ↔ IsBlank s := by
  constructor
  · intro h
    rw [trim_decomposition s, h]
    simp [leadingBlank_blank, trailingBlank_blank]
  · intro h
    have hs : trimStart s = [] := List.dropWhile_eq_nil_iff.mpr h
    simp [trim, trimEnd, hs]

/-- The place of a visible character is not in the blanks around a text. -/
theorem place_trim {s p q : Str} {c : Char} (h : s = p ++ c :: q) (hc : isWhitespace c = false) :
    ∃ m r, trim s = m ++ c :: r ∧ p = leadingBlank s ++ m ∧
      q = r ++ trailingBlank (trimStart s) := by
  have hdec := (trim_decomposition s).symm.trans h
  rcases place_append hdec with ⟨r, hx, _⟩ | ⟨m, hy, hp⟩
  · have := leadingBlank_blank s c (by simp [hx])
    simp [hc] at this
  · rcases place_append hy with ⟨r, hs, hq⟩ | ⟨k, hk, _⟩
    · exact ⟨m, r, hs, hp, hq⟩
    · have := trailingBlank_blank (trimStart s) c (by simp [hk])
      simp [hc] at this

theorem place_trimEnd {s p q : Str} {c : Char} (h : s = p ++ c :: q)
    (hc : isWhitespace c = false) : ∃ r, trimEnd s = p ++ c :: r := by
  have hdec := (trimEnd_append_trailingBlank s).trans h
  rcases place_append hdec with ⟨r, hs, _⟩ | ⟨m, hm, _⟩
  · exact ⟨r, hs⟩
  · have := trailingBlank_blank s c (by simp [hm])
    simp [hc] at this

/-- Visible characters between blanks are what trimming leaves. -/
theorem trim_between {l t r : Str} (hl : IsBlank l) (hr : IsBlank r)
    (ht : ∀ c ∈ t, isWhitespace c = false) : trim (l ++ t ++ r) = t := by
  cases t with
  | nil =>
    apply trim_eq_nil_iff.mpr
    simp [hl, hr]
  | cons c t =>
    have hstart : trimStart (l ++ (c :: t) ++ r) = (c :: t) ++ r := by
      unfold trimStart
      rw [List.append_assoc, List.dropWhile_append_of_pos hl]
      simp [ht c (by simp)]
    have hend : (r.reverse ++ (c :: t).reverse).dropWhile isWhitespace = (c :: t).reverse := by
      rw [List.dropWhile_append_of_pos fun c hc => hr c (List.mem_reverse.mp hc)]
      cases hrev : (c :: t).reverse with
      | nil => rfl
      | cons d u =>
        have hd : d ∈ c :: t := by
          rw [← List.mem_reverse, hrev]
          simp
        simp [ht d hd]
    unfold trim trimEnd List.rdropWhile
    rw [hstart, List.reverse_append, hend, List.reverse_reverse]

theorem trimStart_append (s t : Str) :
    trimStart (s ++ t) = if trimStart s = [] then trimStart t else trimStart s ++ t := by
  unfold trimStart
  rw [List.dropWhile_append]
  simp only [List.isEmpty_iff]

theorem trimEnd_append (s t : Str) :
    trimEnd (s ++ t) = if trimEnd t = [] then trimEnd s else s ++ trimEnd t := by
  unfold trimEnd List.rdropWhile
  rw [List.reverse_append, List.dropWhile_append]
  simp only [List.isEmpty_iff, List.reverse_eq_nil_iff]
  split
  · rfl
  · rw [List.reverse_append, List.reverse_reverse]

theorem trimStart_eq_nil_iff {s : Str} : trimStart s = [] ↔ IsBlank s := List.dropWhile_eq_nil_iff

theorem trimEnd_eq_nil_iff {s : Str} : trimEnd s = [] ↔ IsBlank s := List.rdropWhile_eq_nil_iff

theorem trimEnd_trim (s : Str) : trimEnd (trim s) = trim s :=
  List.rdropWhile_idempotent isWhitespace (trimStart s)

theorem trimStart_trim (s : Str) : trimStart (trim s) = trim s := by
  cases htrim : trim s with
  | nil => rfl
  | cons c u =>
    have hs : s.dropWhile isWhitespace = c :: (u ++ trailingBlank (trimStart s)) := by
      have happend := trimEnd_append_trailingBlank (trimStart s)
      rw [show trimEnd (trimStart s) = c :: u from htrim] at happend
      exact happend.symm
    have hc : isWhitespace c = false := by
      have hhead := List.head?_dropWhile_not isWhitespace s
      rwa [hs] at hhead
    unfold trimStart
    rw [List.dropWhile_cons_of_neg (by simp [hc])]

end ByteText
