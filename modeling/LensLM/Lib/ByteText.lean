import Mathlib.Algebra.GroupWithZero.Nat
import Mathlib.Data.List.Basic

/-!
# Text addressed by UTF-8 byte offsets

A string is a list of characters. Every offset is a byte offset, so a slice exists
only between two character boundaries.
-/

namespace ByteText

set_option autoImplicit false

abbrev Str := List Char

instance lawfulBEqStr : LawfulBEq (List Char) := List.instLawfulBEq

/-- The number of bytes of the UTF-8 encoding. -/
def byteLen : Str → Nat
  | [] => 0
  | c :: s => c.utf8Size + byteLen s

@[simp] theorem byteLen_nil : byteLen [] = 0 := rfl

@[simp] theorem byteLen_cons (c : Char) (s : Str) :
    byteLen (c :: s) = c.utf8Size + byteLen s := rfl

@[simp] theorem byteLen_append (p q : Str) : byteLen (p ++ q) = byteLen p + byteLen q := by
  induction p with
  | nil => simp
  | cons c p ih => simp [ih, Nat.add_assoc]

theorem byteLen_pos {s : Str} (h : s ≠ []) : 0 < byteLen s := by
  cases s with
  | nil => exact absurd rfl h
  | cons c s =>
    have := Char.utf8Size_pos c
    simp only [byteLen_cons]
    omega

@[simp] theorem byteLen_eq_zero {s : Str} : byteLen s = 0 ↔ s = [] := by
  constructor
  · intro h
    by_contra hne
    have := byteLen_pos hne
    omega
  · rintro rfl
    rfl

/-- Splits at a byte offset, which must be a character boundary. -/
def splitAtByte : Str → Nat → Option (Str × Str)
  | s, 0 => some ([], s)
  | [], _ + 1 => none
  | c :: s, n + 1 =>
    if c.utf8Size ≤ n + 1 then
      (splitAtByte s (n + 1 - c.utf8Size)).map fun (p, q) => (c :: p, q)
    else none

theorem splitAtByte_eq_some {s p q : Str} {n : Nat} :
    splitAtByte s n = some (p, q) ↔ s = p ++ q ∧ byteLen p = n := by
  induction s generalizing n p with
  | nil =>
    cases n with
    | zero =>
      simp only [splitAtByte, Option.some.injEq, Prod.mk.injEq, byteLen_eq_zero]
      constructor
      · rintro ⟨rfl, rfl⟩
        simp
      · rintro ⟨h, rfl⟩
        exact ⟨rfl, by simpa using h⟩
    | succ n =>
      simp only [splitAtByte, reduceCtorEq, false_iff, not_and]
      intro h
      have hp : p = [] := (List.append_eq_nil_iff.mp h.symm).1
      simp [hp]
  | cons c s ih =>
    have hc := Char.utf8Size_pos c
    cases n with
    | zero =>
      simp only [splitAtByte, Option.some.injEq, Prod.mk.injEq, byteLen_eq_zero]
      constructor
      · rintro ⟨rfl, rfl⟩
        simp
      · rintro ⟨h, rfl⟩
        exact ⟨rfl, by simpa using h⟩
    | succ n =>
      simp only [splitAtByte]
      constructor
      · intro h
        split at h
        · rename_i hle
          obtain ⟨⟨p', q'⟩, hs, heq⟩ := Option.map_eq_some_iff.mp h
          simp only [Prod.mk.injEq] at heq
          obtain ⟨rfl, rfl⟩ := heq
          obtain ⟨rfl, hlen⟩ := ih.mp hs
          refine ⟨rfl, ?_⟩
          simp only [byteLen_cons]
          omega
        · exact absurd h (by simp)
      · rintro ⟨h, hlen⟩
        cases p with
        | nil => simp at hlen
        | cons d p =>
          simp only [List.cons_append, List.cons.injEq] at h
          obtain ⟨rfl, rfl⟩ := h
          simp only [byteLen_cons] at hlen
          rw [if_pos (by omega)]
          exact Option.map_eq_some_iff.mpr ⟨(p, q), ih.mpr ⟨rfl, by omega⟩, rfl⟩

/-- `n` is an offset at which the text may be cut. -/
def IsBoundary (s : Str) (n : Nat) : Prop := ∃ p q, s = p ++ q ∧ byteLen p = n

instance (s : Str) (n : Nat) : Decidable (IsBoundary s n) :=
  decidable_of_iff ((splitAtByte s n).isSome = true) <| by
    rw [Option.isSome_iff_exists]
    constructor
    · rintro ⟨⟨p, q⟩, h⟩
      exact ⟨p, q, splitAtByte_eq_some.mp h⟩
    · rintro ⟨p, q, h⟩
      exact ⟨(p, q), splitAtByte_eq_some.mpr h⟩

@[simp] theorem isBoundary_zero (s : Str) : IsBoundary s 0 := ⟨[], s, rfl, rfl⟩

@[simp] theorem isBoundary_byteLen (s : Str) : IsBoundary s (byteLen s) := ⟨s, [], by simp, rfl⟩

theorem IsBoundary.le {s : Str} {n : Nat} (h : IsBoundary s n) : n ≤ byteLen s := by
  obtain ⟨p, q, rfl, rfl⟩ := h
  simp

/-- The substring from byte `a` to byte `b`; `none` is the panic of a bad range. -/
def slice (s : Str) (a b : Nat) : Option Str :=
  if a ≤ b then
    (splitAtByte s a).bind fun (_, rest) => (splitAtByte rest (b - a)).map Prod.fst
  else none

theorem slice_eq_some {s t : Str} {a b : Nat} :
    slice s a b = some t ↔
      ∃ p q, s = p ++ (t ++ q) ∧ byteLen p = a ∧ b = a + byteLen t := by
  unfold slice
  constructor
  · intro h
    split at h
    · rename_i hab
      obtain ⟨⟨p, rest⟩, hp, h⟩ := Option.bind_eq_some_iff.mp h
      obtain ⟨⟨t', q⟩, ht, heq⟩ := Option.map_eq_some_iff.mp h
      obtain ⟨rfl, hpl⟩ := splitAtByte_eq_some.mp hp
      obtain ⟨rfl, htl⟩ := splitAtByte_eq_some.mp ht
      have heq' : t' = t := heq
      subst heq'
      exact ⟨p, q, rfl, hpl, by omega⟩
    · exact absurd h (by simp)
  · rintro ⟨p, q, rfl, rfl, rfl⟩
    rw [if_pos (by omega), splitAtByte_eq_some.mpr ⟨rfl, rfl⟩]
    simp only [Option.bind_some, Nat.add_sub_cancel_left]
    rw [splitAtByte_eq_some.mpr ⟨rfl, rfl⟩]
    rfl

theorem slice_stop {s t : Str} {a b : Nat} (h : slice s a b = some t) : b = a + byteLen t := by
  obtain ⟨_, _, _, _, hb⟩ := slice_eq_some.mp h
  exact hb

theorem slice_left_boundary {s t : Str} {a b : Nat} (h : slice s a b = some t) :
    IsBoundary s a := by
  obtain ⟨p, q, hs, hp, _⟩ := slice_eq_some.mp h
  exact ⟨p, t ++ q, hs, hp⟩

theorem slice_right_boundary {s t : Str} {a b : Nat} (h : slice s a b = some t) :
    IsBoundary s b := by
  obtain ⟨p, q, hs, hp, hb⟩ := slice_eq_some.mp h
  exact ⟨p ++ t, q, by simp [hs], by simp [hp, hb]⟩

/-- Two cuts of one text, the first not after the second, leave a middle piece. -/
theorem exists_middle {p q p' q' : Str} (h : p ++ q = p' ++ q')
    (hle : byteLen p ≤ byteLen p') : ∃ m, p' = p ++ m ∧ q = m ++ q' := by
  rcases List.append_eq_append_iff.mp h with ⟨m, rfl, rfl⟩ | ⟨m, rfl, rfl⟩
  · exact ⟨m, rfl, rfl⟩
  · have hm : m = [] := by
      rw [← byteLen_eq_zero]
      simp only [byteLen_append] at hle
      omega
    subst hm
    exact ⟨[], by simp, by simp⟩

/-- A place in one of two parts. -/
theorem place_append {x y p q : Str} {c : Char} (h : x ++ y = p ++ c :: q) :
    (∃ r, x = p ++ c :: r ∧ q = r ++ y) ∨ ∃ m, y = m ++ c :: q ∧ p = x ++ m := by
  rcases List.append_eq_append_iff.mp h with ⟨m, hp, hy⟩ | ⟨m, hx, hm⟩
  · exact Or.inr ⟨m, hy, hp⟩
  · cases m with
    | nil =>
      apply Or.inr
      refine ⟨[], hm.symm, ?_⟩
      simpa using hx.symm
    | cons d m =>
      obtain ⟨hd, hq⟩ := List.cons.inj hm
      subst hd
      exact Or.inl ⟨m, hx, hq⟩

theorem exists_slice {s : Str} {a b : Nat} (ha : IsBoundary s a) (hb : IsBoundary s b)
    (hab : a ≤ b) : ∃ t, slice s a b = some t := by
  obtain ⟨p, q, rfl, rfl⟩ := ha
  obtain ⟨p', q', h, rfl⟩ := hb
  obtain ⟨m, rfl, rfl⟩ := exists_middle h hab
  exact ⟨m, slice_eq_some.mpr ⟨p, q', rfl, rfl, by simp⟩⟩

theorem slice_append {s t u : Str} {a b c : Nat} (h : slice s a b = some t)
    (h' : slice s b c = some u) : slice s a c = some (t ++ u) := by
  obtain ⟨p, q, rfl, rfl, rfl⟩ := slice_eq_some.mp h
  obtain ⟨p', q', hs, hp', rfl⟩ := slice_eq_some.mp h'
  have heq : (p ++ t) ++ q = p' ++ (u ++ q') := by simpa using hs
  obtain ⟨m, rfl, rfl⟩ := exists_middle heq (by simp [hp'])
  have hm : m = [] := by
    rw [← byteLen_eq_zero]
    simp only [byteLen_append] at hp'
    omega
  subst hm
  refine slice_eq_some.mpr ⟨p, q', by simp, rfl, ?_⟩
  simp only [byteLen_append]
  omega

theorem slice_of_slice {s t u : Str} {a b i j : Nat} (h : slice s a b = some t)
    (h' : slice t i j = some u) : slice s (a + i) (a + j) = some u := by
  obtain ⟨p, q, rfl, rfl, rfl⟩ := slice_eq_some.mp h
  obtain ⟨p', q', rfl, rfl, rfl⟩ := slice_eq_some.mp h'
  exact slice_eq_some.mpr ⟨p ++ p', q' ++ q, by simp, by simp, by omega⟩

theorem IsBoundary.of_slice {s t : Str} {a b i : Nat} (h : slice s a b = some t)
    (hi : IsBoundary t i) : IsBoundary s (a + i) := by
  obtain ⟨u, hu⟩ := exists_slice (isBoundary_zero t) hi (Nat.zero_le i)
  have := slice_right_boundary (slice_of_slice h hu)
  simpa using this

/-- A slice that ends in a first part is one of it. -/
theorem slice_prefix {s t u : Str} {a b : Nat} (h : slice s a b = some t) (hpre : u <+: s)
    (hle : b ≤ byteLen u) : slice u a b = some t := by
  obtain ⟨p, q, rfl, hp, hb⟩ := slice_eq_some.mp h
  obtain ⟨r, hr⟩ := hpre
  rw [← List.append_assoc] at hr
  obtain ⟨m, hm, _⟩ := exists_middle hr.symm (by
    simp only [byteLen_append]
    omega)
  exact slice_eq_some.mpr ⟨p, m, by rw [hm, List.append_assoc], hp, hb⟩

@[simp] theorem slice_self (s : Str) : slice s 0 (byteLen s) = some s :=
  slice_eq_some.mpr ⟨[], [], by simp, rfl, by simp⟩

theorem slice_initial (p q : Str) : slice (p ++ q) 0 (byteLen p) = some p :=
  slice_eq_some.mpr ⟨[], q, by simp, rfl, by simp⟩

/-- The characters with the byte offsets at which they start. -/
def charIndicesFrom (n : Nat) : Str → List (Nat × Char)
  | [] => []
  | c :: s => (n, c) :: charIndicesFrom (n + c.utf8Size) s

def charIndices (s : Str) : List (Nat × Char) := charIndicesFrom 0 s

theorem mem_charIndicesFrom {n i : Nat} {c : Char} {s : Str} :
    (i, c) ∈ charIndicesFrom n s ↔ ∃ p q, s = p ++ c :: q ∧ n + byteLen p = i := by
  induction s generalizing n with
  | nil => simp [charIndicesFrom]
  | cons d s ih =>
    simp only [charIndicesFrom, List.mem_cons, Prod.mk.injEq, ih]
    constructor
    · rintro (⟨rfl, rfl⟩ | ⟨p, q, rfl, rfl⟩)
      · exact ⟨[], s, rfl, by simp⟩
      · exact ⟨d :: p, q, rfl, by simp [Nat.add_assoc]⟩
    · rintro ⟨p, q, hs, rfl⟩
      cases p with
      | nil =>
        simp only [List.nil_append, List.cons.injEq] at hs
        exact Or.inl ⟨by simp, hs.1.symm⟩
      | cons e p =>
        simp only [List.cons_append, List.cons.injEq] at hs
        obtain ⟨rfl, rfl⟩ := hs
        exact Or.inr ⟨p, q, rfl, by simp [Nat.add_assoc]⟩

theorem mem_charIndices {i : Nat} {c : Char} {s : Str} :
    (i, c) ∈ charIndices s ↔ ∃ p q, s = p ++ c :: q ∧ byteLen p = i := by
  simp [charIndices, mem_charIndicesFrom]

end ByteText
