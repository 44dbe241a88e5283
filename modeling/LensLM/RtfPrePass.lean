import LensLM.Lib.ByteText
import Mathlib.Data.List.TakeWhile

/-!
# The pre-pass over RTF sources

Before an RTF source is parsed, its Unicode escapes are decoded and every control word `par` is
rewritten to `line`. Both scans look for a backslash and read on from there.
-/

namespace LensLM.Rtf

open ByteText

set_option autoImplicit false

section ParToLine

/-- After a backslash: `par` and no further letter. -/
def isPar (s : Str) : Bool := "par".toList.isPrefixOf s && !(s.drop 3).head?.any Char.isAlpha

def parToLine (s : Str) : Str :=
  match s with
  | [] => []
  | c :: t =>
    if c = '\\' ∧ isPar t then "\\line".toList ++ parToLine (t.drop 3)
    else c :: parToLine t
termination_by s.length
decreasing_by
  · simp only [List.length_cons, List.length_drop]
    omega
  · simp

theorem parToLine_nil : parToLine [] = [] := by rw [parToLine]

theorem parToLine_par {t : Str} (h : isPar t = true) :
    parToLine ('\\' :: t) = "\\line".toList ++ parToLine (t.drop 3) := by
  rw [parToLine, if_pos ⟨rfl, h⟩]

theorem parToLine_copy {c : Char} {t : Str} (h : c = '\\' → isPar t = false) :
    parToLine (c :: t) = c :: parToLine t := by
  rw [parToLine, if_neg]
  rintro ⟨hc, hpar⟩
  rw [h hc] at hpar
  cases hpar

theorem parToLine_append {p : Str} (h : '\\' ∉ p) (t : Str) :
    parToLine (p ++ t) = p ++ parToLine t := by
  induction p with
  | nil => rfl
  | cons c p ih =>
    obtain ⟨hc, hp⟩ := not_or.mp (mt List.mem_cons.mpr h)
    rw [List.cons_append, parToLine_copy fun heq => absurd heq.symm hc, ih hp]
    rfl

end ParToLine

section DecodeUnicodeEscapes

def digits (s : Str) : Str := s.takeWhile Char.isDigit

def afterDigits (s : Str) : Str := s.dropWhile Char.isDigit

def numberOf (ds : Str) : Nat := Nat.ofDigitChars 10 ds 0

def skipSpace (s : Str) : Str := if s.head? = some ' ' then s.tail else s

/-- After a backslash: `uc` and a number, and what follows it. -/
def ucWord (s : Str) : Option (Nat × Str) :=
  match s with
  | 'u' :: 'c' :: t =>
    if digits t = [] then none else some (numberOf (digits t), skipSpace (afterDigits t))
  | _ => none

/-- `u32::try_from(code).ok().and_then(char::from_u32)` -/
def charFromCode (code : Int) : Option Char :=
  if 0 ≤ code ∧ code.toNat.isValidChar then some (Char.ofNat code.toNat) else none

/-- After a backslash: `u` and a number or a sign, the character there and what follows. -/
def uWord (s : Str) : Option (Option Char × Str) :=
  match s with
  | 'u' :: '-' :: t =>
    some (if digits t = [] then none else charFromCode (65536 - numberOf (digits t)),
      skipSpace (afterDigits t))
  | 'u' :: t =>
    if digits t = [] then none
    else some (charFromCode (numberOf (digits t)), skipSpace (afterDigits t))
  | _ => none

def isHexDigit (c : Char) : Bool :=
  c.isDigit || ('a' ≤ c && c ≤ 'f') || ('A' ≤ c && c ≤ 'F')

/-- Skips a hex escape or one character. -/
def skipOne (s : Str) : Str :=
  match s with
  | '\\' :: '\'' :: a :: b :: t => if isHexDigit a && isHexDigit b then t else '\'' :: a :: b :: t
  | _ :: t => t
  | [] => []

def skipFallback : Nat → Str → Str
  | 0, s => s
  | n + 1, s => skipFallback n (skipOne s)

def isSpecial (c : Char) : Bool := c == '\\' || c == '{' || c == '}'

/-- A decoded character as it is written. -/
def literal (c : Char) : Str := if isSpecial c then ['\\', c] else [c]

theorem length_skipSpace (s : Str) : (skipSpace s).length ≤ s.length := by
  unfold skipSpace
  split <;> simp

theorem length_afterDigits (s : Str) : (afterDigits s).length ≤ s.length :=
  (List.dropWhile_suffix _).length_le

theorem length_ucWord {s rest : Str} {n : Nat} (h : ucWord s = some (n, rest)) :
    rest.length ≤ s.length := by
  unfold ucWord at h
  split at h
  · rename_i t
    split at h
    · cases h
    · cases h
      have h₁ := length_skipSpace (afterDigits t)
      have h₂ := length_afterDigits t
      simp only [List.length_cons]
      omega
  · cases h

theorem length_uWord {s rest : Str} {ch : Option Char} (h : uWord s = some (ch, rest)) :
    rest.length ≤ s.length := by
  unfold uWord at h
  split at h
  · rename_i t
    cases h
    have h₁ := length_skipSpace (afterDigits t)
    have h₂ := length_afterDigits t
    simp only [List.length_cons]
    omega
  · rename_i t _
    split at h
    · cases h
    · cases h
      have h₁ := length_skipSpace (afterDigits t)
      have h₂ := length_afterDigits t
      simp only [List.length_cons]
      omega
  · cases h

theorem length_skipOne (s : Str) : (skipOne s).length ≤ s.length := by
  unfold skipOne
  split
  · split
    · simp only [List.length_cons]
      omega
    · simp
  · simp
  · simp

theorem length_skipFallback (n : Nat) (s : Str) : (skipFallback n s).length ≤ s.length := by
  induction n generalizing s with
  | zero => exact le_rfl
  | succ n ih => exact (ih (skipOne s)).trans (length_skipOne s)

/-- Decodes what follows a `uc` word with this number. -/
def decodeFrom (uc : Nat) (s : Str) : Str :=
  match s with
  | [] => []
  | c :: t =>
    if c = '\\' then
      match _hword : ucWord t with
      | some (n, rest) => decodeFrom n rest
      | none =>
        match _hcode : uWord t with
        | some (ch, rest) => ch.toList.flatMap literal ++ decodeFrom uc (skipFallback uc rest)
        | none => c :: decodeFrom uc t
    else c :: decodeFrom uc t
termination_by s.length
decreasing_by
  · have := length_ucWord _hword
    simp only [List.length_cons]
    omega
  · have := length_uWord _hcode
    have := length_skipFallback uc rest
    simp only [List.length_cons]
    omega
  · simp
  · simp

def decodeUnicodeEscapes (s : Str) : Str := decodeFrom 1 s

/-- `par_to_line(&decode_unicode_escapes(s))` -/
def prepared (s : Str) : Str := parToLine (decodeUnicodeEscapes s)

variable {uc : Nat}

theorem decodeFrom_nil : decodeFrom uc [] = [] := by rw [decodeFrom]

theorem decodeFrom_char {c : Char} (hc : c ≠ '\\') (t : Str) :
    decodeFrom uc (c :: t) = c :: decodeFrom uc t := by rw [decodeFrom, if_neg hc]

theorem decodeFrom_append {p : Str} (h : '\\' ∉ p) (t : Str) :
    decodeFrom uc (p ++ t) = p ++ decodeFrom uc t := by
  induction p with
  | nil => rfl
  | cons c p ih =>
    obtain ⟨hc, hp⟩ := not_or.mp (mt List.mem_cons.mpr h)
    rw [List.cons_append, decodeFrom_char (Ne.symm hc), ih hp]
    rfl

theorem decodeFrom_uc {t rest : Str} {n : Nat} (h : ucWord t = some (n, rest)) :
    decodeFrom uc ('\\' :: t) = decodeFrom n rest := by
  rw [decodeFrom, if_pos rfl]
  split
  · rename_i h'
    rw [h] at h'
    cases h'
    rfl
  · rename_i h'
    rw [h] at h'
    cases h'

theorem decodeFrom_u {t rest : Str} {ch : Option Char} (h : ucWord t = none)
    (hu : uWord t = some (ch, rest)) : decodeFrom uc ('\\' :: t) =
      ch.toList.flatMap literal ++ decodeFrom uc (skipFallback uc rest) := by
  rw [decodeFrom, if_pos rfl]
  split
  · rename_i h'
    rw [h] at h'
    cases h'
  · split
    · rename_i h'
      rw [hu] at h'
      cases h'
      rfl
    · rename_i h'
      rw [hu] at h'
      cases h'

theorem decodeFrom_backslash {t : Str} (h : ucWord t = none) (hu : uWord t = none) :
    decodeFrom uc ('\\' :: t) = '\\' :: decodeFrom uc t := by
  rw [decodeFrom, if_pos rfl]
  split
  · rename_i h'
    rw [h] at h'
    cases h'
  · split
    · rename_i h'
      rw [hu] at h'
      cases h'
    · rfl

end DecodeUnicodeEscapes

end LensLM.Rtf
