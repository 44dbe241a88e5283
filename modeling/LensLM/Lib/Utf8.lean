import LensLM.Lib.ByteText

/-!
# UTF-8

The bytes of a text, and the text that bytes are the encoding of. A cut of the bytes is a text again
exactly at a character boundary, and no byte of a character beyond ASCII is an ASCII byte.
-/

namespace Utf8

open ByteText

set_option autoImplicit false

def encode (s : Str) : List UInt8 := s.flatMap String.utf8EncodeChar

def decode (bytes : List UInt8) : Option Str := bytes.toByteArray.utf8Decode?.map Array.toList

@[simp] theorem encode_nil : encode [] = [] := rfl

@[simp] theorem encode_cons (c : Char) (s : Str) :
    encode (c :: s) = String.utf8EncodeChar c ++ encode s := by
  simp [encode]

@[simp] theorem encode_append (s t : Str) : encode (s ++ t) = encode s ++ encode t := by
  simp [encode]

@[simp] theorem length_encode (s : Str) : (encode s).length = byteLen s := by
  induction s with
  | nil => rfl
  | cons c s ih => simp [ih]

@[simp] theorem decode_encode (s : Str) : decode (encode s) = some s := by
  unfold decode
  rw [show (encode s).toByteArray = s.utf8Encode from rfl, List.utf8Decode?_utf8Encode]
  simp

theorem decode_eq_some {bytes : List UInt8} {s : Str} : decode bytes = some s ↔ bytes = encode s := by
  constructor
  · intro h
    obtain ⟨chars, hchars, rfl⟩ := Option.map_eq_some_iff.mp h
    have hsome : bytes.toByteArray.utf8Decode?.isSome := by
      rw [hchars]
      rfl
    have hback := ByteArray.utf8Encode_get_utf8Decode? (h := hsome)
    simp only [hchars, Option.get_some] at hback
    have hlists := congrArg (fun b : ByteArray => b.data.toList) hback
    simpa [List.utf8Encode, encode] using hlists.symm
  · rintro rfl
    exact decode_encode s

theorem decode_append (p : Str) (bytes : List UInt8) :
    decode (encode p ++ bytes) = (decode bytes).map (p ++ ·) := by
  induction p with
  | nil => simp
  | cons c p ih =>
    have hone : (String.utf8EncodeChar c).toByteArray = [c].utf8Encode :=
      List.utf8Encode_singleton.symm
    have hstep := ByteArray.utf8Decode?_utf8Encode_singleton_append (c := c)
      (l := (encode p ++ bytes).toByteArray)
    unfold decode at ih ⊢
    rw [encode_cons, List.append_assoc, List.toByteArray_append, hone, hstep, Option.map_map]
    have hcons : (decode bytes).map (c :: p ++ ·) =
        ((decode bytes).map (p ++ ·)).map (c :: ·) := by
      rw [Option.map_map]
      rfl
    unfold decode at hcons
    rw [hcons, ← ih, Option.map_map]
    congr 1
    funext chars
    simp

/-- A cut within the bytes of a text. -/
theorem decode_take {s : Str} {n : Nat} (hn : n ≤ byteLen s) :
    decode ((encode s).take n) = (splitAtByte s n).map Prod.fst := by
  cases hcut : splitAtByte s n with
  | some cut =>
    obtain ⟨rfl, hlen⟩ := splitAtByte_eq_some.mp hcut
    rw [encode_append, List.take_left' (by rw [length_encode, hlen]), decode_encode]
    rfl
  | none =>
    cases hp : decode ((encode s).take n) with
    | none => rfl
    | some p =>
      have htake := decode_eq_some.mp hp
      have hlen : byteLen p = n := by
        rw [← length_encode, ← htake, List.length_take, length_encode, Nat.min_eq_left hn]
      have hwhole := decode_append p ((encode s).drop n)
      rw [← htake, List.take_append_drop, decode_encode] at hwhole
      obtain ⟨q, -, hq⟩ := Option.map_eq_some_iff.mp hwhole.symm
      rw [splitAtByte_eq_some.mpr ⟨hq.symm, hlen⟩] at hcut
      cases hcut

/-- An ASCII character is one byte. -/
theorem encodeChar_ascii {c : Char} (h : c.toNat < 128) :
    String.utf8EncodeChar c = [c.val.toUInt8] := by
  apply String.utf8EncodeChar_eq_singleton
  apply Char.utf8Size_eq_one_iff.mpr
  rw [UInt32.le_iff_toNat_le]
  exact Nat.le_of_lt_succ h

/-- A character beyond ASCII has no ASCII byte. -/
theorem encodeChar_beyond {c : Char} (h : 128 ≤ c.toNat) :
    ∀ b ∈ String.utf8EncodeChar c, 128 ≤ b.toNat := by
  have hhigh : ∀ x y : UInt8, 128 ≤ y.toNat → 128 ≤ (x ||| y).toNat := by
    intro x y hy
    rw [UInt8.toNat_or]
    exact Nat.le_trans hy Nat.right_le_or
  intro b hb
  rcases c.utf8Size_eq with hs | hs | hs | hs
  · have hle := Char.utf8Size_eq_one_iff.mp hs
    rw [UInt32.le_iff_toNat_le] at hle
    exact absurd h (Nat.not_le_of_lt (Nat.lt_succ_of_le hle))
  · rw [String.utf8EncodeChar_eq_cons_cons hs] at hb
    simp only [List.mem_cons, List.not_mem_nil, or_false] at hb
    rcases hb with rfl | rfl
    all_goals exact hhigh _ _ (by decide)
  · rw [String.utf8EncodeChar_eq_cons_cons_cons hs] at hb
    simp only [List.mem_cons, List.not_mem_nil, or_false] at hb
    rcases hb with rfl | rfl | rfl
    all_goals exact hhigh _ _ (by decide)
  · rw [String.utf8EncodeChar_eq_cons_cons_cons_cons hs] at hb
    simp only [List.mem_cons, List.not_mem_nil, or_false] at hb
    rcases hb with rfl | rfl | rfl | rfl
    all_goals exact hhigh _ _ (by decide)

theorem encode_injective : Function.Injective encode := by
  intro s t h
  have hdecode := congrArg decode h
  rw [decode_encode, decode_encode] at hdecode
  exact Option.some.inj hdecode

/-- Only the character NUL has a zero byte. -/
theorem zero_mem_encode {s : Str} : 0 ∈ encode s ↔ Char.ofNat 0 ∈ s := by
  unfold encode
  rw [List.mem_flatMap]
  constructor
  · rintro ⟨c, hc, hzero⟩
    by_cases hascii : c.toNat < 128
    · rw [encodeChar_ascii hascii, List.mem_singleton] at hzero
      have hcode : c.toNat = 0 := by
        have hbyte := congrArg UInt8.toNat hzero.symm
        rw [UInt32.toNat_toUInt8] at hbyte
        have hmod : c.toNat % 2 ^ 8 = 0 := hbyte
        omega
      rw [← hcode, Char.ofNat_toNat]
      exact hc
    · have hle := encodeChar_beyond (Nat.le_of_not_lt hascii) 0 hzero
      exact absurd hle (by decide)
  · intro h
    exact ⟨Char.ofNat 0, h, by decide⟩

/-- The bytes of a text, each read as the character with its code. -/
def readBytes (s : Str) : Str := (encode s).map Char.ofUInt8

@[simp] theorem readBytes_nil : readBytes [] = [] := rfl

@[simp] theorem readBytes_append (s t : Str) : readBytes (s ++ t) = readBytes s ++ readBytes t := by
  simp [readBytes]

@[simp] theorem length_readBytes (s : Str) : (readBytes s).length = byteLen s := by
  simp [readBytes]

theorem readBytes_ascii {c : Char} (h : c.toNat < 128) : readBytes [c] = [c] := by
  rw [readBytes, encode_cons, encode_nil, List.append_nil, encodeChar_ascii h, List.map_singleton]
  congr 1
  apply Char.ext
  apply UInt32.toNat.inj
  show c.val.toUInt8.toUInt32.toNat = c.val.toNat
  rw [UInt8.toNat_toUInt32, UInt32.toNat_toUInt8]
  exact Nat.mod_eq_of_lt (Nat.lt_of_lt_of_le h (by decide))

theorem readBytes_beyond {c : Char} (h : 128 ≤ c.toNat) : ∀ x ∈ readBytes [c], 128 ≤ x.toNat := by
  intro x hx
  rw [readBytes, encode_cons, encode_nil, List.append_nil] at hx
  obtain ⟨b, hb, rfl⟩ := List.mem_map.mp hx
  exact encodeChar_beyond h b hb

end Utf8
