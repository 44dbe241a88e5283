import LensLM.Lib.Boundaries
import LensLM.Lib.JsonText
import LensLM.Lib.Utf8
import LensLM.Lib.Whitespace

/-!
# JSON or JSON Lines

A `.json` file is read as JSON Lines when its first two lines with text are JSON values. Only a
window of the file is looked at, which is cut at a number of bytes.
-/

namespace LensLM

open ByteText Utf8

set_option autoImplicit false

def JSONL_SNIFF_WINDOW : Nat := 64 * 1024

section Sniff

variable (isJson : Str → Bool)

/-- A text without the mark U+FEFF in front. -/
def stripBom : Str → Str
  | '\uFEFF' :: s => s
  | s => s

def jsonlLine (line : Str) : Str := trim (line.rdropWhile (· == '\r'))

/-- The loop over the lines, with the number of values read so far. -/
def sniffLines : Nat → List Str → Bool
  | _, [] => false
  | parsedLines, line :: lines =>
    if jsonlLine line = [] then sniffLines parsedLines lines
    else if isJson (jsonlLine line) then
      if 2 ≤ parsedLines + 1 then true else sniffLines (parsedLines + 1) lines
    else false

/-- `isJson` stands for a successful `serde_json::from_str`. -/
def sniffIsJsonl (raw : List UInt8) : Bool :=
  match decode (raw.take (min raw.length JSONL_SNIFF_WINDOW)) with
  | none => false
  | some s => sniffLines isJson 0 ((stripBom s).splitOn '\n')

end Sniff

section Window

/-- The lines with text. -/
def visibleLines (s : Str) : List Str := ((s.splitOn '\n').map jsonlLine).filter (· ≠ [])

/-- The first two lines with text are values, and the second one ends inside the window. -/
structure StartsAsJsonl (isJson : Str → Bool) (text : Str) : Prop where
  lines : ∃ head tail v w, text = head ++ tail ∧ (∀ c ∈ tail.head?, c = '\n') ∧
    byteLen head ≤ JSONL_SNIFF_WINDOW ∧ visibleLines (stripBom head) = [v, w] ∧
    isJson v = true ∧ isJson w = true

variable {isJson : Str → Bool}

/-- As many values as are missing lead the lines with text. -/
theorem sniffLines_true {parsedLines : Nat} {lines vs rest : List Str}
    (h : (lines.map jsonlLine).filter (· ≠ []) = vs ++ rest) (hvs : ∀ v ∈ vs, isJson v = true)
    (hfew : parsedLines < 2) (hlen : 2 ≤ parsedLines + vs.length) :
    sniffLines isJson parsedLines lines = true := by
  induction lines generalizing parsedLines vs with
  | nil =>
    obtain ⟨rfl, -⟩ := List.append_eq_nil_iff.mp h.symm
    exact absurd hlen (Nat.not_le_of_lt hfew)
  | cons line lines ih =>
    rw [sniffLines]
    by_cases hline : jsonlLine line = []
    · rw [if_pos hline]
      rw [List.map_cons, List.filter_cons_of_neg (by simpa using hline)] at h
      exact ih h hvs hfew hlen
    · rw [List.map_cons, List.filter_cons_of_pos (by simpa using hline)] at h
      rw [if_neg hline]
      cases vs with
      | nil => exact absurd hlen (Nat.not_le_of_lt hfew)
      | cons v vs =>
        obtain ⟨hv, htail⟩ := List.cons.inj h
        rw [hv, if_pos (hvs v List.mem_cons_self)]
        split
        · rfl
        · next hmore =>
          apply ih htail fun u hu => hvs u (List.mem_cons_of_mem v hu)
          · omega
          · rw [List.length_cons] at hlen
            omega

/-- Nothing of the line in front is lost where a new line follows. -/
theorem visibleLines_append {head rest : Str} (h : ∀ c ∈ rest.head?, c = '\n') :
    ∃ more, visibleLines (head ++ rest) = visibleLines head ++ more := by
  cases rest with
  | nil => exact ⟨[], by simp⟩
  | cons c rest =>
    obtain rfl := h c rfl
    refine ⟨visibleLines rest, ?_⟩
    unfold visibleLines
    rw [List.splitOn_append_cons_self, List.map_append, List.filter_append]

theorem stripBom_append {head : Str} (h : head ≠ []) (rest : Str) :
    stripBom (head ++ rest) = stripBom head ++ rest := by
  cases head with
  | nil => exact absurd rfl h
  | cons c head =>
    by_cases hc : c = '\uFEFF'
    · subst hc
      rfl
    · unfold stripBom
      split
      · next heq => exact absurd (List.cons.inj heq).1 hc
      · split
        · next heq => exact absurd (List.cons.inj heq).1 hc
        · rfl

/-- A cut behind the two lines keeps them. -/
theorem StartsAsJsonl.sniffed {p q : Str} (h : StartsAsJsonl isJson (p ++ q))
    (hp : q ≠ [] → byteLen p = JSONL_SNIFF_WINDOW) :
    sniffLines isJson 0 ((stripBom p).splitOn '\n') = true := by
  obtain ⟨head, tail, v, w, htext, htail, hlen, hlines, hv, hw⟩ := h.lines
  have hcut : ∃ rest, p = head ++ rest ∧ tail = rest ++ q := by
    rcases List.append_eq_append_iff.mp htext with ⟨m, hm, hq⟩ | ⟨m, hm, ht⟩
    · cases m with
      | nil => exact ⟨[], by simpa using hm.symm, by simpa using hq.symm⟩
      | cons c m =>
        have hq' : q ≠ [] := by
          rw [hq]
          exact List.cons_ne_nil _ _
        have hpos := byteLen_pos (List.cons_ne_nil c m)
        rw [hm, byteLen_append] at hlen
        have := hp hq'
        omega
    · exact ⟨m, hm, ht⟩
  obtain ⟨rest, rfl, rfl⟩ := hcut
  have hhead : head ≠ [] := by
    rintro rfl
    have hnone : visibleLines (stripBom []) = [] := rfl
    rw [hnone] at hlines
    cases hlines
  have hnext : ∀ c ∈ rest.head?, c = '\n' := by
    intro c hc
    apply htail c
    cases rest with
    | nil => cases hc
    | cons d rest => exact hc
  obtain ⟨more, hmore⟩ : ∃ more, visibleLines (stripBom head ++ rest) =
      visibleLines (stripBom head) ++ more := visibleLines_append hnext
  rw [hlines] at hmore
  rw [stripBom_append hhead]
  apply sniffLines_true hmore _ (Nat.zero_lt_succ 1) (Nat.le_refl 2)
  intro u hu
  rcases List.mem_pair.mp hu with rfl | rfl
  · exact hv
  · exact hw

theorem sniffIsJsonl_encode (text : Str) : sniffIsJsonl isJson (encode text) =
    match splitAtByte text (min (byteLen text) JSONL_SNIFF_WINDOW) with
    | none => false
    | some (p, _) => sniffLines isJson 0 ((stripBom p).splitOn '\n') := by
  unfold sniffIsJsonl
  rw [length_encode, decode_take (Nat.min_le_left _ _)]
  cases splitAtByte text (min (byteLen text) JSONL_SNIFF_WINDOW) <;> rfl

/-- A file that begins as JSON Lines is taken for it unless the window is cut inside a character. -/
theorem sniffIsJsonl_iff {text : Str} (h : StartsAsJsonl isJson text) :
    sniffIsJsonl isJson (encode text) = true ↔
      byteLen text ≤ JSONL_SNIFF_WINDOW ∨ IsBoundary text JSONL_SNIFF_WINDOW := by
  rw [sniffIsJsonl_encode]
  cases hcut : splitAtByte text (min (byteLen text) JSONL_SNIFF_WINDOW) with
  | some cut =>
    obtain ⟨rfl, hlen⟩ := splitAtByte_eq_some.mp hcut
    rw [byteLen_append] at hlen
    constructor
    · intro _
      by_cases hfits : byteLen (cut.1 ++ cut.2) ≤ JSONL_SNIFF_WINDOW
      · exact Or.inl hfits
      · right
        rw [byteLen_append] at hfits
        exact ⟨cut.1, cut.2, rfl, by omega⟩
    · intro _
      apply h.sniffed
      intro hq
      have hpos := byteLen_pos hq
      omega
  | none =>
    constructor
    · nofun
    · intro hfits
      exfalso
      have hb : IsBoundary text (min (byteLen text) JSONL_SNIFF_WINDOW) := by
        rcases hfits with hle | hb
        · rw [Nat.min_eq_left hle]
          exact isBoundary_byteLen text
        · rwa [Nat.min_eq_right hb.le]
      obtain ⟨p, q, htext, hp⟩ := hb
      rw [splitAtByte_eq_some.mpr ⟨htext, hp⟩] at hcut
      cases hcut

/-- Reads numbers and strings without escapes only. -/
def isScalar (line : Str) : Bool :=
  JsonText.isNumber line || (line.head? == some '"' && (line.drop 1).dropLast.all JsonText.isPlain &&
    (line.drop 1).getLast? == some '"')

theorem sniffIsJsonl_iff_twoNumbers :
    sniffIsJsonl isScalar (encode "1\n2\n".toList) = true ↔
      byteLen "1\n2\n".toList ≤ JSONL_SNIFF_WINDOW ∨
        IsBoundary "1\n2\n".toList JSONL_SNIFF_WINDOW :=
  sniffIsJsonl_iff ⟨"1\n2".toList, "\n".toList, "1".toList, "2".toList, by decide,
    fun _ hc => (Option.some.inj hc).symm, by decide, by decide +kernel, by decide +kernel,
    by decide +kernel⟩

/-- Two numbers, and a string of 40000 characters with two bytes each. -/
def accentedRecords : Str := "1\n2\n\"".toList ++ (List.replicate 40000 'é' ++ "\"\n".toList)

theorem byteLen_replicate (n : Nat) (c : Char) : byteLen (List.replicate n c) = n * c.utf8Size := by
  induction n with
  | zero => simp
  | succ n ih =>
    rw [List.replicate_succ, byteLen_cons, ih, Nat.succ_mul, Nat.add_comm]

theorem byteLen_accentedRecords : byteLen accentedRecords = 80007 := by
  unfold accentedRecords
  rw [byteLen_append, byteLen_append, byteLen_replicate]
  decide

theorem accentedRecords_cut : ¬ IsBoundary accentedRecords JSONL_SNIFF_WINDOW := by
  intro h
  have hsplit : List.replicate 40000 'é' =
      List.replicate 32765 'é' ++ 'é' :: List.replicate 7234 'é' := by
    rw [show 40000 = 32765 + (7234 + 1) from rfl, ← List.replicate_append_replicate,
      List.replicate_succ (n := 7234)]
  have hbytes : byteLen ("1\n2\n\"".toList ++ List.replicate 32765 'é') = 65535 := by
    rw [byteLen_append, byteLen_replicate]
    decide
  unfold accentedRecords at h
  rw [hsplit, List.append_assoc, ← List.append_assoc] at h
  have hsize : ('é').utf8Size = 2 := by decide
  have hside := h.beside
  rw [hbytes, hsize] at hside
  unfold JSONL_SNIFF_WINDOW at hside
  omega

/-- The window ends inside a character of the third record. -/
theorem sniffIsJsonl_cut : StartsAsJsonl isScalar accentedRecords ∧
    sniffIsJsonl isScalar (encode accentedRecords) = false := by
  constructor
  · refine ⟨"1\n2".toList, "\n\"".toList ++ (List.replicate 40000 'é' ++ "\"\n".toList), "1".toList,
      "2".toList, ?_, fun _ hc => (Option.some.inj hc).symm, by decide, by decide +kernel,
      by decide +kernel, by decide +kernel⟩
    rw [← List.append_assoc]
    rfl
  · rw [sniffIsJsonl_encode]
    cases hcut : splitAtByte accentedRecords (min (byteLen accentedRecords) JSONL_SNIFF_WINDOW) with
    | none => rfl
    | some cut =>
      obtain ⟨hsplit, hlen⟩ := splitAtByte_eq_some.mp hcut
      rw [byteLen_accentedRecords] at hlen
      exact absurd ⟨cut.1, cut.2, hsplit, hlen⟩ accentedRecords_cut

end Window

end LensLM
