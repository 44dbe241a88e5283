import LensLM.Lib.RomanNumerals
import LensLM.Citation
import LensLM.Resolution

/-!
# Positional queries

A query such as "chapter 2" names a unit by its number, in digits, in a word or in Roman letters. Any
word of Roman letters has a number here, so that "civil" is 153.
-/

namespace LensLM

open ByteText RomanNumerals

set_option autoImplicit false

inductive StructuralKind where
  | chapter
  | sectionUnit
  | part
deriving DecidableEq

inductive NamedSection where
  | introduction
  | conclusion
deriving DecidableEq

inductive StructuralTarget where
  | ordinal (kind : StructuralKind) (ordinal : Nat)
  | named (name : NamedSection)
deriving DecidableEq

/-! ## Numbers -/

def WORDS : List Str := ["one".toList, "two".toList, "three".toList, "four".toList, "five".toList,
  "six".toList, "seven".toList, "eight".toList, "nine".toList, "ten".toList, "eleven".toList,
  "twelve".toList, "thirteen".toList, "fourteen".toList, "fifteen".toList, "sixteen".toList,
  "seventeen".toList, "eighteen".toList, "nineteen".toList, "twenty".toList]

def ORDINALS : List Str := ["first".toList, "second".toList, "third".toList, "fourth".toList,
  "fifth".toList, "sixth".toList, "seventh".toList, "eighth".toList, "ninth".toList,
  "tenth".toList, "eleventh".toList, "twelfth".toList, "thirteenth".toList, "fourteenth".toList,
  "fifteenth".toList, "sixteenth".toList, "seventeenth".toList, "eighteenth".toList,
  "nineteenth".toList, "twentieth".toList]

def ordinalSuffixes : List Str := [[], "st".toList, "nd".toList, "rd".toList, "th".toList]

/-- `str::parse::<u32>` on a string of digits. -/
def parseU32 (digits : Str) : Option Nat :=
  let n := Nat.ofDigitChars 10 digits 0
  if n < 2 ^ 32 then some n else none

def wordCardinal (tok : Str) : Option Nat :=
  ((WORDS.idxOf? tok).or (ORDINALS.idxOf? tok)).map (· + 1)

-- the sum fits into an `i64`, and is cut to a `u32`
def romanCardinal (tok : Str) : Option Nat :=
  if tok.isEmpty || !tok.all (letters.contains ·) then none
  else if 0 < total tok then some ((total tok).toNat % 2 ^ 32) else none

def parseCardinal (tok : Str) : Option Nat :=
  let digits := tok.takeWhile Char.isDigit
  if digits ≠ [] then
    if tok.drop digits.length ∈ ordinalSuffixes then parseU32 digits else none
  else (wordCardinal tok).or (romanCardinal tok)

/-- The number that a token stands for. -/
inductive Reads : Str → Nat → Prop
  | decimal (digits suffix : Str) (hne : digits ≠ []) (hdigits : ∀ c ∈ digits, c.isDigit = true)
      (hsuffix : suffix ∈ ordinalSuffixes) (hlt : Nat.ofDigitChars 10 digits 0 < 2 ^ 32) :
      Reads (digits ++ suffix) (Nat.ofDigitChars 10 digits 0)
  | cardinalWord {i : Nat} {tok : Str} (h : WORDS[i]? = some tok) : Reads tok (i + 1)
  | ordinalWord {i : Nat} {tok : Str} (h : ORDINALS[i]? = some tok) : Reads tok (i + 1)
  | roman {tok : Str} {n : Nat} (h : Canonical tok n) : Reads tok n

/-! ## Queries -/

def structuralNoun (tok : Str) : Option StructuralKind :=
  if tok = "chapter".toList ∨ tok = "ch".toList then some .chapter
  else if tok = "section".toList then some .sectionUnit
  else if tok = "part".toList then some .part
  else none

def namedSection (tok : Str) : Option NamedSection :=
  if tok = "introduction".toList ∨ tok = "intro".toList then some .introduction
  else if tok = "conclusion".toList then some .conclusion
  else none

/-- A structural noun with a number behind it or before it. -/
def findOrdinal (prev : Option Str) : List Str → Option StructuralTarget
  | [] => none
  | tok :: rest =>
    match structuralNoun tok with
    | none => findOrdinal (some tok) rest
    | some kind =>
      match rest.head?.bind parseCardinal with
      | some next => some (.ordinal kind next)
      | none =>
        match prev.bind parseCardinal with
        | some before => some (.ordinal kind before)
        | none => findOrdinal (some tok) rest

def findNamed : List Str → Option StructuralTarget
  | [] => none
  | tok :: rest =>
    match (if tok = "the".toList then rest.head?.bind namedSection else none) with
    | some name => some (.named name)
    | none => findNamed rest

section Text

variable (toLowercase : Str → Str) (isAlphanumeric : Char → Bool)

def trimToken (t : Str) : Str :=
  ((t.dropWhile fun c => !isAlphanumeric c).reverse.dropWhile fun c => !isAlphanumeric c).reverse

def queryTokens (query : Str) : List Str :=
  ((splitWhitespace (toLowercase query)).map (trimToken isAlphanumeric)).filter fun t => !t.isEmpty

def detectStructuralTarget (query : Str) : Option StructuralTarget :=
  let toks := queryTokens toLowercase isAlphanumeric query
  (findOrdinal none toks).or (findNamed toks)

end Text

/-! ## What the tokens stand for -/

def RomanWord (tok : Str) : Prop := tok ≠ [] ∧ ∀ c ∈ tok, c ∈ letters

theorem romanWord_of_canonical {tok : Str} {n : Nat} (h : Canonical tok n) : RomanWord tok := by
  obtain ⟨hpos, -, rfl⟩ := h
  exact ⟨numeral_ne_nil hpos, fun c hc => mem_letters_numeral hc⟩

theorem all_letters_iff {tok : Str} :
    tok.all (letters.contains ·) = true ↔ ∀ c ∈ tok, c ∈ letters := by
  rw [List.all_eq_true]
  simp only [List.contains_iff_mem]

theorem letter_not_digit {c : Char} (h : c ∈ letters) : ¬c.isDigit = true := by
  have hall : (letters.all fun c => !c.isDigit) = true := by decide
  simpa using List.all_eq_true.mp hall c h

/-- Every word of the tables has a letter that is not Roman. -/
theorem words_not_roman {w : Str} (hw : w ∈ WORDS ++ ORDINALS) : ¬∀ c ∈ w, c ∈ letters := by
  have hall : ∀ w ∈ WORDS ++ ORDINALS, w.all (letters.contains ·) = false := by
    decide +kernel
  intro h
  have hfalse := hall w hw
  rw [all_letters_iff.mpr h] at hfalse
  cases hfalse

theorem words_no_digits : ∀ w ∈ WORDS ++ ORDINALS, w.takeWhile Char.isDigit = [] := by
  decide +kernel

theorem ordinals_not_words : ∀ w ∈ ORDINALS, w ∉ WORDS := by decide +kernel

theorem words_nodup : WORDS.Nodup ∧ ORDINALS.Nodup := by decide +kernel

theorem idxOf_eq_of_getElem {l : List Str} (hl : l.Nodup) {i : Nat} {w : Str}
    (h : l[i]? = some w) : l.idxOf? w = some i := by
  obtain ⟨hi, hw⟩ := List.getElem?_eq_some_iff.mp h
  apply List.idxOf?_eq_some_iff.mpr
  refine ⟨hi, hw, ?_⟩
  intro j hj heq
  have hij := (List.Nodup.getElem_inj_iff hl).mp (heq.trans hw.symm)
  omega

theorem getElem_of_idxOf_eq {l : List Str} {i : Nat} {w : Str} (h : l.idxOf? w = some i) :
    l[i]? = some w := by
  obtain ⟨hi, hw, -⟩ := List.idxOf?_eq_some_iff.mp h
  exact List.getElem?_eq_some_iff.mpr ⟨hi, hw⟩

/-- A Roman word has the number of its sum. -/
theorem parseCardinal_romanWord {tok : Str} (h : RomanWord tok) :
    parseCardinal tok = some ((total tok).toNat % 2 ^ 32) := by
  obtain ⟨hne, hletters⟩ := h
  have hdigits : tok.takeWhile Char.isDigit = [] := by
    cases tok with
    | nil => rfl
    | cons c tok =>
      exact List.takeWhile_cons_of_neg (letter_not_digit (hletters c List.mem_cons_self))
  have hword : wordCardinal tok = none := by
    have hwords : WORDS.idxOf? tok = none := by
      apply List.idxOf?_eq_none_iff.mpr
      intro hmem
      exact words_not_roman (List.mem_append_left _ hmem) hletters
    have hordinals : ORDINALS.idxOf? tok = none := by
      apply List.idxOf?_eq_none_iff.mpr
      intro hmem
      exact words_not_roman (List.mem_append_right _ hmem) hletters
    unfold wordCardinal
    rw [hwords, hordinals]
    rfl
  have hroman : romanCardinal tok = some ((total tok).toNat % 2 ^ 32) := by
    unfold romanCardinal
    rw [all_letters_iff.mpr hletters, if_neg (by simpa using hne),
      if_pos (total_pos hne hletters)]
  unfold parseCardinal
  rw [hdigits, hword, hroman]
  rfl

theorem parseCardinal_word {tok : Str} (h : tok ∈ WORDS ++ ORDINALS) {v : Nat}
    (hv : wordCardinal tok = some v) : parseCardinal tok = some v := by
  unfold parseCardinal
  rw [words_no_digits tok h, hv]
  rfl

theorem takeWhile_digits {digits suffix : Str} (hdigits : ∀ c ∈ digits, c.isDigit = true)
    (hsuffix : suffix ∈ ordinalSuffixes) :
    (digits ++ suffix).takeWhile Char.isDigit = digits := by
  have hnone : ∀ s ∈ ordinalSuffixes, s.takeWhile Char.isDigit = [] := by decide
  rw [List.takeWhile_append_of_pos hdigits, hnone suffix hsuffix, List.append_nil]

theorem parseU32_eq_some {digits : Str} {v : Nat} : parseU32 digits = some v ↔
    Nat.ofDigitChars 10 digits 0 < 2 ^ 32 ∧ Nat.ofDigitChars 10 digits 0 = v := by
  unfold parseU32
  simp only [Option.ite_none_right_eq_some, Option.some.injEq]

/-- Every numeral is read. -/
theorem Reads.parse {tok : Str} {v : Nat} (h : Reads tok v) : parseCardinal tok = some v := by
  cases h with
  | decimal digits suffix hne hdigits hsuffix hlt =>
    unfold parseCardinal
    dsimp only
    rw [takeWhile_digits hdigits hsuffix, if_pos hne, List.drop_left, if_pos hsuffix]
    exact parseU32_eq_some.mpr ⟨hlt, rfl⟩
  | cardinalWord hword =>
    apply parseCardinal_word (List.mem_append_left _ (List.mem_of_getElem? hword))
    unfold wordCardinal
    rw [idxOf_eq_of_getElem words_nodup.1 hword]
    rfl
  | ordinalWord hword =>
    have hmem := List.mem_of_getElem? hword
    apply parseCardinal_word (List.mem_append_right _ hmem)
    unfold wordCardinal
    rw [List.idxOf?_eq_none_iff.mpr (ordinals_not_words tok hmem),
      idxOf_eq_of_getElem words_nodup.2 hword]
    rfl
  | roman hcanonical =>
    rw [parseCardinal_romanWord (romanWord_of_canonical hcanonical)]
    obtain ⟨-, hlt, rfl⟩ := hcanonical
    rw [total_numeral, Int.toNat_natCast, Nat.mod_eq_of_lt (by omega)]

/-- What is read is a numeral, or a Roman word. -/
theorem reads_of_parse {tok : Str} {v : Nat} (h : parseCardinal tok = some v) :
    Reads tok v ∨ RomanWord tok := by
  unfold parseCardinal at h
  dsimp only at h
  split at h
  · next hne =>
    left
    split at h
    · next hsuffix =>
      obtain ⟨hlt, rfl⟩ := parseU32_eq_some.mp h
      have hdigits : ∀ c ∈ tok.takeWhile Char.isDigit, c.isDigit = true :=
        fun c hc => List.mem_takeWhile_imp hc
      have hreads := Reads.decimal _ _ hne hdigits hsuffix hlt
      have hbegin : tok.takeWhile Char.isDigit <+: tok := List.takeWhile_prefix _
      rw [List.prefix_iff_eq_append.mp hbegin] at hreads
      exact hreads
    · cases h
  · rcases Option.or_eq_some_iff.mp h with hword | ⟨-, hroman⟩
    · left
      unfold wordCardinal at hword
      obtain ⟨i, hi, rfl⟩ := Option.map_eq_some_iff.mp hword
      rcases Option.or_eq_some_iff.mp hi with hi | ⟨-, hi⟩
      · exact .cardinalWord (getElem_of_idxOf_eq hi)
      · exact .ordinalWord (getElem_of_idxOf_eq hi)
    · right
      unfold romanCardinal at hroman
      split at hroman
      · cases hroman
      · next hword =>
        have hwritten : tok ≠ [] ∧ tok.all (letters.contains ·) = true := by
          simpa using hword
        exact ⟨hwritten.1, all_letters_iff.mp hwritten.2⟩

/-- A Roman word has no other number than that of a canonical numeral. -/
theorem canonical_of_reads {tok : Str} {v : Nat} (hroman : RomanWord tok) (h : Reads tok v) :
    Canonical tok v := by
  obtain ⟨hne, hletters⟩ := hroman
  cases h with
  | decimal digits suffix hdne hdigits hsuffix hlt =>
    cases digits with
    | nil => exact absurd rfl hdne
    | cons c digits =>
      exact absurd (hdigits c List.mem_cons_self)
        (letter_not_digit (hletters c List.mem_cons_self))
  | cardinalWord hword =>
    have hmem := List.mem_append_left ORDINALS (List.mem_of_getElem? hword)
    exact absurd hletters (words_not_roman hmem)
  | ordinalWord hword =>
    have hmem := List.mem_append_right WORDS (List.mem_of_getElem? hword)
    exact absurd hletters (words_not_roman hmem)
  | roman hcanonical => exact hcanonical

/-- A token of Roman letters is a canonical numeral. -/
def WellWritten (tok : Str) : Prop := RomanWord tok → ∃ n, Canonical tok n

/-- A token has just the numbers that it stands for. -/
def Exact (tok : Str) : Prop := ∀ v, parseCardinal tok = some v ↔ Reads tok v

theorem exact_iff (tok : Str) : Exact tok ↔ WellWritten tok := by
  constructor
  · intro h hroman
    have hreads := (h _).mp (parseCardinal_romanWord hroman)
    exact ⟨_, canonical_of_reads hroman hreads⟩
  · intro h v
    constructor
    · intro hparse
      rcases reads_of_parse hparse with hreads | hroman
      · exact hreads
      · obtain ⟨n, hn⟩ := h hroman
        have hvalue := (Reads.roman hn).parse
        rw [hparse] at hvalue
        cases hvalue
        exact .roman hn
    · exact Reads.parse

/-! ## What a query names -/

/-- A structural noun has a numeral of the number behind it or before it. -/
def Names (toks : List Str) (kind : StructuralKind) (n : Nat) : Prop :=
  ∃ before noun behind, toks = before ++ noun :: behind ∧ structuralNoun noun = some kind ∧
    ((∃ t, behind.head? = some t ∧ Reads t n) ∨ ∃ t, before.getLast? = some t ∧ Reads t n)

theorem findOrdinal_cases {prev : Option Str} {toks : List Str} {target : StructuralTarget}
    (h : findOrdinal prev toks = some target) {seen : List Str} (hprev : seen.getLast? = prev) :
    ∃ before noun behind kind n, seen ++ toks = before ++ noun :: behind ∧
      structuralNoun noun = some kind ∧ target = .ordinal kind n ∧
      (behind.head?.bind parseCardinal = some n ∨ before.getLast?.bind parseCardinal = some n) := by
  induction toks generalizing prev seen with
  | nil => cases h
  | cons tok rest ih =>
    have hlast : (seen ++ [tok]).getLast? = some tok := List.getLast?_concat
    have happend : seen ++ tok :: rest = seen ++ [tok] ++ rest := by simp
    unfold findOrdinal at h
    split at h
    · rw [happend]
      exact ih h hlast
    · next kind hkind =>
      split at h
      · next n hn =>
        cases h
        exact ⟨seen, tok, rest, kind, n, rfl, hkind, rfl, .inl hn⟩
      · split at h
        · next n hn =>
          cases h
          subst hprev
          exact ⟨seen, tok, rest, kind, n, rfl, hkind, rfl, .inr hn⟩
        · rw [happend]
          exact ih h hlast

theorem findNamed_named {toks : List Str} {target : StructuralTarget}
    (h : findNamed toks = some target) : ∃ name, target = .named name := by
  induction toks with
  | nil => cases h
  | cons tok rest ih =>
    unfold findNamed at h
    split at h
    · next name hname =>
      cases h
      exact ⟨name, rfl⟩
    · exact ih h

section Queries

variable (toLowercase : Str → Str) (isAlphanumeric : Char → Bool)

/-- The query gets a numbered target only if it names it. -/
def SoundlyScoped (query : Str) : Prop := ∀ kind n,
  detectStructuralTarget toLowercase isAlphanumeric query = some (.ordinal kind n) →
    Names (queryTokens toLowercase isAlphanumeric query) kind n

theorem soundlyScoped_of_exact {query : Str}
    (h : ∀ t ∈ queryTokens toLowercase isAlphanumeric query, Exact t) :
    SoundlyScoped toLowercase isAlphanumeric query := by
  intro kind n hdetect
  unfold detectStructuralTarget at hdetect
  rcases Option.or_eq_some_iff.mp hdetect with hordinal | ⟨-, hnamed⟩
  · have hnil : ([] : List Str).getLast? = none := rfl
    obtain ⟨before, noun, behind, kind', n', heq, hkind, htarget, hnumber⟩ :=
      findOrdinal_cases hordinal hnil
    cases htarget
    rw [List.nil_append] at heq
    refine ⟨before, noun, behind, heq, hkind, ?_⟩
    rcases hnumber with hnumber | hnumber
    · left
      obtain ⟨t, ht, hparse⟩ := Option.bind_eq_some_iff.mp hnumber
      have hmem : t ∈ queryTokens toLowercase isAlphanumeric query := by
        rw [heq]
        exact List.mem_append_right _ (List.mem_cons_of_mem _ (List.mem_of_mem_head? ht))
      exact ⟨t, ht, (h t hmem _).mp hparse⟩
    · right
      obtain ⟨t, ht, hparse⟩ := Option.bind_eq_some_iff.mp hnumber
      have hmem : t ∈ queryTokens toLowercase isAlphanumeric query := by
        rw [heq]
        exact List.mem_append_left _ (List.mem_of_mem_getLast? ht)
      exact ⟨t, ht, (h t hmem _).mp hparse⟩
  · obtain ⟨name, hname⟩ := findNamed_named hnamed
    cases hname

end Queries

theorem civil_not_read : ¬Reads "civil".toList 153 := by
  intro h
  have hroman : RomanWord "civil".toList := ⟨by decide, all_letters_iff.mp (by decide)⟩
  obtain ⟨-, -, heq⟩ := canonical_of_reads hroman h
  exact absurd heq (by decide)

theorem civilPart_not_named :
    ¬Names ["the".toList, "civil".toList, "part".toList] .part 153 := by
  intro h
  obtain ⟨before, noun, behind, heq, hkind, hnumber⟩ := h
  cases before with
  | nil =>
    rw [List.nil_append, List.cons.injEq] at heq
    rw [← heq.1] at hkind
    cases hkind
  | cons first before =>
    rw [List.cons_append, List.cons.injEq] at heq
    cases before with
    | nil =>
      rw [List.nil_append, List.cons.injEq] at heq
      rw [← heq.2.1] at hkind
      cases hkind
    | cons second before =>
      rw [List.cons_append, List.cons.injEq] at heq
      cases before with
      | nil =>
        rw [List.nil_append, List.cons.injEq] at heq
        obtain ⟨-, rfl, rfl, rfl⟩ := heq
        rcases hnumber with ⟨t, ht, -⟩ | ⟨t, ht, hreads⟩
        · cases ht
        · cases ht
          exact civil_not_read hreads
      | cons third before =>
        rw [List.cons_append, List.cons.injEq] at heq
        exact absurd heq.2.2.2.symm (by simp)

end LensLM
