import LensLM.Lib.Fts5
import LensLM.Lib.Words
import LensLM.Resolution

/-!
# The lexical query

What a user types is made into an expression of the full-text index: every character that is no
letter or digit becomes a blank, and the operators are dropped.
-/

namespace LensLM

open ByteText Words

set_option autoImplicit false

section Sanitize

variable (unicode : Char → Bool)

/-- `unicode` is the table of the letters and digits beyond ASCII. -/
def isAlphanumeric (c : Char) : Bool := if c.toNat < 128 then c.isAlphanum else unicode c

def fts5Operators : List Str := ["AND", "OR", "NOT", "NEAR"].map String.toList

def mapToSpaces (query : Str) : Str :=
  query.map fun c => if isAlphanumeric unicode c then c else ' '

/-- The tokens of a query that are left when the operators are dropped. -/
def remainingTokens (query : Str) : List Str :=
  (splitWhitespace (mapToSpaces unicode query)).filter fun t => !fts5Operators.contains t

def sanitizeFtsQuery (query : Str) : Option Str :=
  let tokens := remainingTokens unicode query
  if tokens.isEmpty then none else some ([' '].intercalate tokens)

end Sanitize

/-- The expression can be read, consists of plain words, and matches whatever text has one of the
tokens. -/
def SafeDisjunction (unicode : Char → Bool) (tok : Fts5.Tokenizer) (query : Str) : Prop :=
  ∀ e, sanitizeFtsQuery unicode query = some e →
    (∃ q, Fts5.ReadsText e q) ∧
    (∀ ts, Fts5.lex e = some ts → ∀ t ∈ ts, ∃ w, t = .word w) ∧
    ∀ q, Fts5.ReadsText e q → ∀ column doc,
      (∃ t ∈ remainingTokens unicode query, tok.fold t ∈ doc) → q.Matches tok column doc

section Words

variable {unicode : Char → Bool} {query : Str}

/-- A letter or digit is a bareword character. -/
theorem isBareword_of_isAlphanumeric {c : Char} (h : isAlphanumeric unicode c = true) :
    Fts5.isBareword c = true := by
  unfold isAlphanumeric at h
  split at h
  · simp [Fts5.isBareword, h]
  · next hbig =>
    have hbig : 128 ≤ c.toNat := by omega
    simp [Fts5.isBareword, hbig]

theorem remainingTokens_words {t : Str} (h : t ∈ remainingTokens unicode query) : Fts5.IsWord t := by
  obtain ⟨hsplit, hop⟩ := List.mem_filter.mp h
  obtain ⟨hpart, hne⟩ := List.mem_filter.mp hsplit
  refine ⟨?_, ?_, ?_⟩
  · rintro rfl
    simp at hne
  · intro c hc
    obtain ⟨hmem, hspace⟩ := mem_splitOnP hpart hc
    obtain ⟨d, -, rfl⟩ := List.mem_map.mp hmem
    by_cases hd : isAlphanumeric unicode d = true
    · rw [if_pos hd]
      exact isBareword_of_isAlphanumeric hd
    · rw [if_neg hd] at hspace
      exact absurd hspace (by decide)
  · have hmem : t ∉ fts5Operators := by simpa using hop
    rw [List.lookup_eq_none_iff]
    intro p hp
    by_contra hkey
    apply hmem
    have hnames : fts5Operators = Fts5.operators.map Prod.fst := rfl
    have hkey : t = p.1 := by simpa using hkey
    rw [hnames, hkey]
    exact List.mem_map_of_mem hp

end Words

/-- The terms of the expression have to match all, so that it is a disjunction only where all
tokens are one in the index. -/
theorem safeDisjunction_iff (unicode : Char → Bool) (tok : Fts5.Tokenizer) (query : Str) :
    SafeDisjunction unicode tok query ↔
      ∀ t ∈ remainingTokens unicode query, ∀ u ∈ remainingTokens unicode query,
        tok.fold t = tok.fold u := by
  have hwords : ∀ t ∈ remainingTokens unicode query, Fts5.IsWord t :=
    fun t ht => remainingTokens_words ht
  have hlex := Fts5.lex_words hwords
  have hmatches : ∀ q column doc, Fts5.ReadsText ([' '].intercalate (remainingTokens unicode query)) q →
      (q.Matches tok column doc ↔ ∀ t ∈ remainingTokens unicode query, tok.fold t ∈ doc) := by
    rintro q column doc ⟨ts, hts, hq⟩
    obtain rfl : (remainingTokens unicode query).map Fts5.Token.word = ts :=
      Option.some.inj (hlex.symm.trans hts)
    rw [hq.matches_words (by simp) tok column doc]
    simp
  unfold SafeDisjunction sanitizeFtsQuery
  by_cases hempty : remainingTokens unicode query = []
  · simp [hempty]
  · have hsome : (if (remainingTokens unicode query).isEmpty = true then none else
        some ([' '].intercalate (remainingTokens unicode query))) =
          some ([' '].intercalate (remainingTokens unicode query)) := by
      rw [if_neg (by simpa using hempty)]
    simp only [hsome]
    constructor
    · intro h t ht u hu
      obtain ⟨⟨q, hq⟩, -, hdoc⟩ := h _ rfl
      have hmatch := hdoc q hq [] [tok.fold t] ⟨t, ht, List.mem_singleton_self _⟩
      have hboth := (hmatches q [] [tok.fold t] hq).mp hmatch u hu
      exact (List.mem_singleton.mp hboth).symm
    · intro hsame e he
      obtain rfl := Option.some.inj he
      refine ⟨?_, ?_, ?_⟩
      · obtain ⟨q, hq⟩ := Fts5.reads_words hempty
        exact ⟨q, _, hlex, hq⟩
      · intro ts hts t ht
        obtain rfl := Option.some.inj (hlex.symm.trans hts)
        obtain ⟨w, -, rfl⟩ := List.mem_map.mp ht
        exact ⟨w, rfl⟩
      · rintro q hq column doc ⟨t, ht, hdoc⟩
        rw [hmatches q column doc hq]
        intro u hu
        rw [← hsame t ht u hu]
        exact hdoc

/-- A text with one of two words is not found. -/
theorem twoWords_conjoined :
    let tok : Fts5.Tokenizer := ⟨List.map Char.toLower, fun s => splitWhitespace (s.map Char.toLower)⟩
    ¬ SafeDisjunction (fun _ => false) tok "golden record".toList := by
  intro tok h
  have hlex : Fts5.lex "golden record".toList =
      some [.word "golden".toList, .word "record".toList] := by decide
  have hread : Fts5.Reads .or [.word "golden".toList, .word "record".toList]
      (.and (.word "golden".toList) (.word "record".toList)) :=
    .lift (by decide) (.beside (.lift (by decide) (.word _)) (.word _))
  obtain ⟨-, -, hdoc⟩ := h "golden record".toList (by decide)
  have hmatch := hdoc _ ⟨_, hlex, hread⟩ [] ["golden".toList]
    ⟨"golden".toList, by decide, by decide⟩
  have hrecord : tok.fold "record".toList ∈ ["golden".toList] := hmatch.2
  exact absurd hrecord (by decide)

end LensLM
