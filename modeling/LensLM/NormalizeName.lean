import LensLM.Lib.CaseMapping
import LensLM.Lib.Words
import LensLM.Resolution
import Mathlib.Tactic.SplitIfs

/-!
# Normalized names

The words of a name are joined by single blanks, the punctuation at the end is dropped, and what is
left is lower-cased. Nothing trims the blank that a last word of punctuation leaves behind.
-/

namespace LensLM

open ByteText CaseMapping Words

set_option autoImplicit false

/-- The tables for names: a blank has no case, and no blank or ASCII punctuation is a lower case of
anything else. -/
structure NameTables extends CaseTable where
  blank_fixed : ∀ c, isWhitespace c = true → toLower c = [c]
  blank_of_lower : ∀ c, ∀ d ∈ toLower c, isWhitespace d = true → isWhitespace c = true
  punctuation_of_lower : ∀ c, ∀ d ∈ toLower c,
    isAsciiPunctuation d = true → isAsciiPunctuation c = true

variable {u : NameTables}

section LowerCase

/-- What no character becomes, no character in a context becomes. -/
theorem mem_lowerOne_of {q : Char → Bool} (hsmall : q 'σ' = false) (hfinal : q 'ς' = false)
    (hq : ∀ c, ∀ d ∈ u.toLower c, q d = true → q c = true) {before after : Str} {c d : Char}
    (hc : q c = false) (hd : d ∈ u.lowerOne before c after) : q d = false := by
  unfold CaseTable.lowerOne at hd
  split at hd
  · rw [List.mem_singleton.mp hd]
    split
    · exact hfinal
    · exact hsmall
  · apply Bool.eq_false_iff.mpr
    intro htrue
    rw [hq c d hd htrue] at hc
    cases hc

theorem isWord_lowerWithin {w : Str} (h : IsWord isWhitespace w) (before after : Str) :
    IsWord isWhitespace (u.lowerWithin before w after) := by
  constructor
  · apply List.ne_nil_of_length_pos
    have hpos := List.length_pos_iff.mpr h.1
    have hle := CaseTable.length_le_lowerWithin (t := u.toCaseTable) before w after
    omega
  · intro d hd
    obtain ⟨c, hc, b, a, hd⟩ := CaseTable.exists_of_mem_lowerWithin hd
    exact mem_lowerOne_of rfl rfl u.blank_of_lower (h.2 c hc) hd

theorem lowerOne_blank (before after : Str) : u.lowerOne before ' ' after = [' '] := by
  rw [CaseTable.lowerOne, if_neg (by decide), u.blank_fixed ' ' rfl]

theorem toLowercase_concat_blank (s : Str) : ∃ v, u.toLowercase (s ++ [' ']) = v ++ [' '] := by
  refine ⟨u.lowerWithin [] s [' '], ?_⟩
  rw [CaseTable.toLowercase, CaseTable.lowerWithin_append, CaseTable.lowerWithin, lowerOne_blank]
  rfl

/-- Joined words are lower-cased word by word. -/
theorem lowerWithin_intercalate {ws : List Str} (h : ∀ w ∈ ws, IsWord isWhitespace w)
    (before after : Str) : ∃ ws', ws'.length = ws.length ∧ (∀ w ∈ ws', IsWord isWhitespace w) ∧
      u.lowerWithin before ([' '].intercalate ws) after = [' '].intercalate ws' := by
  induction ws generalizing before with
  | nil => exact ⟨[], rfl, nofun, rfl⟩
  | cons w ws ih =>
    obtain ⟨hw, hws⟩ := List.forall_mem_cons.mp h
    cases ws with
    | nil =>
      refine ⟨[u.lowerWithin before w after], rfl, ?_, ?_⟩
      · exact List.forall_mem_singleton.mpr (isWord_lowerWithin hw before after)
      · rw [List.intercalate_singleton, List.intercalate_singleton]
    | cons v ws =>
      obtain ⟨ws', hlen, hwords, hrest⟩ := ih hws (' ' :: (w.reverse ++ before))
      have hne : ws' ≠ [] := List.ne_nil_of_length_pos (by rw [hlen]; exact Nat.succ_pos _)
      let rest := ' ' :: [' '].intercalate (v :: ws) ++ after
      refine ⟨u.lowerWithin before w rest :: ws', congrArg Nat.succ hlen, ?_, ?_⟩
      · exact List.forall_mem_cons.mpr ⟨isWord_lowerWithin hw before rest, hwords⟩
      · rw [List.intercalate_cons_cons, List.append_assoc, List.intercalate_cons_of_ne_nil hne,
          CaseTable.lowerWithin_append, List.singleton_append, CaseTable.lowerWithin,
          lowerOne_blank, hrest, List.append_assoc]

/-- The last character stays none of the punctuation. -/
theorem rdropWhile_lowerWithin {s : Str} (h : s.rdropWhile isAsciiPunctuation = s)
    (before after : Str) : (u.lowerWithin before s after).rdropWhile isAsciiPunctuation =
      u.lowerWithin before s after := by
  cases s using List.reverseRecOn with
  | nil => rfl
  | append_singleton s c =>
    have hc : isAsciiPunctuation c = false := by
      have hlast := List.rdropWhile_eq_self_iff.mp h (by simp)
      rw [List.getLast_append_singleton] at hlast
      exact Bool.eq_false_iff.mpr hlast
    rw [CaseTable.lowerWithin_append]
    have hstays : (u.lowerWithin (s.reverse ++ before) [c] after).rdropWhile isAsciiPunctuation =
        u.lowerWithin (s.reverse ++ before) [c] after := by
      apply List.rdropWhile_eq_self_iff.mpr
      intro hne
      obtain ⟨c', hc', b, a, hd⟩ := CaseTable.exists_of_mem_lowerWithin (List.getLast_mem hne)
      rw [List.mem_singleton.mp hc'] at hd
      rw [mem_lowerOne_of rfl rfl u.punctuation_of_lower hc hd]
      exact Bool.false_ne_true
    rw [rdropWhile_append_of_ne_nil, hstays]
    rw [hstays]
    apply List.ne_nil_of_length_pos
    exact Nat.lt_of_lt_of_le Nat.one_pos (CaseTable.length_le_lowerWithin _ [c] after)

end LowerCase

section Claim

variable (u)

/-- The result is its own normal form, and is trimmed and collapsed. -/
def NormalName (name : Str) : Prop :=
  normalizeName u.toLowercase (normalizeName u.toLowercase name) =
    normalizeName u.toLowercase name ∧
  Tidy isWhitespace (normalizeName u.toLowercase name)

/-- Behind the first word, the last one is not punctuation alone. -/
def LastWordStays (name : Str) : Prop :=
  (splitWhitespace name).length ≤ 1 ∨
    ∀ w ∈ (splitWhitespace name).getLast?, ∃ c ∈ w, isAsciiPunctuation c = false

variable {u}

theorem isWord_of_mem_splitWhitespace {name w : Str} (h : w ∈ splitWhitespace name) :
    IsWord isWhitespace w := by
  obtain ⟨hpart, hne⟩ := List.mem_filter.mp h
  refine ⟨?_, fun c hc => (mem_splitOnP hpart hc).2⟩
  rintro rfl
  cases hne

/-- What is left of a name: words again, where the last word leaves something. -/
theorem rdropWhile_words {name : Str} (h : LastWordStays name) :
    ∃ ws, (∀ w ∈ ws, IsWord isWhitespace w) ∧
      ([' '].intercalate (splitWhitespace name)).rdropWhile isAsciiPunctuation =
        [' '].intercalate ws := by
  have hwords : ∀ w ∈ splitWhitespace name, IsWord isWhitespace w :=
    fun w hw => isWord_of_mem_splitWhitespace hw
  unfold LastWordStays at h
  generalize splitWhitespace name = ws at h hwords
  cases ws using List.reverseRecOn with
  | nil => exact ⟨[], nofun, rfl⟩
  | append_singleton ws w =>
    have hw := hwords w (by simp)
    have hws : ∀ v ∈ ws, IsWord isWhitespace v := fun v hv => hwords v (by simp [hv])
    by_cases hleft : w.rdropWhile isAsciiPunctuation = []
    · -- a single word of punctuation leaves nothing
      have hall := List.rdropWhile_eq_nil_iff.mp hleft
      rcases h with hlen | hlast
      · have hnil : ws = [] := List.length_eq_zero_iff.mp (by simpa using hlen)
        refine ⟨[], nofun, ?_⟩
        rw [hnil, List.nil_append, List.intercalate_singleton, hleft]
        rfl
      · obtain ⟨c, hc, hnot⟩ := hlast w (by simp)
        rw [hall c hc] at hnot
        cases hnot
    · have hrest : IsWord isWhitespace (w.rdropWhile isAsciiPunctuation) :=
        ⟨hleft, fun c hc => hw.2 c ((List.rdropWhile_prefix _ _).subset hc)⟩
      refine ⟨ws ++ [w.rdropWhile isAsciiPunctuation], ?_, ?_⟩
      · exact List.forall_mem_append.mpr ⟨hws, List.forall_mem_singleton.mpr hrest⟩
      · by_cases hnil : ws = []
        · rw [hnil, List.nil_append, List.nil_append, List.intercalate_singleton,
            List.intercalate_singleton]
        · rw [intercalate_concat _ hnil, intercalate_concat _ hnil, ← List.append_assoc,
            rdropWhile_append_of_ne_nil _ hleft, List.append_assoc]

theorem normalName_of_lastWordStays {name : Str} (h : LastWordStays name) : NormalName u name := by
  obtain ⟨ws, hwords, hleft⟩ := rdropWhile_words h
  obtain ⟨ws', _, hwords', hlower⟩ := lowerWithin_intercalate (u := u) hwords [] []
  have hends : ([' '].intercalate ws).rdropWhile isAsciiPunctuation = [' '].intercalate ws := by
    rw [← hleft]
    exact List.rdropWhile_idempotent _ _
  have hlast := rdropWhile_lowerWithin (u := u) hends [] []
  have hname : normalizeName u.toLowercase name = [' '].intercalate ws' := by
    rw [normalizeName, hleft]
    exact hlower
  have hsplit : splitWhitespace ([' '].intercalate ws') = ws' :=
    words_intercalate (p := isWhitespace) rfl hwords'
  constructor
  · rw [hname, normalizeName, hsplit, ← hlower, hlast]
    exact CaseTable.toLowercase_lowerWithin [] _ []
  · rw [hname]
    exact tidy_intercalate rfl hwords'

theorem lastWordStays_of_normalName {name : Str} (h : NormalName u name) : LastWordStays name := by
  by_contra hbad
  obtain ⟨-, htidy⟩ := h
  unfold LastWordStays at hbad
  unfold normalizeName at htidy
  generalize splitWhitespace name = ws at hbad htidy
  push Not at hbad
  obtain ⟨hmany, w, hw, hall⟩ := hbad
  obtain ⟨init, rfl⟩ := List.getLast?_eq_some_iff.mp hw
  have hne : init ≠ [] := by
    rintro rfl
    simp at hmany
  have hgone : w.rdropWhile isAsciiPunctuation = [] := by
    apply List.rdropWhile_eq_nil_iff.mpr
    intro c hc
    simpa using hall c hc
  -- the blank in front of the last word is all that is left of it
  have hblank : ([' '].intercalate (init ++ [w])).rdropWhile isAsciiPunctuation =
      [' '].intercalate init ++ [' '] := by
    rw [intercalate_concat _ hne, ← List.append_assoc, rdropWhile_append_of_eq_nil _ hgone,
      List.rdropWhile_concat_neg _ _ _ (by decide)]
  obtain ⟨v, hv⟩ := toLowercase_concat_blank (u := u) ([' '].intercalate init)
  dsimp only at htidy
  rw [hblank, hv] at htidy
  exact absurd (htidy.last ' ' List.getLast?_concat) (by decide)

/-- A name has a normal form, exactly when its last word is not punctuation alone behind others. -/
theorem normalizeName_normal_iff (u : NameTables) (name : Str) :
    NormalName u name ↔ LastWordStays name :=
  ⟨lastWordStays_of_normalName, normalName_of_lastWordStays⟩

/-- The entries of the tables that a small Latin text reads. -/
def smallTables : NameTables where
  toLower := fun c => if c = 'Σ' then ['σ'] else [c]
  isCased := fun c => c.isAlpha || c = 'Σ' || c = 'σ' || c = 'ς'
  isCaseIgnorable := fun c => c = '.' || c = ':' || c = '^' || c = Char.ofNat 0x27 ||
    c = Char.ofNat 0x60
  ne_nil := by
    intro c
    split_ifs <;> exact List.cons_ne_nil _ _
  fixed := by
    intro c d hd
    split_ifs at hd with hc
    · rw [List.mem_singleton.mp hd]
      rfl
    · rw [List.mem_singleton.mp hd, if_neg hc]
  capitalSigma := rfl
  finalSigma := rfl
  blank_fixed := by
    intro c hc
    rw [if_neg]
    rintro rfl
    cases hc
  blank_of_lower := by
    intro c d hd hblank
    split_ifs at hd with hc
    · rw [List.mem_singleton.mp hd] at hblank
      cases hblank
    · rwa [List.mem_singleton.mp hd] at hblank
  punctuation_of_lower := by
    intro c d hd hpunct
    split_ifs at hd with hc
    · rw [List.mem_singleton.mp hd] at hpunct
      cases hpunct
    · rwa [List.mem_singleton.mp hd] at hpunct

/-- A full stop on its own leaves the blank in front of it, which the second pass drops. -/
theorem normalizeName_blank_left : ¬ NormalName smallTables "foo .".toList := by
  intro ⟨htwice, _⟩
  have honce : normalizeName smallTables.toLowercase "foo .".toList = "foo ".toList := by
    decide +kernel
  rw [honce] at htwice
  exact absurd htwice (by decide +kernel)

end Claim

end LensLM
