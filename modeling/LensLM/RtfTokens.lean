import LensLM.RtfPrePass

/-!
# Tokens of RTF sources

A source is the rendering of tokens. Decoding replaces every Unicode word and its fallback by a
character, and drops the words that say how long fallbacks are. The scans of the pre-pass do so as
long as nothing in the rendering only looks like a word, and every fallback is as long as they count.
-/

namespace LensLM.Rtf

open ByteText

set_option autoImplicit false

section Tokens

structure Digits where
  text : Str
  nonempty : text ≠ []
  isDigit : ∀ c ∈ text, c.isDigit = true

structure Number where
  negative : Bool
  digits : Digits

def Number.text (n : Number) : Str := (if n.negative then ['-'] else []) ++ n.digits.text

/-- The name of a control word other than `u` and `uc`. -/
structure WordName where
  text : Str
  nonempty : text ≠ []
  letters : ∀ c ∈ text, c.isAlpha = true
  other : text ≠ ['u'] ∧ text ≠ ['u', 'c']

inductive RtfUnit where
  | text (c : Char) (h : isSpecial c = false)
  | escaped (c : Char) (h : isSpecial c = true)
  | hex (a b : Char) (h : isHexDigit a = true ∧ isHexDigit b = true)
  | word (name : WordName) (arg : Option Number) (spaced : Bool)

inductive RtfToken where
  | unit (u : RtfUnit)
  | openGroup
  | closeGroup
  | uc (n : Digits) (spaced : Bool)
  | unicode (n : Number) (spaced : Bool)

/-- A text that a word reads on into unless a space stands between them. -/
def needsSpace (numbered : Bool) (rest : Str) : Bool :=
  rest.head?.any fun c => c == ' ' || c.isDigit || (!numbered && (c == '-' || c.isAlpha))

/-- The space after a word, where it is needed or written anyway. -/
def delimiter (spaced numbered : Bool) (rest : Str) : Str :=
  if spaced || needsSpace numbered rest then [' '] else []

def argText (arg : Option Number) : Str := arg.elim [] Number.text

/-- The rendering of a unit before the rest. -/
def RtfUnit.before : RtfUnit → Str → Str
  | .text c _, rest => c :: rest
  | .escaped c _, rest => '\\' :: c :: rest
  | .hex a b _, rest => '\\' :: '\'' :: a :: b :: rest
  | .word name arg spaced, rest =>
    '\\' :: (name.text ++ (argText arg ++ (delimiter spaced arg.isSome rest ++ rest)))

def RtfToken.before : RtfToken → Str → Str
  | .unit u, rest => u.before rest
  | .openGroup, rest => '{' :: rest
  | .closeGroup, rest => '}' :: rest
  | .uc n spaced, rest => '\\' :: 'u' :: 'c' :: (n.text ++ (delimiter spaced true rest ++ rest))
  | .unicode n spaced, rest => '\\' :: 'u' :: (n.text ++ (delimiter spaced true rest ++ rest))

def render (ts : List RtfToken) : Str := ts.foldr RtfToken.before []

end Tokens

section Decoding

def codeOf (n : Number) : Int :=
  if n.negative then 65536 - numberOf n.digits.text else numberOf n.digits.text

def IsHigh (code : Int) : Prop := 0xD800 ≤ code ∧ code ≤ 0xDBFF

def IsLow (code : Int) : Prop := 0xDC00 ≤ code ∧ code ≤ 0xDFFF

instance (code : Int) : Decidable (IsHigh code) := inferInstanceAs (Decidable (_ ∧ _))

instance (code : Int) : Decidable (IsLow code) := inferInstanceAs (Decidable (_ ∧ _))

/-- The character of a surrogate pair. -/
def pairCode (high low : Int) : Int := 0x10000 + (high - 0xD800) * 0x400 + (low - 0xDC00)

def charToken (c : Char) : RtfToken :=
  if h : isSpecial c = true then .unit (.escaped c h)
  else .unit (.text c (Bool.eq_false_iff.mpr h))

def charTokens (code : Int) : List RtfToken := (charFromCode code).toList.map charToken

/-- How long fallbacks are in the group and in those around it, how much of one is to come, and a
high surrogate that nothing has followed. -/
structure RtfScope where
  uc : Nat
  saved : List Nat
  skip : Nat
  high : Option Int

def RtfScope.initial : RtfScope := ⟨1, [], 0, none⟩

def RtfScope.next (sc : RtfScope) : RtfToken → RtfScope
  | .unit _ => if sc.skip = 0 then { sc with high := none } else { sc with skip := sc.skip - 1 }
  | .openGroup => ⟨sc.uc, sc.uc :: sc.saved, 0, none⟩
  | .closeGroup => ⟨sc.saved.headD sc.uc, sc.saved.tail, 0, none⟩
  | .uc n _ => ⟨numberOf n.text, sc.saved, 0, none⟩
  | .unicode n _ =>
    ⟨sc.uc, sc.saved, sc.uc, if IsHigh (codeOf n) then some (codeOf n) else none⟩

/-- What a token stands for. -/
def RtfScope.shown (sc : RtfScope) : RtfToken → List RtfToken
  | .unit u => if sc.skip = 0 then [.unit u] else []
  | .openGroup => [.openGroup]
  | .closeGroup => [.closeGroup]
  | .uc _ _ => []
  | .unicode n _ =>
    match sc.high with
    | some high => charTokens (if IsLow (codeOf n) then pairCode high (codeOf n) else codeOf n)
    | none => charTokens (codeOf n)

def decoded (sc : RtfScope) : List RtfToken → List RtfToken
  | [] => []
  | t :: ts => sc.shown t ++ decoded (sc.next t) ts

def lineName : WordName := ⟨"line".toList, by decide, List.all_eq_true.mp (by decide), by decide⟩

def newName (name : WordName) : WordName :=
  if name.text = "par".toList then lineName else name

def lineWord : RtfToken → RtfToken
  | .unit (.word name arg spaced) => .unit (.word (newName name) arg spaced)
  | t => t

end Decoding

section Conditions

/-- The number of the last `uc` word in the text. -/
def lastUc (uc : Nat) : RtfToken → Nat
  | .uc n _ => numberOf n.text
  | _ => uc

/-- What a token needs to be decoded as it stands, before the rest. -/
def SafeAt (uc : Nat) (sc : RtfScope) (t : RtfToken) (ts : List RtfToken) : Prop :=
  match t with
  | .unit (.text _ _) | .unit (.hex _ _ _) => True
  | .unit (.escaped c _) =>
    sc.skip = 0 ∧ (c = '\\' → ucWord (render ts) = none ∧ uWord (render ts) = none)
  | .unit (.word _ arg spaced) => sc.skip = 0 ∧ delimiter spaced arg.isSome (render ts) =
      delimiter spaced arg.isSome (render (decoded (sc.next t) ts))
  | .openGroup | .closeGroup | .uc _ _ => sc.skip = 0
  | .unicode n _ => sc.skip = 0 ∧ uc = sc.uc ∧ (sc.high ≠ none → ¬ IsLow (codeOf n))

def Harmless (uc : Nat) (sc : RtfScope) : List RtfToken → Prop
  | [] => True
  | t :: ts => SafeAt uc sc t ts ∧ Harmless (lastUc uc t) (sc.next t) ts

def RtfToken.isBackslash : RtfToken → Bool
  | .unit (.escaped c _) => c == '\\'
  | _ => false

/-- The escaped backslashes that read as `par` with what follows them. -/
def parMisreads : List RtfToken → Nat
  | [] => 0
  | t :: ts => (if t.isBackslash && isPar (render ts) then 1 else 0) + parMisreads ts

end Conditions

section Reading

theorem takeWhile_append_eq {p : Char → Bool} {xs ys : Str} (hx : ∀ c ∈ xs, p c = true)
    (hy : ∀ c ∈ ys.head?, p c = false) : (xs ++ ys).takeWhile p = xs := by
  rw [List.takeWhile_append_of_pos hx]
  cases ys with
  | nil => exact List.append_nil xs
  | cons c ys => rw [List.takeWhile_cons_of_neg (by rw [hy c rfl]; decide), List.append_nil]

theorem dropWhile_append_eq {p : Char → Bool} {xs ys : Str} (hx : ∀ c ∈ xs, p c = true)
    (hy : ∀ c ∈ ys.head?, p c = false) : (xs ++ ys).dropWhile p = ys := by
  rw [List.dropWhile_append_of_pos hx]
  cases ys with
  | nil => rfl
  | cons c ys => rw [List.dropWhile_cons_of_neg (by rw [hy c rfl]; decide)]

theorem isAlpha_of_isDigit {c : Char} (h : c.isDigit = true) : c.isAlpha = false := by
  delta Char.isAlpha Char.isUpper Char.isLower
  delta Char.isDigit at h
  grind

theorem head_delimited (spaced numbered : Bool) (rest : Str) :
    ∀ c ∈ (delimiter spaced numbered rest ++ rest).head?, c.isDigit = false := by
  intro c hc
  unfold delimiter at hc
  split at hc
  · cases hc
    decide
  · rename_i h
    rw [List.nil_append] at hc
    simp only [needsSpace, Option.mem_def.mp hc, Bool.or_eq_true, not_or, Option.any_some] at h
    exact Bool.eq_false_iff.mpr h.2.1.2

theorem skipSpace_delimited (spaced numbered : Bool) (rest : Str) :
    skipSpace (delimiter spaced numbered rest ++ rest) = rest := by
  unfold delimiter
  split
  · rfl
  · rename_i h
    unfold skipSpace
    rw [List.nil_append, if_neg]
    intro hspace
    apply h
    simp [needsSpace, hspace]

theorem digits_delimited (n : Digits) (spaced : Bool) (rest : Str) :
    digits (n.text ++ (delimiter spaced true rest ++ rest)) = n.text :=
  takeWhile_append_eq n.isDigit (head_delimited spaced true rest)

theorem afterDigits_delimited (n : Digits) (spaced : Bool) (rest : Str) :
    skipSpace (afterDigits (n.text ++ (delimiter spaced true rest ++ rest))) = rest := by
  rw [afterDigits, dropWhile_append_eq n.isDigit (head_delimited spaced true rest),
    skipSpace_delimited]

theorem ucWord_rendered (n : Digits) (spaced : Bool) (rest : Str) :
    ucWord ('u' :: 'c' :: (n.text ++ (delimiter spaced true rest ++ rest))) =
      some (numberOf n.text, rest) := by
  simp only [ucWord, digits_delimited, afterDigits_delimited, if_neg n.nonempty]

theorem head_digits (n : Digits) (rest : Str) : ∃ d ds, n.text ++ rest = d :: ds ∧
    d.isDigit = true := by
  obtain ⟨text, hne, hdigit⟩ := n
  cases text with
  | nil => exact absurd rfl hne
  | cons d ds => exact ⟨d, ds ++ rest, rfl, hdigit d List.mem_cons_self⟩

theorem uWord_rendered (n : Number) (spaced : Bool) (rest : Str) :
    ucWord ('u' :: (n.text ++ (delimiter spaced true rest ++ rest))) = none ∧
      uWord ('u' :: (n.text ++ (delimiter spaced true rest ++ rest))) =
        some (charFromCode (codeOf n), rest) := by
  obtain ⟨negative, ds⟩ := n
  cases negative with
  | true =>
    refine ⟨rfl, ?_⟩
    simp only [Number.text, if_pos, List.cons_append, List.nil_append, uWord, digits_delimited,
      afterDigits_delimited, if_neg ds.nonempty, codeOf]
  | false =>
    obtain ⟨d, tail, heq, hd⟩ := head_digits ds (delimiter spaced true rest ++ rest)
    have hdigits := digits_delimited ds spaced rest
    have hafter := afterDigits_delimited ds spaced rest
    simp only [Number.text, Bool.false_eq_true, if_false, List.nil_append]
    constructor
    · rw [heq]
      unfold ucWord
      split
      · rename_i h
        cases h
        exact absurd hd (by decide)
      · rfl
    · unfold uWord
      split
      · rename_i h
        rw [heq] at h
        cases h
        exact absurd hd (by decide)
      · rename_i h
        cases h
        rw [hdigits, hafter, if_neg ds.nonempty]
        rfl
      · rename_i h
        exact absurd rfl (h _)

/-- The letters after a backslash are the name of the word there. -/
theorem letters_before (name : WordName) (arg : Option Number) (spaced : Bool) (rest : Str) :
    (name.text ++ (argText arg ++ (delimiter spaced arg.isSome rest ++ rest))).takeWhile
      Char.isAlpha = name.text := by
  apply takeWhile_append_eq name.letters
  intro c hc
  cases arg with
  | none =>
    rw [argText, Option.elim_none, List.nil_append, delimiter] at hc
    split at hc
    · cases hc
      decide
    · rename_i h
      rw [List.nil_append] at hc
      simp only [needsSpace, Option.mem_def.mp hc, Option.any_some] at h
      simp only [Option.isSome_none, Bool.not_false, Bool.true_and, Bool.or_eq_true, not_or] at h
      exact Bool.eq_false_iff.mpr h.2.2.2
  | some n =>
    obtain ⟨negative, ds⟩ := n
    obtain ⟨d, tail, heq, hd⟩ := head_digits ds (delimiter spaced true rest ++ rest)
    cases negative with
    | true =>
      cases hc
      decide
    | false =>
      simp only [argText, Option.elim_some, Number.text, Bool.false_eq_true, if_false,
        List.nil_append, Option.isSome_some, heq] at hc
      cases hc
      exact isAlpha_of_isDigit hd

theorem takeWhile_isAlpha_of_digit (p : Str) {d : Char} (hd : d.isAlpha = false) (ds : Str)
    (hp : ∀ c ∈ p, c.isAlpha = true) : (p ++ d :: ds).takeWhile Char.isAlpha = p :=
  takeWhile_append_eq hp fun c hc => by
    cases hc
    exact hd

/-- Only `u` and `uc` are read as the words of Unicode escapes. -/
theorem no_code {s : Str} (hu : s.takeWhile Char.isAlpha ≠ ['u'])
    (huc : s.takeWhile Char.isAlpha ≠ ['u', 'c']) : ucWord s = none ∧ uWord s = none := by
  have hdigit : ∀ {t : Str}, digits t ≠ [] → ∃ d ds, t = d :: ds ∧ d.isAlpha = false := by
    intro t ht
    cases t with
    | nil => exact absurd rfl ht
    | cons d ds =>
      refine ⟨d, ds, rfl, ?_⟩
      by_cases hd : d.isDigit = true
      · exact isAlpha_of_isDigit hd
      · exact absurd (List.takeWhile_cons_of_neg hd) ht
  constructor
  · unfold ucWord
    split
    · rename_i t
      split
      · rfl
      · rename_i ht
        obtain ⟨d, ds, rfl, hd⟩ := hdigit ht
        exact absurd (takeWhile_isAlpha_of_digit ['u', 'c'] hd ds
          (List.all_eq_true.mp (by decide))) huc
    · rfl
  · unfold uWord
    split
    · rename_i t
      exact absurd (takeWhile_isAlpha_of_digit ['u'] (by decide) t
        (List.all_eq_true.mp (by decide))) hu
    · rename_i t _
      split
      · rfl
      · rename_i ht
        obtain ⟨d, ds, rfl, hd⟩ := hdigit ht
        exact absurd (takeWhile_isAlpha_of_digit ['u'] hd ds
          (List.all_eq_true.mp (by decide))) hu
    · rfl

theorem isPar_iff {s : Str} : isPar s = true ↔ s.takeWhile Char.isAlpha = "par".toList := by
  constructor
  · intro h
    obtain ⟨hpar, hend⟩ := Bool.and_eq_true_iff.mp h
    obtain ⟨t, rfl⟩ := List.isPrefixOf_iff_prefix.mp hpar
    apply takeWhile_append_eq (List.all_eq_true.mp (by decide))
    intro c hc
    simpa [Option.mem_def.mp hc] using hend
  · intro h
    have hsplit := List.takeWhile_append_dropWhile (p := Char.isAlpha) (l := s)
    rw [h] at hsplit
    rw [← hsplit, isPar, List.isPrefixOf_iff_prefix.mpr (List.prefix_append _ _), Bool.true_and]
    cases hd : s.dropWhile Char.isAlpha with
    | nil => rfl
    | cons c t =>
      have hc := List.head?_dropWhile_not Char.isAlpha s
      rw [hd] at hc
      simpa using hc

theorem notMem_of_isAlpha {p : Str} (h : ∀ c ∈ p, c.isAlpha = true) : '\\' ∉ p :=
  fun hmem => absurd (h _ hmem) (by decide)

theorem backslash_notMem_arg (arg : Option Number) : '\\' ∉ argText arg := by
  cases arg with
  | none => exact List.not_mem_nil
  | some n =>
    intro h
    rcases List.mem_append.mp h with h | h
    · split at h
      · exact absurd h (by decide)
      · cases h
    · exact absurd (n.digits.isDigit _ h) (by decide)

theorem backslash_notMem_delimiter (spaced numbered : Bool) (rest : Str) :
    '\\' ∉ delimiter spaced numbered rest := by
  unfold delimiter
  split
  · decide
  · exact List.not_mem_nil

/-- The text of a word between its backslash and the rest has no backslash. -/
theorem backslash_notMem_word (name : WordName) (arg : Option Number) (d : Str) (hd : '\\' ∉ d) :
    '\\' ∉ name.text ++ (argText arg ++ d) := by
  simp only [List.mem_append, not_or]
  exact ⟨notMem_of_isAlpha name.letters, backslash_notMem_arg arg, hd⟩

end Reading

section Decode

theorem render_cons (t : RtfToken) (ts : List RtfToken) :
    render (t :: ts) = t.before (render ts) := rfl

theorem render_append (ts us : List RtfToken) :
    render (ts ++ us) = ts.foldr RtfToken.before (render us) := List.foldr_append

theorem decoded_cons (sc : RtfScope) (t : RtfToken) (ts : List RtfToken) :
    decoded sc (t :: ts) = sc.shown t ++ decoded (sc.next t) ts := rfl

theorem foldr_charTokens (code : Int) (rest : Str) :
    (charTokens code).foldr RtfToken.before rest =
      (charFromCode code).toList.flatMap literal ++ rest := by
  unfold charTokens
  cases charFromCode code with
  | none => rfl
  | some c =>
    simp only [Option.toList_some, List.map_singleton, List.foldr_cons, List.foldr_nil,
      List.flatMap_singleton, charToken, literal]
    split <;> rfl

theorem skipFallback_nil (n : Nat) : skipFallback n [] = [] := by
  induction n with
  | zero => rfl
  | succ n ih => exact ih

theorem skipOne_char {c : Char} (hc : c ≠ '\\') (t : Str) : skipOne (c :: t) = t := by
  unfold skipOne
  split
  · rename_i h
    exact absurd (List.cons.inj h).1 hc
  · rename_i h
    exact (List.cons.inj h).2.symm
  · rename_i h
    cases h

theorem skipOne_hex {a b : Char} (h : isHexDigit a = true ∧ isHexDigit b = true) (t : Str) :
    skipOne ('\\' :: '\'' :: a :: b :: t) = t := by
  show (if isHexDigit a && isHexDigit b then t else _) = t
  rw [h.1, h.2]
  rfl

variable {uc : Nat} {sc : RtfScope} {ts : List RtfToken}

theorem next_unit_of_skip (u : RtfUnit) (h : sc.skip = 0) :
    (sc.next (.unit u)).skip = 0 := by
  rw [RtfScope.next, if_pos h]
  exact h

/-- What is written of a unit that belongs to no fallback. -/
theorem render_decoded_unit (u : RtfUnit) (h : sc.skip = 0) :
    render (decoded sc (.unit u :: ts)) =
      u.before (render (decoded (sc.next (.unit u)) ts)) := by
  rw [decoded_cons, RtfScope.shown, if_pos h]
  rfl

theorem render_decoded_skipped (u : RtfUnit) {k : Nat} (h : sc.skip = k + 1) :
    render (decoded sc (.unit u :: ts)) = render (decoded { sc with skip := k } ts) := by
  rw [decoded_cons, RtfScope.shown, if_neg (by omega), RtfScope.next, if_neg (by omega), h]
  rfl

/-- The character of a Unicode word that does not end a surrogate pair. -/
theorem shown_unicode {n : Number} (spaced : Bool) (h : sc.high ≠ none → ¬ IsLow (codeOf n)) :
    sc.shown (.unicode n spaced) = charTokens (codeOf n) := by
  rw [RtfScope.shown]
  cases hh : sc.high with
  | none => rfl
  | some high =>
    have hlow := h (by rw [hh]; exact Option.some_ne_none high)
    dsimp only
    rw [if_neg hlow]

theorem decodeFrom_unit {u : RtfUnit} (h : SafeAt uc sc (.unit u) ts)
    (ih : decodeFrom uc (render ts) = render (decoded (sc.next (.unit u)) ts)) :
    decodeFrom uc (u.before (render ts)) =
      u.before (render (decoded (sc.next (.unit u)) ts)) := by
  cases u with
  | text c hc =>
    have hne : c ≠ '\\' := by
      rintro rfl
      cases hc
    exact (decodeFrom_char hne _).trans (by rw [ih]; rfl)
  | escaped c hc =>
    have hcode : ucWord (c :: render ts) = none ∧ uWord (c :: render ts) = none := by
      apply no_code
      all_goals
        intro heq
        have hhead := congrArg List.head? heq
        rw [List.takeWhile_cons] at hhead
        split at hhead
        · cases hhead
          cases hc
        · cases hhead
    have hfirst : decodeFrom uc ('\\' :: c :: render ts) =
        '\\' :: decodeFrom uc (c :: render ts) := decodeFrom_backslash hcode.1 hcode.2
    refine hfirst.trans ?_
    by_cases hb : c = '\\'
    · obtain ⟨hno, hno'⟩ := h.2 hb
      subst hb
      rw [decodeFrom_backslash hno hno', ih]
      rfl
    · rw [decodeFrom_char hb, ih]
      rfl
  | hex a b hab =>
    have hnot : ∀ {x : Char}, isHexDigit x = true → x ≠ '\\' := by
      rintro x hx rfl
      exact absurd hx (by decide)
    show decodeFrom uc ('\\' :: '\'' :: a :: b :: render ts) = _
    rw [decodeFrom_backslash rfl rfl, decodeFrom_char (by decide), decodeFrom_char (hnot hab.1),
      decodeFrom_char (hnot hab.2), ih]
    rfl
  | word name arg spaced =>
    have hletters := letters_before name arg spaced (render ts)
    obtain ⟨hno, hno'⟩ := no_code (by rw [hletters]; exact name.other.1)
      (by rw [hletters]; exact name.other.2)
    have hnone := backslash_notMem_word name arg (delimiter spaced arg.isSome (render ts))
      (backslash_notMem_delimiter _ _ _)
    refine (decodeFrom_backslash hno hno').trans ?_
    have happend : decodeFrom uc (_ ++ render ts) = _ := decodeFrom_append hnone (render ts)
    simp only [List.append_assoc] at happend
    rw [happend, ih, RtfUnit.before, ← h.2]

theorem decodeFrom_render (h : Harmless uc sc ts) :
    decodeFrom uc (skipFallback sc.skip (render ts)) = render (decoded sc ts) := by
  induction ts generalizing uc sc with
  | nil =>
    rw [render, List.foldr_nil, skipFallback_nil, decodeFrom_nil]
    rfl
  | cons t ts ih =>
    obtain ⟨hsafe, hrest⟩ := h
    have hnext := ih hrest
    cases t with
    | unit u =>
      cases hskip : sc.skip with
      | zero =>
        rw [next_unit_of_skip u hskip] at hnext
        rw [render_decoded_unit u hskip]
        exact decodeFrom_unit hsafe hnext
      | succ k =>
        have hstate : sc.next (.unit u) = { sc with skip := k } := by
          rw [RtfScope.next, if_neg (by omega), hskip]
          rfl
        rw [hstate] at hnext
        rw [render_decoded_skipped u hskip, ← hnext, skipFallback]
        congr 1
        cases u with
        | text c hc =>
          have hne : c ≠ '\\' := by
            rintro rfl
            cases hc
          exact congrArg _ (skipOne_char hne _)
        | escaped c hc => exact absurd hsafe.1 (by omega)
        | hex a b hab => exact congrArg _ (skipOne_hex hab _)
        | word name arg spaced => exact absurd hsafe.1 (by omega)
    | openGroup =>
      have hskip : sc.skip = 0 := hsafe
      rw [hskip]
      exact (decodeFrom_char (by decide) _).trans (congrArg _ hnext)
    | closeGroup =>
      have hskip : sc.skip = 0 := hsafe
      rw [hskip]
      exact (decodeFrom_char (by decide) _).trans (congrArg _ hnext)
    | uc n spaced =>
      have hskip : sc.skip = 0 := hsafe
      rw [hskip]
      exact (decodeFrom_uc (ucWord_rendered n spaced (render ts))).trans hnext
    | unicode n spaced =>
      obtain ⟨hskip, rfl, hpair⟩ := hsafe
      obtain ⟨hno, hcode⟩ := uWord_rendered n spaced (render ts)
      rw [hskip, decoded_cons, render_append, shown_unicode spaced hpair, foldr_charTokens]
      exact (decodeFrom_u hno hcode).trans (congrArg _ hnext)

end Decode

section Par

theorem head_lineWord (t : RtfToken) (rest rest' : Str) :
    ((lineWord t).before rest').head? = (t.before rest).head? := by
  cases t with
  | unit u => cases u <;> rfl
  | openGroup | closeGroup | uc | unicode => rfl

/-- The rendering begins alike with the rewritten words. -/
theorem head_render_lineWord (ts : List RtfToken) :
    (render (ts.map lineWord)).head? = (render ts).head? := by
  cases ts with
  | nil => rfl
  | cons t ts => exact head_lineWord t _ _

theorem delimiter_lineWord (spaced numbered : Bool) (ts : List RtfToken) :
    delimiter spaced numbered (render (ts.map lineWord)) =
      delimiter spaced numbered (render ts) := by
  rw [delimiter, delimiter, needsSpace, needsSpace, head_render_lineWord]

theorem parToLine_word (name : WordName) (arg : Option Number) (spaced : Bool)
    (ts : List RtfToken) : parToLine ((RtfUnit.word name arg spaced).before (render ts)) =
      '\\' :: ((newName name).text ++
        (argText arg ++ (delimiter spaced arg.isSome (render ts) ++ parToLine (render ts)))) := by
  have hletters := letters_before name arg spaced (render ts)
  have hdelim := backslash_notMem_delimiter spaced arg.isSome (render ts)
  have hafter : parToLine (argText arg ++ (delimiter spaced arg.isSome (render ts) ++ render ts)) =
      argText arg ++ (delimiter spaced arg.isSome (render ts) ++ parToLine (render ts)) := by
    rw [parToLine_append (backslash_notMem_arg arg), parToLine_append hdelim]
  by_cases hpar : name.text = "par".toList
  · rw [RtfUnit.before, parToLine_par (isPar_iff.mpr (hletters.trans hpar)), newName, if_pos hpar,
      hpar]
    exact congrArg (fun s => "\\line".toList ++ s) hafter
  · rw [RtfUnit.before, newName, if_neg hpar, parToLine_copy, parToLine_append, hafter]
    · exact notMem_of_isAlpha name.letters
    · intro _
      rw [← Bool.not_eq_true, isPar_iff, hletters]
      exact hpar

theorem isPar_special {c : Char} (hc : isSpecial c = true) (rest : Str) :
    isPar (c :: rest) = false := by
  rw [← Bool.not_eq_true, isPar_iff]
  intro h
  have hhead := congrArg List.head? h
  rw [List.takeWhile_cons] at hhead
  split at hhead
  · cases hhead
    cases hc
  · cases hhead

/-- After a backslash that is no `par`, the text without further backslashes is copied. -/
theorem parToLine_copied {p : Str} (hp : '\\' ∉ p) {rest : Str} (h : isPar (p ++ rest) = false) :
    parToLine ('\\' :: (p ++ rest)) = '\\' :: (p ++ parToLine rest) := by
  rw [parToLine_copy fun _ => h, parToLine_append hp]

/-- A token other than an escaped backslash before `par` is rewritten before what follows. -/
theorem parToLine_before {t : RtfToken} {ts : List RtfToken}
    (h : (t.isBackslash && isPar (render ts)) = false) :
    ∃ p, parToLine (t.before (render ts)) = p ++ parToLine (render ts) ∧
      (lineWord t).before (render (ts.map lineWord)) = p ++ render (ts.map lineWord) := by
  cases t with
  | unit u =>
    cases u with
    | text c hc =>
      have hne : c ≠ '\\' := by
        rintro rfl
        cases hc
      exact ⟨[c], parToLine_copy fun hb => absurd hb hne, rfl⟩
    | escaped c hc =>
      refine ⟨['\\', c], ?_, rfl⟩
      refine (parToLine_copy fun _ => isPar_special hc _).trans ?_
      rw [parToLine_copy]
      · rfl
      · intro hb
        subst hb
        simpa [RtfToken.isBackslash] using h
    | hex a b hab =>
      refine ⟨['\\', '\'', a, b], ?_, rfl⟩
      have hnot : ∀ {x : Char}, isHexDigit x = true → '\\' ≠ x := by
        rintro x hx rfl
        exact absurd hx (by decide)
      have hp : '\\' ∉ ['\'', a, b] := by
        simp [hnot hab.1, hnot hab.2]
      exact parToLine_copied hp rfl
    | word name arg spaced =>
      refine ⟨'\\' :: ((newName name).text ++
        (argText arg ++ delimiter spaced arg.isSome (render ts))), ?_, ?_⟩
      · refine (parToLine_word name arg spaced ts).trans ?_
        simp only [List.cons_append, List.append_assoc]
      · simp only [lineWord, RtfToken.before, RtfUnit.before, delimiter_lineWord, List.cons_append,
          List.append_assoc]
  | openGroup => exact ⟨['{'], parToLine_copy fun hb => absurd hb (by decide), rfl⟩
  | closeGroup => exact ⟨['}'], parToLine_copy fun hb => absurd hb (by decide), rfl⟩
  | uc n spaced =>
    refine ⟨'\\' :: 'u' :: 'c' :: (n.text ++ delimiter spaced true (render ts)), ?_, ?_⟩
    · have hp : '\\' ∉ 'u' :: 'c' :: (n.text ++ delimiter spaced true (render ts)) := by
        simp only [List.mem_cons, List.mem_append, not_or]
        exact ⟨by decide, by decide, fun hd => absurd (n.isDigit _ hd) (by decide),
          backslash_notMem_delimiter _ _ _⟩
      have hcopied : parToLine ('\\' :: (_ ++ render ts)) = _ := parToLine_copied hp rfl
      simp only [List.cons_append, List.append_assoc] at hcopied ⊢
      exact hcopied
    · simp only [lineWord, RtfToken.before, delimiter_lineWord, List.cons_append, List.append_assoc]
  | unicode n spaced =>
    refine ⟨'\\' :: 'u' :: (n.text ++ delimiter spaced true (render ts)), ?_, ?_⟩
    · have hp : '\\' ∉ 'u' :: (n.text ++ delimiter spaced true (render ts)) := by
        simp only [List.mem_cons, List.mem_append, not_or]
        exact ⟨by decide, backslash_notMem_arg (some n), backslash_notMem_delimiter _ _ _⟩
      have hcopied : parToLine ('\\' :: (_ ++ render ts)) = _ := parToLine_copied hp rfl
      simp only [List.cons_append, List.append_assoc] at hcopied ⊢
      exact hcopied
    · simp only [lineWord, RtfToken.before, delimiter_lineWord, List.cons_append, List.append_assoc]

/-- An escaped backslash before `par` gets a letter too many. -/
theorem length_parToLine_misread {t : RtfToken} {ts : List RtfToken}
    (h : (t.isBackslash && isPar (render ts)) = true) :
    (parToLine (t.before (render ts))).length = (parToLine (render ts)).length + 3 ∧
      ((lineWord t).before (render (ts.map lineWord))).length =
        (render (ts.map lineWord)).length + 2 := by
  obtain ⟨hb, hpar⟩ := Bool.and_eq_true_iff.mp h
  cases t with
  | unit u =>
    cases u with
    | escaped c hc =>
      refine ⟨?_, rfl⟩
      have hc' : c = '\\' := by simpa [RtfToken.isBackslash] using hb
      subst hc'
      obtain ⟨tail, heq⟩ := List.isPrefixOf_iff_prefix.mp (Bool.and_eq_true_iff.mp hpar).1
      have hrest : parToLine (render ts) = "par".toList ++ parToLine tail := by
        rw [← heq, parToLine_append (by decide)]
      have htoken : parToLine ((RtfToken.unit (.escaped '\\' hc)).before (render ts)) =
          '\\' :: ("\\line".toList ++ parToLine tail) := by
        refine (parToLine_copy fun _ => isPar_special hc _).trans ?_
        rw [parToLine_par hpar, ← heq]
        rfl
      rw [htoken, hrest]
      simp only [List.length_cons, List.length_append]
      have h₁ : "\\line".toList.length = 5 := rfl
      have h₂ : "par".toList.length = 3 := rfl
      omega
    | text | hex | word => cases hb
  | openGroup | closeGroup | uc | unicode => cases hb

theorem parToLine_render {ts : List RtfToken} (h : parMisreads ts = 0) :
    parToLine (render ts) = render (ts.map lineWord) := by
  induction ts with
  | nil => exact parToLine_nil
  | cons t ts ih =>
    have hsum : (if t.isBackslash && isPar (render ts) then 1 else 0) + parMisreads ts = 0 := h
    have hsafe : (t.isBackslash && isPar (render ts)) = false := by
      by_contra hne
      rw [Bool.not_eq_false] at hne
      rw [hne, if_pos rfl] at hsum
      omega
    obtain ⟨p, hp, hp'⟩ := parToLine_before hsafe
    rw [render_cons, hp, ih (by omega), ← hp']
    rfl

theorem length_parToLine_render (ts : List RtfToken) :
    (parToLine (render ts)).length = (render (ts.map lineWord)).length + parMisreads ts := by
  induction ts with
  | nil => rw [render, List.foldr_nil, parToLine_nil]; rfl
  | cons t ts ih =>
    rw [render_cons, List.map_cons, render_cons, parMisreads]
    by_cases h : (t.isBackslash && isPar (render ts)) = true
    · obtain ⟨h₁, h₂⟩ := length_parToLine_misread h
      rw [h₁, h₂, ih, h, if_pos rfl]
      omega
    · obtain ⟨p, hp, hp'⟩ := parToLine_before (Bool.not_eq_true _ ▸ h)
      rw [hp, hp', List.length_append, List.length_append, ih, if_neg h]
      omega

end Par

section PrePass

/-- Where the Unicode escapes are harmless, the pre-pass keeps every token but those it rewrites
exactly if no escaped backslash of the decoded source reads as `par` with what follows it. -/
theorem prepared_render_iff {ts : List RtfToken} (h : Harmless 1 .initial ts) :
    prepared (render ts) = render ((decoded .initial ts).map lineWord) ↔
      parMisreads (decoded .initial ts) = 0 := by
  have hdecode : decodeUnicodeEscapes (render ts) = render (decoded .initial ts) :=
    decodeFrom_render h
  rw [prepared, hdecode]
  constructor
  · intro heq
    have hlength := length_parToLine_render (decoded .initial ts)
    rw [heq] at hlength
    omega
  · exact parToLine_render

def one : Digits := ⟨['1'], by decide, List.all_eq_true.mp (by decide)⟩

def accentCode : Number := ⟨false, ⟨"233".toList, by decide, List.all_eq_true.mp (by decide)⟩⟩

def parName : WordName := ⟨"par".toList, by decide, List.all_eq_true.mp (by decide), by decide⟩

/-- The source `\uc1 {\u233 ?}\par`. -/
def accentTokens : List RtfToken :=
  [.uc one true, .openGroup, .unicode accentCode true, .unit (.text '?' rfl), .closeGroup,
    .unit (.word parName none false)]

theorem harmless_accentTokens : Harmless 1 .initial accentTokens :=
  ⟨rfl, rfl, ⟨rfl, rfl, fun h => absurd rfl h⟩, trivial, rfl, ⟨rfl, rfl⟩, trivial⟩

theorem prepared_accent : prepared (render accentTokens) =
    render ((decoded .initial accentTokens).map lineWord) :=
  (prepared_render_iff harmless_accentTokens).mpr (by decide)

/-- The source `\\par`, an escaped backslash before three letters. -/
def backslashTokens : List RtfToken :=
  [.unit (.escaped '\\' rfl), .unit (.text 'p' rfl), .unit (.text 'a' rfl), .unit (.text 'r' rfl)]

theorem backslash_before_par_rewritten : prepared (render backslashTokens) ≠
    render ((decoded .initial backslashTokens).map lineWord) := by
  have hharmless : Harmless 1 .initial backslashTokens :=
    ⟨⟨rfl, fun _ => ⟨rfl, rfl⟩⟩, trivial, trivial, trivial, trivial⟩
  have hdecode : decodeUnicodeEscapes (render backslashTokens) =
      render (decoded .initial backslashTokens) := decodeFrom_render hharmless
  intro heq
  have hlength := length_parToLine_render (decoded .initial backslashTokens)
  rw [prepared, hdecode] at heq
  rw [heq] at hlength
  have hone : parMisreads (decoded .initial backslashTokens) = 1 := by decide
  omega

end PrePass

end LensLM.Rtf
