import LensLM.Citation

/-!
# Citation chips

The interface replaces the markers of a rendered answer by chips. It finds them with a regular
expression of its own, which knows neither lists of numbers nor blanks in the brackets.
-/

namespace LensLM

open ByteText

set_option autoImplicit false

section Marker

/-- The class `\s` of a regular expression. -/
def isJsSpace (c : Char) : Bool :=
  let n := c.toNat
  (9 ≤ n && n ≤ 13) || n == 0x20 || n == 0xA0 || n == 0x1680 || (0x2000 ≤ n && n ≤ 0x200A) ||
    n == 0x2028 || n == 0x2029 || n == 0x202F || n == 0x205F || n == 0x3000 || n == 0xFEFF

/-- `(?!\(|\s*:)`: neither a link nor a definition follows. -/
def notLink (rest : Str) : Bool :=
  rest.head? != some '(' && (rest.dropWhile isJsSpace).head? != some ':'

/-- `\[(\d+)\]` with its digits and what follows. -/
def bracketedDigits : Str → Option (Str × Str)
  | '[' :: s =>
    let digits := s.takeWhile Char.isDigit
    match s.dropWhile Char.isDigit with
    | ']' :: rest => if digits.isEmpty then none else some (digits, rest)
    | _ => none
  | _ => none

/-- `HAS_MARKER.test`. -/
def hasMarker : Str → Bool
  | [] => false
  | c :: s => (bracketedDigits (c :: s)).isSome || hasMarker s

/-- A match of `MARKER`; the index is that of its bracket. -/
structure MarkerMatch where
  lead : Str
  digits : Str
  bracket : Nat
deriving DecidableEq, Repr

/-- `m[0]`. -/
def MarkerMatch.whole (m : MarkerMatch) : Str := m.lead ++ '[' :: m.digits ++ [']']

/-- `m.index`. -/
def MarkerMatch.index (m : MarkerMatch) : Nat := m.bracket - m.lead.length

/-- The optional blank in front of a marker. -/
def leadOf : Str → Str
  | ' ' :: _ => [' ']
  | '\t' :: _ => ['\t']
  | _ => []

/-- The match at the beginning of `s`, which stands at index `i`, and what follows it. -/
def matchHere (i : Nat) (s : Str) : Option (MarkerMatch × Str) :=
  let lead := leadOf s
  (bracketedDigits (s.drop lead.length)).bind fun x =>
    if notLink x.2 then some (⟨lead, x.1, i + lead.length⟩, x.2) else none

theorem bracketedDigits_eq_some {s digits rest : Str} : bracketedDigits s = some (digits, rest) ↔
    s = '[' :: (digits ++ ']' :: rest) ∧ digits ≠ [] ∧ ∀ c ∈ digits, c.isDigit = true := by
  constructor
  · intro h
    unfold bracketedDigits at h
    split at h
    · rename_i t
      split at h
      · rename_i post hdrop
        simp only [Option.ite_none_left_eq_some, Option.some.injEq, Prod.mk.injEq] at h
        obtain ⟨hne, rfl, rfl⟩ := h
        refine ⟨?_, by simpa using hne, fun c hc => List.mem_takeWhile_imp hc⟩
        rw [← hdrop, List.takeWhile_append_dropWhile]
      · cases h
    · cases h
  · rintro ⟨rfl, hne, hdigits⟩
    have htake : (digits ++ ']' :: rest).takeWhile Char.isDigit = digits := by
      rw [List.takeWhile_append_of_pos hdigits]
      simp
    have hdrop : (digits ++ ']' :: rest).dropWhile Char.isDigit = ']' :: rest := by
      rw [List.dropWhile_append_of_pos hdigits]
      simp
    simp only [bracketedDigits, htake, hdrop]
    rw [if_neg (by simpa using hne)]

theorem matchHere_length {i : Nat} {s rest : Str} {m : MarkerMatch}
    (h : matchHere i s = some (m, rest)) : rest.length < s.length := by
  obtain ⟨⟨digits, rest'⟩, hd, h⟩ := Option.bind_eq_some_iff.mp h
  simp only [Option.ite_none_right_eq_some, Option.some.injEq, Prod.mk.injEq] at h
  obtain ⟨_, _, rfl⟩ := h
  have hlen := congrArg List.length (bracketedDigits_eq_some.mp hd).1
  simp only [List.length_drop, List.length_cons, List.length_append] at hlen
  omega

/-- All matches of `MARKER.exec` from an index on. -/
def matchesFrom (i : Nat) (s : Str) : List MarkerMatch :=
  match s with
  | [] => []
  | c :: rest =>
    match h : matchHere i (c :: rest) with
    | some (m, after) => m :: matchesFrom (m.index + m.whole.length) after
    | none => matchesFrom (i + 1) rest
termination_by s.length
decreasing_by
  all_goals simp_wf
  all_goals try have hlen := matchHere_length h
  all_goals simp_all

/-- At index `k`, counted from `i`, the digits stand in brackets, and no link follows. -/
def PlainAt (i : Nat) (s : Str) (k : Nat) (digits : Str) : Prop :=
  ∃ pre post, s = pre ++ '[' :: (digits ++ ']' :: post) ∧ digits ≠ [] ∧
    (∀ c ∈ digits, c.isDigit = true) ∧ notLink post = true ∧ i + pre.length = k

theorem PlainAt.le {i k : Nat} {s digits : Str} (h : PlainAt i s k digits) : i ≤ k := by
  obtain ⟨pre, _, _, _, _, _, hk⟩ := h
  omega

theorem not_plainAt_nil {i k : Nat} {digits : Str} : ¬ PlainAt i [] k digits := by
  rintro ⟨pre, post, hs, _⟩
  simp at hs

theorem PlainAt.cons {i k : Nat} {s digits : Str} (c : Char) (h : PlainAt (i + 1) s k digits) :
    PlainAt i (c :: s) k digits := by
  obtain ⟨pre, post, rfl, hne, hdigits, hlink, hk⟩ := h
  refine ⟨c :: pre, post, rfl, hne, hdigits, hlink, ?_⟩
  rw [List.length_cons]
  omega

theorem plainAt_cons {i k : Nat} {c : Char} {s digits : Str} : PlainAt i (c :: s) k digits ↔
    (k = i ∧ ∃ post, bracketedDigits (c :: s) = some (digits, post) ∧ notLink post = true) ∨
      PlainAt (i + 1) s k digits := by
  constructor
  · rintro ⟨pre, post, hs, hne, hdigits, hlink, hk⟩
    cases pre with
    | nil => exact .inl ⟨hk.symm, post, bracketedDigits_eq_some.mpr ⟨hs, hne, hdigits⟩, hlink⟩
    | cons d pre =>
      rw [List.length_cons] at hk
      exact .inr ⟨pre, post, (List.cons.inj hs).2, hne, hdigits, hlink, by omega⟩
  · intro h
    cases h with
    | inl h =>
      obtain ⟨rfl, post, hd, hlink⟩ := h
      obtain ⟨hs, hne, hdigits⟩ := bracketedDigits_eq_some.mp hd
      exact ⟨[], post, hs, hne, hdigits, hlink, rfl⟩
    | inr h => exact h.cons c

theorem bracketedDigits_other {c : Char} (s : Str) (hc : c ≠ '[') :
    bracketedDigits (c :: s) = none := by
  apply Option.eq_none_iff_forall_ne_some.mpr
  intro x hx
  exact hc (List.cons.inj (bracketedDigits_eq_some.mp hx).1).1

theorem plainAt_append {i k : Nat} {s t digits : Str} (hs : '[' ∉ s) :
    PlainAt i (s ++ t) k digits ↔ PlainAt (i + s.length) t k digits := by
  induction s generalizing i with
  | nil => simp
  | cons c s ih =>
    simp only [List.mem_cons, not_or] at hs
    rw [List.cons_append, plainAt_cons, bracketedDigits_other _ (Ne.symm hs.1), ih hs.2,
      List.length_cons, Nat.add_assoc, Nat.add_comm 1]
    simp

theorem leadOf_append_drop (s : Str) : leadOf s ++ s.drop (leadOf s).length = s := by
  unfold leadOf
  split <;> simp

theorem bracket_notMem_leadOf (s : Str) : '[' ∉ leadOf s := by
  unfold leadOf
  split <;> simp

theorem bracket_notMem_digits {digits : Str} (h : ∀ c ∈ digits, c.isDigit = true) :
    '[' ∉ digits := by
  intro hc
  exact absurd (h _ hc) (by decide)

theorem matchHere_eq_some {i : Nat} {s rest : Str} {m : MarkerMatch} :
    matchHere i s = some (m, rest) ↔ m.lead = leadOf s ∧ m.bracket = i + m.lead.length ∧
      bracketedDigits (s.drop m.lead.length) = some (m.digits, rest) ∧ notLink rest = true := by
  unfold matchHere
  simp only [Option.bind_eq_some_iff, Option.ite_none_right_eq_some, Option.some.injEq,
    Prod.mk.injEq, Prod.exists]
  constructor
  · rintro ⟨digits, rest', hd, hlink, rfl, rfl⟩
    exact ⟨rfl, rfl, hd, hlink⟩
  · rintro ⟨hlead, hbracket, hd, hlink⟩
    rw [hlead] at hd hbracket
    refine ⟨m.digits, rest, hd, hlink, ?_, rfl⟩
    cases m
    simp_all

/-- A match is the only one up to its closing bracket. -/
theorem plainAt_of_match {i k : Nat} {s rest digits : Str} {m : MarkerMatch}
    (h : matchHere i s = some (m, rest)) : PlainAt i s k digits ↔
      (k = m.bracket ∧ digits = m.digits) ∨
        PlainAt (m.index + m.whole.length) rest k digits := by
  obtain ⟨hlead, hbracket, hd, hlink⟩ := matchHere_eq_some.mp h
  obtain ⟨hs, hne, hdigits⟩ := bracketedDigits_eq_some.mp hd
  have hlen : m.index + m.whole.length = m.bracket + 1 + (m.digits ++ [']']).length := by
    unfold MarkerMatch.index MarkerMatch.whole
    simp only [List.length_append, List.length_cons, List.length_nil]
    omega
  have hinside : '[' ∉ m.digits ++ [']'] := by
    simp [bracket_notMem_digits hdigits]
  rw [← leadOf_append_drop s, plainAt_append (bracket_notMem_leadOf s), ← hlead, hs, plainAt_cons,
    ← hs, hd, ← hbracket, hlen, ← plainAt_append hinside, List.append_assoc]
  apply or_congr_left
  apply and_congr_right
  intro _
  constructor
  · rintro ⟨post, hpost, _⟩
    rw [Option.some.injEq, Prod.mk.injEq] at hpost
    exact hpost.1.symm
  · rintro rfl
    exact ⟨rest, rfl, hlink⟩

theorem plainAt_of_noMatch {i k : Nat} {c : Char} {s digits : Str}
    (h : matchHere i (c :: s) = none) :
    PlainAt i (c :: s) k digits ↔ PlainAt (i + 1) s k digits := by
  rw [plainAt_cons, or_iff_right]
  rintro ⟨_, post, hd, hlink⟩
  have hc : c = '[' := (List.cons.inj (bracketedDigits_eq_some.mp hd).1).1
  subst hc
  have hmatch : matchHere i ('[' :: s) = some (⟨[], digits, i⟩, post) :=
    matchHere_eq_some.mpr ⟨rfl, rfl, hd, hlink⟩
  rw [h] at hmatch
  cases hmatch

/-- The matches are the bracketed digits of the text, each once and in order. -/
theorem matchesFrom_exact (i : Nat) (s : Str) :
    (matchesFrom i s).Pairwise (fun a b => a.bracket < b.bracket) ∧
      ∀ k digits, (∃ m ∈ matchesFrom i s, m.bracket = k ∧ m.digits = digits) ↔
        PlainAt i s k digits := by
  fun_induction matchesFrom i s with
  | case1 i => simp [not_plainAt_nil]
  | case2 i c s m rest hmatch ih =>
    obtain ⟨hord, hmem⟩ := ih
    constructor
    · rw [List.pairwise_cons]
      refine ⟨?_, hord⟩
      intro b hb
      have hle := ((hmem b.bracket b.digits).mp ⟨b, hb, rfl, rfl⟩).le
      obtain ⟨_, hbracket, _⟩ := matchHere_eq_some.mp hmatch
      unfold MarkerMatch.index MarkerMatch.whole at hle
      simp only [List.length_append, List.length_cons, List.length_nil] at hle
      omega
    · intro k digits
      rw [plainAt_of_match hmatch, ← hmem]
      simp [eq_comm]
  | case3 i c s hmatch ih =>
    obtain ⟨hord, hmem⟩ := ih
    refine ⟨hord, ?_⟩
    intro k digits
    rw [plainAt_of_noMatch hmatch, hmem]

theorem hasMarker_of_plainAt {i k : Nat} {s digits : Str} (h : PlainAt i s k digits) :
    hasMarker s = true := by
  induction s generalizing i with
  | nil => exact absurd h not_plainAt_nil
  | cons c s ih =>
    unfold hasMarker
    rw [Bool.or_eq_true]
    cases plainAt_cons.mp h with
    | inl h =>
      obtain ⟨_, post, hd, _⟩ := h
      exact .inl (by rw [hd]; rfl)
    | inr h => exact .inr (ih h)

end Marker

section Number

/-- `Number` of decimal digits: the double next to the number, ties to even, if it is finite. -/
def toDouble (n : Nat) : Option Nat :=
  if n < 2 ^ 53 then some n
  else
    let unit := 2 ^ (Nat.log2 n - 52)
    let q := n / unit
    let r := n % unit
    let v := (if unit < 2 * r ∨ 2 * r = unit ∧ q % 2 = 1 then q + 1 else q) * unit
    if v < 2 ^ 1024 then some v else none

def ordinalOf (digits : Str) : Option Nat := toDouble (Nat.ofDigitChars 10 digits 0)

end Number

section Enhance

/-- A source of the store. -/
structure StoreSource where
  id : String
  title : Str
deriving DecidableEq, Repr

structure CitationTarget where
  sourceId : String
  title : Str
  live : Bool
  locators : List Locator
deriving DecidableEq, Repr

/-- The target of a citation; the source may have been removed. -/
def citationTarget (sources : List StoreSource) (c : Citation) : CitationTarget :=
  let src := sources.find? fun s => s.id = c.sourceId
  ⟨c.sourceId, (src.map StoreSource.title).getD "Removed source".toList, src.isSome, c.locators⟩

/-- `citationTargets`: the last citation that sets a marker counts. -/
def citationTargets (sources : List StoreSource) (cs : List Citation) : Nat → Option CitationTarget :=
  cs.foldl (fun map c => c.markers.foldl (fun map marker =>
    Function.update map marker (some (citationTarget sources c))) map) fun _ => none

structure Chip where
  ordinal : Nat
  marker : Str
  bracket : Nat
  target : CitationTarget
deriving DecidableEq, Repr

/-- The source that a click reveals; the chip of a removed source is disabled. -/
def Chip.opens (c : Chip) : Option String := if c.target.live then some c.target.sourceId else none

inductive Fragment where
  | text (t : Str)
  | chip (c : Chip)
deriving DecidableEq, Repr

/-- How much of an echoed title follows a marker. -/
def titleEchoLength (after title : Str) : Nat :=
  if title.isEmpty then 0
  else
    let echo (base : Str) : Nat := if (base ++ [':']).isPrefixOf after then base.length + 1 else base.length
    let spaced := ' ' :: '(' :: title ++ [')']
    let plain := '(' :: title ++ [')']
    if spaced.isPrefixOf after then echo spaced
    else if plain.isPrefixOf after then echo plain
    else 0

structure ChipState where
  lastIndex : Nat
  frag : List Fragment
  matched : Bool

variable (resolve : Nat → Option CitationTarget)

def ChipState.marker (text : Str) (st : ChipState) (m : MarkerMatch) : ChipState :=
  match ordinalOf m.digits with
  | none => st
  | some ordinal =>
    match resolve ordinal with
    | none => st
    | some target =>
      let before := (text.take m.index).drop st.lastIndex
      let lastIndex := m.index + m.whole.length
      { lastIndex := lastIndex + titleEchoLength (text.drop lastIndex) target.title
        frag := st.frag ++ [.text before, .chip ⟨ordinal, m.whole, m.bracket, target⟩]
        matched := true }

/-- What becomes of the text of one node. -/
def enhanceText (text : Str) : List Fragment :=
  let st := (matchesFrom 0 text).foldl (ChipState.marker resolve text) ⟨0, [], false⟩
  if st.matched then st.frag ++ [.text (text.drop st.lastIndex)] else [.text text]

/-- A text node with the names of the elements around it. -/
structure TextNode where
  ancestors : List String
  text : Str

def SKIP_TAGS : List String := ["CODE", "PRE", "A", "BUTTON"]

def acceptNode (node : TextNode) : Bool :=
  !(node.ancestors.any fun tag => SKIP_TAGS.contains tag) && hasMarker node.text

def enhanceCitations (nodes : List TextNode) : List (List Fragment) :=
  nodes.map fun node => if acceptNode node then enhanceText resolve node.text else [.text node.text]

def chipsOf (frag : List Fragment) : List Chip :=
  frag.filterMap fun
    | .text _ => none
    | .chip c => some c

end Enhance

/-- The chips of an answer that is rendered as plain text. -/
def answerChips {κ : Type} (answer : Str) (units : List (ContextUnit κ))
    (sources : List StoreSource) : List Chip :=
  (enhanceCitations (citationTargets sources (extractCitations answer units))
    [⟨["P"], answer⟩]).flatMap chipsOf

section Ordinals

theorem toDouble_small {n : Nat} (h : n < 2 ^ 53) : toDouble n = some n := if_pos h

/-- Rounding does not bring a number below 2^32. -/
theorem toDouble_eq_small {n v : Nat} (h : toDouble n = some v) (hv : v < 2 ^ 32) : n = v := by
  unfold toDouble at h
  split at h
  · exact Option.some.inj h
  · rename_i hn
    simp only [Option.ite_none_right_eq_some, Option.some.injEq] at h
    obtain ⟨_, h⟩ := h
    have hlog : 53 ≤ n.log2 := (Nat.le_log2 (by omega)).mpr (by omega)
    have hself : 2 ^ n.log2 ≤ n := Nat.log2_self_le (by omega)
    have hpow : 2 ^ n.log2 = 2 ^ 52 * 2 ^ (n.log2 - 52) := by
      rw [← pow_add]
      congr 1
      omega
    have hq : 2 ^ 52 ≤ n / 2 ^ (n.log2 - 52) := by
      rw [Nat.le_div_iff_mul_le (Nat.two_pow_pos _), ← hpow]
      exact hself
    have hunit : 1 ≤ 2 ^ (n.log2 - 52) := Nat.one_le_two_pow
    have hbig : 2 ^ 52 * 1 ≤ v := by
      rw [← h]
      apply Nat.mul_le_mul _ hunit
      split <;> omega
    omega

theorem ordinalOf_small {digits : Str} {n : Nat} (hn : n < 2 ^ 32) :
    ordinalOf digits = some n ↔ n = Nat.ofDigitChars 10 digits 0 := by
  unfold ordinalOf
  constructor
  · intro h
    exact (toDouble_eq_small h hn).symm
  · rintro rfl
    exact toDouble_small (by omega)

end Ordinals

section Targets

variable {κ : Type}

theorem foldl_update_apply (t : CitationTarget) (ns : List Nat) (map : Nat → Option CitationTarget)
    (n : Nat) : ns.foldl (fun map marker => Function.update map marker (some t)) map n =
      if n ∈ ns then some t else map n := by
  induction ns generalizing map with
  | nil => simp
  | cons m ns ih =>
    rw [List.foldl_cons, ih, Function.update_apply]
    by_cases hmem : n ∈ ns
    · simp [hmem]
    · simp [hmem]

theorem foldl_targets (sources : List StoreSource) (cs : List Citation)
    (map : Nat → Option CitationTarget) (n : Nat) (t : CitationTarget)
    (h : cs.foldl (fun map c => c.markers.foldl (fun map marker =>
      Function.update map marker (some (citationTarget sources c))) map) map n = some t) :
    (∃ c ∈ cs, n ∈ c.markers ∧ t = citationTarget sources c) ∨
      (∀ c ∈ cs, n ∉ c.markers) ∧ map n = some t := by
  induction cs generalizing map with
  | nil => exact .inr ⟨by simp, h⟩
  | cons c cs ih =>
    rw [List.foldl_cons] at h
    rcases ih _ h with ⟨d, hd, hn, ht⟩ | ⟨hnone, hmap⟩
    · exact .inl ⟨d, List.mem_cons_of_mem _ hd, hn, ht⟩
    · rw [foldl_update_apply] at hmap
      split at hmap
      · rename_i hn
        exact .inl ⟨c, by simp, hn, (Option.some.inj hmap).symm⟩
      · rename_i hn
        refine .inr ⟨?_, hmap⟩
        intro d hd
        cases List.mem_cons.mp hd with
        | inl hd => exact hd ▸ hn
        | inr hd => exact hnone d hd

theorem foldl_targets_isSome (sources : List StoreSource) (cs : List Citation)
    (map : Nat → Option CitationTarget) (n : Nat)
    (h : (∃ c ∈ cs, n ∈ c.markers) ∨ (map n).isSome = true) :
    (cs.foldl (fun map c => c.markers.foldl (fun map marker =>
      Function.update map marker (some (citationTarget sources c))) map) map n).isSome = true := by
  induction cs generalizing map with
  | nil => simpa using h
  | cons c cs ih =>
    rw [List.foldl_cons]
    apply ih
    rw [foldl_update_apply]
    by_cases hn : n ∈ c.markers
    · simp [hn]
    · rcases h with ⟨d, hd, hmem⟩ | hmap
      · cases List.mem_cons.mp hd with
        | inl hd => exact absurd (hd ▸ hmem) hn
        | inr hd => exact .inl ⟨d, hd, hmem⟩
      · simp [hn, hmap]

theorem citationTargets_isSome {sources : List StoreSource} {cs : List Citation} {n : Nat} :
    (citationTargets sources cs n).isSome = true ↔ ∃ c ∈ cs, n ∈ c.markers := by
  constructor
  · intro h
    obtain ⟨t, ht⟩ := Option.isSome_iff_exists.mp h
    rcases foldl_targets sources cs _ n t ht with ⟨c, hc, hn, _⟩ | ⟨_, hnone⟩
    · exact ⟨c, hc, hn⟩
    · cases hnone
  · intro h
    exact foldl_targets_isSome sources cs _ n (.inl h)

theorem citationTargets_mem {sources : List StoreSource} {cs : List Citation} {n : Nat}
    {t : CitationTarget} (h : citationTargets sources cs n = some t) :
    ∃ c ∈ cs, n ∈ c.markers ∧ t = citationTarget sources c := by
  rcases foldl_targets sources cs _ n t h with hc | ⟨_, hnone⟩
  · exact hc
  · cases hnone

end Targets

section Chips

variable {resolve : Nat → Option CitationTarget}

@[simp] theorem chipsOf_append (a b : List Fragment) : chipsOf (a ++ b) = chipsOf a ++ chipsOf b :=
  List.filterMap_append

@[simp] theorem chipsOf_text (t : Str) : chipsOf [.text t] = [] := rfl

/-- The chip of a match, if its number has a target. -/
def chipOf (resolve : Nat → Option CitationTarget) (m : MarkerMatch) : Option Chip :=
  (ordinalOf m.digits).bind fun n => (resolve n).map fun t => ⟨n, m.whole, m.bracket, t⟩

theorem chipOf_eq_some {m : MarkerMatch} {c : Chip} : chipOf resolve m = some c ↔
    ordinalOf m.digits = some c.ordinal ∧ resolve c.ordinal = some c.target ∧
      c.marker = m.whole ∧ c.bracket = m.bracket := by
  unfold chipOf
  simp only [Option.bind_eq_some_iff, Option.map_eq_some_iff]
  constructor
  · rintro ⟨n, hn, t, ht, rfl⟩
    exact ⟨hn, ht, rfl, rfl⟩
  · rintro ⟨hn, ht, hmarker, hbracket⟩
    refine ⟨c.ordinal, hn, c.target, ht, ?_⟩
    rw [← hmarker, ← hbracket]

theorem marker_chips (text : Str) (st : ChipState) (m : MarkerMatch) :
    chipsOf (st.marker resolve text m).frag = chipsOf st.frag ++ (chipOf resolve m).toList ∧
      (st.marker resolve text m).matched = (st.matched || (chipOf resolve m).isSome) := by
  unfold ChipState.marker chipOf
  cases hn : ordinalOf m.digits with
  | none => simp
  | some n =>
    cases ht : resolve n with
    | none => simp [ht]
    | some t =>
      simp only [ht, Option.bind_some, Option.map_some, chipsOf_append, Option.toList_some,
        Option.isSome_some, Bool.or_true, and_true]
      rfl

theorem foldl_marker_chips (text : Str) (ms : List MarkerMatch) (st : ChipState) :
    chipsOf (ms.foldl (ChipState.marker resolve text) st).frag =
        chipsOf st.frag ++ ms.filterMap (chipOf resolve) ∧
      (ms.foldl (ChipState.marker resolve text) st).matched =
        (st.matched || ms.any fun m => (chipOf resolve m).isSome) := by
  induction ms generalizing st with
  | nil => simp
  | cons m ms ih =>
    obtain ⟨hfrag, hmatched⟩ := @marker_chips resolve text st m
    rw [List.foldl_cons, (ih _).1, (ih _).2, hfrag, hmatched, List.filterMap_cons, List.any_cons,
      List.append_assoc, Bool.or_assoc]
    cases chipOf resolve m <;> simp

/-- The chips of a text are those of its matches. -/
theorem chipsOf_enhanceText (text : Str) :
    chipsOf (enhanceText resolve text) = (matchesFrom 0 text).filterMap (chipOf resolve) := by
  obtain ⟨hfrag, hmatched⟩ := @foldl_marker_chips resolve text (matchesFrom 0 text)
    ⟨0, [], false⟩
  unfold enhanceText
  simp only [hmatched, Bool.false_or]
  split
  · simp only [chipsOf_append, hfrag, chipsOf_text, List.append_nil]
    rfl
  · rename_i hany
    rw [chipsOf_text]
    symm
    apply List.filterMap_eq_nil_iff.mpr
    intro m hm
    simp only [List.any_eq_true, not_exists, not_and, Bool.not_eq_true, Option.isSome_eq_false_iff,
      Option.isNone_iff_eq_none] at hany
    exact hany m hm

end Chips

section Exact

variable {κ : Type}

/-- The byte position and the number that a chip stands for. -/
def Chip.occurrence (answer : Str) (c : Chip) : Nat × Nat :=
  (byteLen (answer.take c.bracket), c.ordinal)

/-- The chips are the in-range occurrences of the answer, and open the sources of their units. -/
structure ChipsExact (answer : Str) (units : List (ContextUnit κ)) (sources : List StoreSource) :
    Prop where
  once : (answerChips answer units sources).Pairwise fun a b => a.bracket < b.bracket
  occurrences : ∀ p n, (∃ c ∈ answerChips answer units sources, c.occurrence answer = (p, n)) ↔
    (p, n) ∈ parseMarkers answer ∧ inRange n units.length = true
  opens : ∀ c ∈ answerChips answer units sources, ∀ unit, units[c.ordinal - 1]? = some unit →
    c.target.sourceId = unit.sourceId ∧
      ((∃ s ∈ sources, s.id = unit.sourceId) → c.opens = some unit.sourceId)

/-- The marker at byte `p` is the number alone, in digits, and does not look like a link. -/
def WrittenPlain (answer : Str) (p n : Nat) : Prop :=
  ∃ pre digits post, answer = pre ++ '[' :: (digits ++ ']' :: post) ∧ byteLen pre = p ∧
    digits ≠ [] ∧ (∀ c ∈ digits, c.isDigit = true) ∧ n = Nat.ofDigitChars 10 digits 0 ∧
    notLink post = true

/-- Every in-range occurrence is a plain marker with a 32-bit number. -/
def Clickable (answer : Str) (units : List (ContextUnit κ)) : Prop :=
  ∀ p n, (p, n) ∈ parseMarkers answer → inRange n units.length = true →
    n < 2 ^ 32 ∧ WrittenPlain answer p n

theorem writtenPlain_iff {answer : Str} {p n : Nat} : WrittenPlain answer p n ↔
    ∃ k digits, PlainAt 0 answer k digits ∧ byteLen (answer.take k) = p ∧
      n = Nat.ofDigitChars 10 digits 0 := by
  constructor
  · rintro ⟨pre, digits, post, rfl, hp, hne, hdigits, hn, hlink⟩
    refine ⟨pre.length, digits, ⟨pre, post, rfl, hne, hdigits, hlink, Nat.zero_add _⟩, ?_, hn⟩
    rw [List.take_left]
    exact hp
  · rintro ⟨k, digits, ⟨pre, post, rfl, hne, hdigits, hlink, hk⟩, hp, hn⟩
    rw [Nat.zero_add] at hk
    subst hk
    rw [List.take_left] at hp
    exact ⟨pre, digits, post, rfl, hp, hne, hdigits, hn, hlink⟩

/-- A plain marker is one for the engine, too, if its number is a 64-bit one. -/
theorem WrittenPlain.parsed {answer : Str} {p n : Nat} (h : WrittenPlain answer p n)
    (hn : n < 2 ^ 64) : (p, n) ∈ parseMarkers answer := by
  obtain ⟨pre, digits, post, hs, hp, hne, hdigits, hv, _⟩ := h
  obtain ⟨ms, hms, _, hmem⟩ := parseMarkers_exact answer
  have hlist : MarkerList digits [n] := by
    refine ⟨[digits], by simp, by simp, List.Forall₂.cons ?_ List.Forall₂.nil⟩
    exact ⟨[], digits, [], by simp, by simp [IsBlank], by simp [IsBlank], hne, hdigits, hv, hn⟩
  have hclose : ']' ∉ digits := by
    intro hc
    exact absurd (hdigits _ hc) (by decide)
  rw [hms]
  apply List.mem_flatMap.mpr
  exact ⟨(p, [n]), (hmem p [n]).mpr ⟨pre, digits, post, hs, hclose, by omega, hlist⟩, by simp⟩

theorem mem_parseMarkers_named {answer : Str} {units : List (ContextUnit κ)} {p n : Nat}
    (h : (p, n) ∈ parseMarkers answer) (hr : inRange n units.length = true) :
    ∃ unit, Named answer units n unit := by
  simp only [inRange, decide_eq_true_eq] at hr
  have hlt : n - 1 < units.length := by omega
  exact ⟨units[n - 1], ⟨p, h⟩, hr.1, List.getElem?_eq_getElem hlt⟩

theorem Named.inRange {answer : Str} {units : List (ContextUnit κ)} {n : Nat}
    {unit : ContextUnit κ} (h : Named answer units n unit) : inRange n units.length = true := by
  obtain ⟨_, hpos, hu⟩ := h
  have hlt := (List.getElem?_eq_some_iff.mp hu).1
  simp only [LensLM.inRange, decide_eq_true_eq]
  omega

theorem Clickable.small {answer : Str} {units : List (ContextUnit κ)} (h : Clickable answer units) :
    ∀ n unit, Named answer units n unit → n < 2 ^ 32 := by
  intro n unit hn
  obtain ⟨p, hp⟩ := hn.1
  exact (h p n hp hn.inRange).1

theorem answerChips_eq (answer : Str) (units : List (ContextUnit κ)) (sources : List StoreSource) :
    answerChips answer units sources = (matchesFrom 0 answer).filterMap
      (chipOf (citationTargets sources (extractCitations answer units))) := by
  have haccept : acceptNode ⟨["P"], answer⟩ = hasMarker answer := rfl
  simp only [answerChips, enhanceCitations, List.map_cons, List.map_nil, haccept,
    List.flatMap_cons, List.flatMap_nil, List.append_nil]
  split
  · exact chipsOf_enhanceText answer
  · rename_i hnone
    rw [chipsOf_text]
    symm
    apply List.filterMap_eq_nil_iff.mpr
    intro m hm
    have hat := ((matchesFrom_exact 0 answer).2 m.bracket m.digits).mp ⟨m, hm, rfl, rfl⟩
    exact absurd (hasMarker_of_plainAt hat) hnone

/-- A chip stands for a plain marker, and a citation has its number. -/
theorem mem_answerChips {answer : Str} {units : List (ContextUnit κ)} {sources : List StoreSource}
    {c : Chip} (h : c ∈ answerChips answer units sources) : c.ordinal < 2 ^ 32 ∧
      WrittenPlain answer (byteLen (answer.take c.bracket)) c.ordinal ∧
      ∃ cite ∈ extractCitations answer units, c.ordinal ∈ cite.markers ∧
        c.target = citationTarget sources cite := by
  rw [answerChips_eq, List.mem_filterMap] at h
  obtain ⟨m, hm, hc⟩ := h
  obtain ⟨hn, ht, _, hbracket⟩ := chipOf_eq_some.mp hc
  obtain ⟨cite, hcite, hmem, htarget⟩ := citationTargets_mem ht
  have hlt := markers_lt hcite hmem
  have hat := ((matchesFrom_exact 0 answer).2 m.bracket m.digits).mp ⟨m, hm, rfl, rfl⟩
  refine ⟨hlt, ?_, cite, hcite, hmem, htarget⟩
  exact writtenPlain_iff.mpr ⟨m.bracket, m.digits, hat, by rw [hbracket], (ordinalOf_small hlt).mp hn⟩

theorem exists_chip {answer : Str} {units : List (ContextUnit κ)} {sources : List StoreSource}
    {p n : Nat} (hn : n < 2 ^ 32) (hplain : WrittenPlain answer p n)
    (hcited : ∃ cite ∈ extractCitations answer units, n ∈ cite.markers) :
    ∃ c ∈ answerChips answer units sources, c.occurrence answer = (p, n) := by
  obtain ⟨k, digits, hat, hp, hv⟩ := writtenPlain_iff.mp hplain
  obtain ⟨m, hm, hbracket, hdigits⟩ := ((matchesFrom_exact 0 answer).2 k digits).mpr hat
  obtain ⟨t, ht⟩ := Option.isSome_iff_exists.mp
    ((@citationTargets_isSome sources _ _).mpr hcited)
  rw [answerChips_eq]
  refine ⟨⟨n, m.whole, m.bracket, t⟩, List.mem_filterMap.mpr ⟨m, hm, chipOf_eq_some.mpr ?_⟩, ?_⟩
  · exact ⟨hdigits ▸ (ordinalOf_small hn).mpr hv, ht, rfl, rfl⟩
  · unfold Chip.occurrence
    rw [hbracket, hp]

theorem citationTarget_opens {sources : List StoreSource} {cite : Citation} {c : Chip}
    (hc : c.target = citationTarget sources cite) (h : ∃ s ∈ sources, s.id = cite.sourceId) :
    c.opens = some cite.sourceId := by
  obtain ⟨s, hs, hid⟩ := h
  have hsome : (sources.find? fun s => s.id = cite.sourceId).isSome = true :=
    List.find?_isSome.mpr ⟨s, hs, by simpa using hid⟩
  unfold Chip.opens citationTarget at *
  rw [hc]
  simp [hsome]

theorem ChipsExact.clickable {answer : Str} {units : List (ContextUnit κ)}
    {sources : List StoreSource} (h : ChipsExact answer units sources) : Clickable answer units := by
  intro p n hp hr
  obtain ⟨c, hc, hocc⟩ := (h.occurrences p n).mpr ⟨hp, hr⟩
  obtain ⟨hlt, hplain, _⟩ := mem_answerChips hc
  obtain ⟨hpos, hord⟩ := Prod.mk.inj hocc
  rw [hpos, hord] at hplain
  exact ⟨hord ▸ hlt, hplain⟩

theorem Clickable.exact {answer : Str} {units : List (ContextUnit κ)}
    (h : Clickable answer units) (sources : List StoreSource) : ChipsExact answer units sources := by
  constructor
  case once =>
    rw [answerChips_eq]
    apply List.Pairwise.filterMap _ _ (matchesFrom_exact 0 answer).1
    intro a b hab c hc d hd
    rw [(chipOf_eq_some.mp hc).2.2.2, (chipOf_eq_some.mp hd).2.2.2]
    exact hab
  case occurrences =>
    intro p n
    constructor
    · rintro ⟨c, hc, hocc⟩
      obtain ⟨hlt, hplain, cite, hcite, hmem, _⟩ := mem_answerChips hc
      obtain ⟨hpos, hord⟩ := Prod.mk.inj hocc
      rw [hpos, hord] at hplain
      rw [hord] at hlt hmem
      obtain ⟨s, i, _, rfl⟩ := mem_extractCitations.mp hcite
      obtain ⟨k, unit, hk, _, hmod⟩ := mem_sourceCitation_markers.mp hmem
      rw [Nat.mod_eq_of_lt (h.small k unit hk)] at hmod
      exact ⟨hplain.parsed (by omega), hmod ▸ hk.inRange⟩
    · rintro ⟨hp, hr⟩
      obtain ⟨hlt, hplain⟩ := h p n hp hr
      obtain ⟨unit, hn⟩ := mem_parseMarkers_named hp hr
      obtain ⟨cite, hcite, hmem, _⟩ := extractCitations_cited h.small hn
      exact exists_chip hlt hplain ⟨cite, hcite, hmem⟩
  case opens =>
    intro c hc unit hunit
    obtain ⟨_, _, cite, hcite, hmem, htarget⟩ := mem_answerChips hc
    have hsource : cite.sourceId = unit.sourceId := by
      obtain ⟨s, i, _, rfl⟩ := mem_extractCitations.mp hcite
      obtain ⟨k, unit', hk, hs, hmod⟩ := mem_sourceCitation_markers.mp hmem
      rw [Nat.mod_eq_of_lt (h.small k unit' hk)] at hmod
      subst hmod
      rw [Option.some.inj (hunit.symm.trans hk.2.2)]
      exact hs.symm
    constructor
    · rw [htarget]
      exact hsource
    · intro hlive
      rw [← hsource] at hlive ⊢
      exact citationTarget_opens htarget hlive

/-- The chips are exact when every in-range occurrence is a number alone in its brackets. -/
theorem chips_exact_iff (answer : Str) (units : List (ContextUnit κ))
    (sources : List StoreSource) :
    ChipsExact answer units sources ↔ Clickable answer units := by
  constructor
  · intro h
    exact h.clickable
  · intro h
    exact h.exact sources

/-- A list of two numbers gets no chip. -/
theorem listedMarker_unlinked : ¬ ChipsExact "as shown [1, 2].".toList
    [repeatedUnit, repeatedUnit] [⟨"s", "Paper".toList⟩] := by
  intro h
  have hnone : answerChips "as shown [1, 2].".toList [repeatedUnit, repeatedUnit]
      [⟨"s", "Paper".toList⟩] = [] := by decide +kernel
  have hmarkers : parseMarkers "as shown [1, 2].".toList = [(9, 1), (9, 2)] := by decide +kernel
  have hfirst : (9, 1) ∈ parseMarkers "as shown [1, 2].".toList := by
    rw [hmarkers]
    exact List.mem_cons_self
  obtain ⟨c, hc, _⟩ := (h.occurrences 9 1).mpr ⟨hfirst, by decide⟩
  rw [hnone] at hc
  cases hc

example : (answerChips "as shown [1] [2].".toList [repeatedUnit, repeatedUnit]
    [⟨"s", "Paper".toList⟩]).map Chip.opens = [some "s", some "s"] := by
  decide +kernel

end Exact

end LensLM
