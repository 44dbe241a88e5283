import LensLM.Retrieval
import LensLM.Lib.Whitespace
import LensLM.Lib.Grouping
import Mathlib.Data.List.Forall2
import Mathlib.Data.List.Sort
import Mathlib.Data.List.Perm.Subperm

/-!
# Citation markers

An answer cites its context units by bracketed lists of unit numbers. The scan finds the
markers, and the citations group the units they name by source.
-/

namespace LensLM

open ByteText Grouping

set_option autoImplicit false

section Markers

/-- `str::parse::<usize>` on a string of digits. -/
def parseUsize (digits : Str) : Option Nat :=
  let n := Nat.ofDigitChars 10 digits 0
  if n < 2 ^ 64 then some n else none

def parseMarkerPart (part : Str) : Option Nat :=
  let t := trim part
  if t.isEmpty || !t.all Char.isDigit then none else parseUsize t

/-- A comma-separated list of numbers; one part that is none rejects the whole list. -/
def parseMarkerList (inner : Str) : Option (List Nat) :=
  match (inner.splitOn ',').mapM parseMarkerPart with
  | some ns => if ns.isEmpty then none else some ns
  | none => none

/-- The text before the first `]`, and what follows it. -/
def findClose : Str → Option (Str × Str)
  | [] => none
  | ']' :: s => some ([], s)
  | c :: s => (findClose s).map fun x => (c :: x.1, x.2)

theorem findClose_eq_some {s inner after : Str} :
    findClose s = some (inner, after) ↔ s = inner ++ ']' :: after ∧ ']' ∉ inner := by
  induction s generalizing inner with
  | nil => simp [findClose]
  | cons c s ih =>
    by_cases hc : c = ']'
    · subst hc
      simp only [findClose, Option.some.injEq, Prod.mk.injEq]
      constructor
      · rintro ⟨rfl, rfl⟩
        simp
      · rintro ⟨hs, hn⟩
        cases inner with
        | nil => simpa using hs
        | cons d inner =>
          simp only [List.cons_append, List.cons.injEq] at hs
          simp [← hs.1] at hn
    · rw [findClose.eq_3 c s hc]
      simp only [Option.map_eq_some_iff, Prod.exists, Prod.mk.injEq]
      constructor
      · rintro ⟨a, b, hab, rfl, rfl⟩
        obtain ⟨rfl, hn⟩ := ih.mp hab
        exact ⟨rfl, by simp [Ne.symm hc, hn]⟩
      · rintro ⟨hs, hn⟩
        cases inner with
        | nil => exact absurd (List.cons.inj hs).1 hc
        | cons d inner =>
          simp only [List.cons_append, List.cons.injEq] at hs
          obtain ⟨rfl, rfl⟩ := hs
          exact ⟨inner, after, ih.mpr ⟨rfl, fun h => hn (List.mem_cons_of_mem _ h)⟩, rfl, rfl⟩

theorem findClose_length {s inner after : Str} (h : findClose s = some (inner, after)) :
    after.length < s.length := by
  rw [(findClose_eq_some.mp h).1]
  simp
  omega

/-- The scan from a byte position, with the answer from there on. -/
def scanMarkers (pos : Nat) (rest : Str) : List (Nat × Nat) :=
  match rest with
  | [] => []
  | c :: rest =>
    if c = '[' then
      match h : findClose rest with
      | none => scanMarkers (pos + 1) rest
      | some (inner, after) =>
        match parseMarkerList inner with
        | some ns => ns.map (fun n => (pos, n)) ++ scanMarkers (pos + 1 + byteLen inner + 1) after
        -- past this `[` only, so that `[[1]]` still has its inner marker
        | none => scanMarkers (pos + 1) rest
    else scanMarkers (pos + c.utf8Size) rest
termination_by rest.length
decreasing_by
  all_goals simp_wf
  all_goals try have hlen := findClose_length h
  all_goals omega

def parseMarkers (answer : Str) : List (Nat × Nat) := scanMarkers 0 answer

/-- A base-10 integer below 2^64, with blanks around it. -/
def Numeral (part : Str) (n : Nat) : Prop :=
  ∃ l digits r, part = l ++ digits ++ r ∧ IsBlank l ∧ IsBlank r ∧ digits ≠ [] ∧
    (∀ c ∈ digits, c.isDigit = true) ∧ n = Nat.ofDigitChars 10 digits 0 ∧ n < 2 ^ 64

/-- The text of a marker: numerals between commas. -/
def MarkerList (inner : Str) (ns : List Nat) : Prop :=
  ∃ parts, parts ≠ [] ∧ inner = [','].intercalate parts ∧ List.Forall₂ Numeral parts ns

/-- A `[` at byte `p`, counted from `pos`, whose text up to the next `]` is a marker's. -/
def MarkerAt (pos : Nat) (answer : Str) (p : Nat) (ns : List Nat) : Prop :=
  ∃ pre inner post, answer = pre ++ '[' :: (inner ++ ']' :: post) ∧ ']' ∉ inner ∧
    pos + byteLen pre = p ∧ MarkerList inner ns

theorem digit_range {c : Char} (h : c.isDigit = true) : 48 ≤ c.toNat ∧ c.toNat ≤ 57 := by
  simpa [Char.isDigit, UInt32.le_iff_toNat_le] using h

theorem digit_not_whitespace {c : Char} (h : c.isDigit = true) : isWhitespace c = false := by
  have hr := digit_range h
  simp only [isWhitespace, Bool.or_eq_false_iff, Bool.and_eq_false_iff, decide_eq_false_iff_not,
    beq_eq_false_iff_ne]
  omega

theorem parseUsize_eq_some {digits : Str} {n : Nat} :
    parseUsize digits = some n ↔ n = Nat.ofDigitChars 10 digits 0 ∧ n < 2 ^ 64 := by
  unfold parseUsize
  simp only [Option.ite_none_right_eq_some, Option.some.injEq]
  constructor
  · rintro ⟨hlt, rfl⟩
    exact ⟨rfl, hlt⟩
  · rintro ⟨rfl, hlt⟩
    exact ⟨hlt, rfl⟩

theorem parseMarkerPart_eq_some {part : Str} {n : Nat} :
    parseMarkerPart part = some n ↔ Numeral part n := by
  unfold parseMarkerPart
  constructor
  · intro h
    simp only [Option.ite_none_left_eq_some, Bool.or_eq_true, Bool.not_eq_true', not_or,
      Bool.not_eq_true, Bool.not_eq_false] at h
    obtain ⟨⟨hne, hd⟩, hn⟩ := h
    obtain ⟨hv, hlt⟩ := parseUsize_eq_some.mp hn
    refine ⟨leadingBlank part, trim part, trailingBlank (trimStart part), ?_,
      leadingBlank_blank _, trailingBlank_blank _, ?_, List.all_eq_true.mp hd, hv, hlt⟩
    · rw [List.append_assoc]
      exact trim_decomposition part
    · simpa using hne
  · rintro ⟨l, digits, r, rfl, hl, hr, hne, hd, hv, hlt⟩
    rw [trim_between hl hr fun c hc => digit_not_whitespace (hd c hc)]
    have hall : digits.all Char.isDigit = true := List.all_eq_true.mpr hd
    simp [hne, hall, parseUsize_eq_some.mpr ⟨hv, hlt⟩]

theorem mapM_parseMarkerPart {parts : List Str} {ns : List Nat} :
    parts.mapM parseMarkerPart = some ns ↔ List.Forall₂ Numeral parts ns := by
  induction parts generalizing ns with
  | nil =>
    rw [List.mapM_nil, List.forall₂_nil_left_iff]
    exact ⟨fun h => (Option.some.inj h).symm, fun h => h ▸ rfl⟩
  | cons part parts ih =>
    rw [List.mapM_cons, List.forall₂_cons_left_iff]
    simp only [Option.bind_eq_bind, Option.bind_eq_some_iff, parseMarkerPart_eq_some, ih]
    constructor
    · rintro ⟨n, hn, ms, hms, h⟩
      exact ⟨n, ms, hn, hms, (Option.some.inj h).symm⟩
    · rintro ⟨n, ms, hn, hms, rfl⟩
      exact ⟨n, hn, ms, hms, rfl⟩

theorem notMem_numeral {part : Str} {n : Nat} {c : Char} (h : Numeral part n)
    (hw : isWhitespace c = false) (hd : c.isDigit = false) : c ∉ part := by
  obtain ⟨l, digits, r, rfl, hl, hr, _, hdig, _, _⟩ := h
  intro hc
  simp only [List.mem_append] at hc
  rcases hc with (hc | hc) | hc
  · simp [hl c hc] at hw
  · simp [hdig c hc] at hd
  · simp [hr c hc] at hw

theorem notMem_numerals {parts : List Str} {ns : List Nat} {c : Char}
    (h : List.Forall₂ Numeral parts ns) (hw : isWhitespace c = false) (hd : c.isDigit = false) :
    ∀ part ∈ parts, c ∉ part := by
  induction h with
  | nil => simp
  | cons hn _ ih =>
    intro part hp
    cases List.mem_cons.mp hp with
    | inl hp => exact hp ▸ notMem_numeral hn hw hd
    | inr hp => exact ih part hp

theorem parseMarkerList_eq_some {inner : Str} {ns : List Nat} :
    parseMarkerList inner = some ns ↔ MarkerList inner ns := by
  unfold parseMarkerList
  constructor
  · intro h
    split at h
    · rename_i ms hms
      simp only [Option.ite_none_left_eq_some, Option.some.injEq] at h
      obtain ⟨_, rfl⟩ := h
      exact ⟨inner.splitOn ',', List.splitOn_ne_nil _ _, (List.intercalate_splitOn ',').symm,
        mapM_parseMarkerPart.mp hms⟩
    · cases h
  · rintro ⟨parts, hne, rfl, hf⟩
    have hsplit : ([','].intercalate parts).splitOn ',' = parts :=
      List.splitOn_intercalate ',' (notMem_numerals hf (by decide) (by decide)) hne
    rw [hsplit, mapM_parseMarkerPart.mpr hf]
    cases hf with
    | nil => exact absurd rfl hne
    | cons => simp

theorem MarkerAt.le {pos p : Nat} {s : Str} {ns : List Nat} (h : MarkerAt pos s p ns) : pos ≤ p := by
  obtain ⟨pre, _, _, _, _, hp, _⟩ := h
  omega

theorem not_markerAt_nil {pos p : Nat} {ns : List Nat} : ¬ MarkerAt pos [] p ns := by
  intro h
  obtain ⟨pre, inner, post, hs, _⟩ := h
  simp at hs

theorem markerAt_later {pos p : Nat} {c : Char} {s : Str} {ns : List Nat} :
    MarkerAt (pos + c.utf8Size) s p ns ↔ ∃ pre inner post, c :: s = c :: pre ++ '[' :: (inner ++ ']' :: post) ∧
      ']' ∉ inner ∧ pos + byteLen (c :: pre) = p ∧ MarkerList inner ns := by
  unfold MarkerAt
  simp only [List.cons_append, List.cons.injEq, true_and, byteLen_cons, Nat.add_assoc]

theorem markerAt_cons {pos p : Nat} {c : Char} {s : Str} {ns : List Nat} (hc : c ≠ '[') :
    MarkerAt pos (c :: s) p ns ↔ MarkerAt (pos + c.utf8Size) s p ns := by
  rw [markerAt_later]
  constructor
  · rintro ⟨pre, inner, post, hs, hi⟩
    cases pre with
    | nil => exact absurd (List.cons.inj hs).1 hc
    | cons d pre =>
      obtain rfl : c = d := (List.cons.inj hs).1
      exact ⟨pre, inner, post, hs, hi⟩
  · rintro ⟨pre, inner, post, hs, hi⟩
    exact ⟨c :: pre, inner, post, hs, hi⟩

theorem markerAt_append {pos p : Nat} {s t : Str} {ns : List Nat} (hs : '[' ∉ s) :
    MarkerAt pos (s ++ t) p ns ↔ MarkerAt (pos + byteLen s) t p ns := by
  induction s generalizing pos with
  | nil => simp
  | cons c s ih =>
    simp only [List.mem_cons, not_or] at hs
    rw [List.cons_append, markerAt_cons (Ne.symm hs.1), ih hs.2, byteLen_cons, Nat.add_assoc]

theorem markerAt_bracket {pos p : Nat} {s : Str} {ns : List Nat} :
    MarkerAt pos ('[' :: s) p ns ↔
      (p = pos ∧ ∃ inner after, findClose s = some (inner, after) ∧ MarkerList inner ns) ∨
        MarkerAt (pos + 1) s p ns := by
  have hlater : MarkerAt (pos + 1) s p ns ↔ _ := markerAt_later (c := '[')
  rw [hlater]
  constructor
  · rintro ⟨pre, inner, post, hs, hi, hp, hl⟩
    cases pre with
    | nil =>
      have hs := (List.cons.inj hs).2
      exact .inl ⟨hp.symm, inner, post, findClose_eq_some.mpr ⟨hs, hi⟩, hl⟩
    | cons d pre =>
      obtain rfl : '[' = d := (List.cons.inj hs).1
      exact .inr ⟨pre, inner, post, hs, hi, hp, hl⟩
  · intro h
    cases h with
    | inl h =>
      obtain ⟨rfl, inner, after, hc, hl⟩ := h
      obtain ⟨rfl, hi⟩ := findClose_eq_some.mp hc
      exact ⟨[], inner, after, rfl, hi, rfl, hl⟩
    | inr h =>
      obtain ⟨pre, inner, post, hs, hi⟩ := h
      exact ⟨'[' :: pre, inner, post, hs, hi⟩

theorem bracket_notMem_intercalate {parts : List Str} (hparts : ∀ part ∈ parts, '[' ∉ part) :
    '[' ∉ [','].intercalate parts := by
  induction parts with
  | nil => simp
  | cons part parts ih =>
    have hhead := hparts part (by simp)
    have htail := ih fun p hp => hparts p (List.mem_cons_of_mem _ hp)
    cases parts with
    | nil => simpa using hhead
    | cons q parts =>
      simp only [List.intercalate_cons_cons, List.mem_append, not_or]
      exact ⟨⟨hhead, by simp⟩, htail⟩

/-- The text of a marker has no bracket. -/
theorem MarkerList.bracket_notMem {inner : Str} {ns : List Nat} (h : MarkerList inner ns) :
    '[' ∉ inner := by
  obtain ⟨parts, _, rfl, hf⟩ := h
  exact bracket_notMem_intercalate (notMem_numerals hf (by decide) (by decide))

/-- What a list of markers contributes: one pair for each number. -/
def markerPairs (ms : List (Nat × List Nat)) : List (Nat × Nat) :=
  ms.flatMap fun m => m.2.map fun n => (m.1, n)

/-- The markers of a text, each once and in order. -/
def MarkersOf (pos : Nat) (s : Str) (ms : List (Nat × List Nat)) : Prop :=
  ms.Pairwise (fun a b => a.1 < b.1) ∧ ∀ p ns, (p, ns) ∈ ms ↔ MarkerAt pos s p ns

theorem scanMarkers_exact (pos : Nat) (s : Str) :
    ∃ ms, scanMarkers pos s = markerPairs ms ∧ MarkersOf pos s ms := by
  fun_induction scanMarkers pos s with
  | case1 pos => exact ⟨[], rfl, List.Pairwise.nil, by simp [not_markerAt_nil]⟩
  | case2 pos s hclose ih =>
    obtain ⟨ms, hs, hord, hmem⟩ := ih
    refine ⟨ms, hs, hord, ?_⟩
    intro p ns
    rw [hmem, markerAt_bracket]
    simp [hclose]
  | case3 pos s inner after hclose ns hlist ih =>
    obtain ⟨ms, hs, hord, hmem⟩ := ih
    have hml := parseMarkerList_eq_some.mp hlist
    -- the markers after this one are those after its closing bracket
    have hskip : ∀ p ms, MarkerAt (pos + 1) s p ms ↔
        MarkerAt (pos + 1 + byteLen inner + 1) after p ms := by
      intro p ms
      rw [(findClose_eq_some.mp hclose).1, markerAt_append hml.bracket_notMem,
        markerAt_cons (by decide)]
      rfl
    refine ⟨(pos, ns) :: ms, ?_, ?_, ?_⟩
    · rw [hs]
      rfl
    · rw [List.pairwise_cons]
      refine ⟨?_, hord⟩
      intro m hm
      have := ((hmem m.1 m.2).mp hm).le
      simp only
      omega
    · intro p ks
      rw [List.mem_cons, Prod.mk.injEq, hmem, markerAt_bracket, hskip]
      apply or_congr_left
      constructor
      · rintro ⟨rfl, rfl⟩
        exact ⟨rfl, inner, after, hclose, hml⟩
      · rintro ⟨rfl, inner', after', hclose', hml'⟩
        rw [hclose] at hclose'
        cases hclose'
        have := parseMarkerList_eq_some.mpr hml'
        rw [hlist] at this
        exact ⟨rfl, (Option.some.inj this).symm⟩
  | case4 pos s inner after hclose hlist ih =>
    obtain ⟨ms, hs, hord, hmem⟩ := ih
    refine ⟨ms, hs, hord, ?_⟩
    intro p ns
    rw [hmem, markerAt_bracket]
    constructor
    · exact .inr
    · intro h
      cases h with
      | inl h =>
        obtain ⟨_, inner', after', hclose', hml⟩ := h
        rw [hclose] at hclose'
        cases hclose'
        rw [parseMarkerList_eq_some.mpr hml] at hlist
        cases hlist
      | inr h => exact h
  | case5 pos c s hc ih =>
    obtain ⟨ms, hs, hord, hmem⟩ := ih
    refine ⟨ms, hs, hord, ?_⟩
    intro p ns
    rw [hmem, markerAt_cons hc]

/-- The scan yields exactly the markers of the answer, in order, with one pair a number. -/
theorem parseMarkers_exact (answer : Str) :
    ∃ ms, parseMarkers answer = markerPairs ms ∧ MarkersOf 0 answer ms :=
  scanMarkers_exact 0 answer

example : parseMarkers "a [[1], 2] [2 ,1][1-3][7".toList = [(3, 1), (11, 2), (11, 1)] := by
  decide +kernel

end Markers

section Citations

variable {κ : Type}

/-- A pointer to the cited passage; only the chunk and its anchor are known at extraction. -/
structure Locator where
  chunkId : String
  anchor : Option Str
  sectionPath : Option Str
  page : Option Nat
  charStart : Option Nat
  charEnd : Option Nat
deriving DecidableEq, Repr

structure Citation where
  sourceId : String
  ordinal : Nat
  markers : List Nat
  locators : List Locator
deriving DecidableEq, Repr

/-- Whether a 1-based marker maps to a unit. -/
def inRange (n len : Nat) : Bool := decide (1 ≤ n ∧ n ≤ len)

def unitLocator (unit : ContextUnit κ) : Locator where
  chunkId := unit.chunkId
  anchor := unit.locator
  sectionPath := none
  page := none
  charStart := none
  charEnd := none

/-- The in-range numbers of the answer with the units they name, in order. -/
def namedUnits (answer : Str) (units : List (ContextUnit κ)) : List (Nat × ContextUnit κ) :=
  (parseMarkers answer).filterMap fun m =>
    if inRange m.2 units.length then units[m.2 - 1]?.map fun unit => (m.2, unit) else none

/-- The locators and markers of one source, with one more number. -/
def addMarker (entry : List Locator × List Nat) (m : Nat × ContextUnit κ) :
    List Locator × List Nat :=
  -- `n as u32` keeps the low 32 bits
  (pushNew Locator.chunkId entry.1 (unitLocator m.2), pushNew id entry.2 (m.1 % 2 ^ 32))

def extractCitations (answer : Str) (units : List (ContextUnit κ)) : List Citation :=
  let groups := group (fun m => m.2.sourceId) ([], []) addMarker (namedUnits answer units)
  groups.zipIdx.map fun g =>
    { sourceId := g.1.1, ordinal := (g.2 + 1) % 2 ^ 32,
      markers := g.1.2.2.insertionSort (· ≤ ·), locators := g.1.2.1 }

/-- An in-range number of the answer and the unit it names. -/
def Named (answer : Str) (units : List (ContextUnit κ)) (n : Nat) (unit : ContextUnit κ) : Prop :=
  (∃ p, (p, n) ∈ parseMarkers answer) ∧ 1 ≤ n ∧ units[n - 1]? = some unit

/-- The citations number the sources in the order they first appear, and cite what the
answer's markers name and nothing else. -/
structure Faithful (answer : Str) (units : List (ContextUnit κ)) (cs : List Citation) : Prop where
  ordinals : cs.map Citation.ordinal = List.range' 1 cs.length
  sources : cs.map Citation.sourceId =
    ((namedUnits answer units).map fun m => m.2.sourceId).eraseDups
  cited : ∀ n unit, Named answer units n unit → ∃ c ∈ cs, n ∈ c.markers ∧
    c.sourceId = unit.sourceId ∧ (∃ l ∈ c.locators, l.chunkId = unit.chunkId) ∧
    ∀ c' ∈ cs, n ∈ c'.markers → c' = c
  markers : ∀ c ∈ cs, c.markers.Pairwise (· < ·)
  locators : ∀ c ∈ cs, (c.locators.map Locator.chunkId).Nodup
  sourceNamed : ∀ c ∈ cs, ∃ n unit, Named answer units n unit ∧ unit.sourceId = c.sourceId
  chunkNamed : ∀ c ∈ cs, ∀ l ∈ c.locators, ∃ n unit, Named answer units n unit ∧
    unit.sourceId = c.sourceId ∧ unit.chunkId = l.chunkId

theorem mem_namedUnits {answer : Str} {units : List (ContextUnit κ)} {n : Nat}
    {unit : ContextUnit κ} : (n, unit) ∈ namedUnits answer units ↔ Named answer units n unit := by
  unfold namedUnits Named inRange
  simp only [List.mem_filterMap, Option.ite_none_right_eq_some, decide_eq_true_eq,
    Option.map_eq_some_iff, Prod.mk.injEq]
  constructor
  · rintro ⟨⟨p, k⟩, hp, ⟨hk, _⟩, u, hu, rfl, rfl⟩
    exact ⟨⟨p, hp⟩, hk, hu⟩
  · rintro ⟨⟨p, hp⟩, hn, hu⟩
    have hlt := (List.getElem?_eq_some_iff.mp hu).1
    exact ⟨(p, n), hp, ⟨hn, by omega⟩, unit, hu, rfl, rfl⟩

/-- The numbers that name a unit of a source. -/
def namedOf (answer : Str) (units : List (ContextUnit κ)) (source : String) :
    List (Nat × ContextUnit κ) :=
  (namedUnits answer units).filter fun m => m.2.sourceId = source

theorem mem_namedOf {answer : Str} {units : List (ContextUnit κ)} {source : String} {n : Nat}
    {unit : ContextUnit κ} : (n, unit) ∈ namedOf answer units source ↔
      Named answer units n unit ∧ unit.sourceId = source := by
  simp [namedOf, mem_namedUnits]

theorem foldl_addMarker (ms : List (Nat × ContextUnit κ)) (entry : List Locator × List Nat) :
    ms.foldl addMarker entry =
      ((ms.map fun m => unitLocator m.2).foldl (pushNew Locator.chunkId) entry.1,
        (ms.map fun m => m.1 % 2 ^ 32).foldl (pushNew id) entry.2) := by
  induction ms generalizing entry with
  | nil => rfl
  | cons m ms ih =>
    rw [List.foldl_cons, ih]
    rfl

/-- The citation of a source that stands at index `i` among the sources. -/
def sourceCitation (answer : Str) (units : List (ContextUnit κ)) (s : String × Nat) : Citation where
  sourceId := s.1
  ordinal := (s.2 + 1) % 2 ^ 32
  markers := ((namedOf answer units s.1).map fun m => m.1 % 2 ^ 32).eraseDups.insertionSort (· ≤ ·)
  locators := ((namedOf answer units s.1).map fun m => unitLocator m.2).foldl
    (pushNew Locator.chunkId) []

/-- The sources named, each once, in the order of their first markers. -/
def namedSources (answer : Str) (units : List (ContextUnit κ)) : List String :=
  ((namedUnits answer units).map fun m => m.2.sourceId).eraseDups

theorem nodup_namedSources (answer : Str) (units : List (ContextUnit κ)) :
    (namedSources answer units).Nodup :=
  nodup_eraseDups _

theorem foldl_pushNew_id (ns : List Nat) : ns.foldl (pushNew id) [] = ns.eraseDups := by
  have h := map_foldl_pushNew id ns
  rwa [List.map_id, List.map_id] at h

theorem extractCitations_eq (answer : Str) (units : List (ContextUnit κ)) :
    extractCitations answer units =
      (namedSources answer units).zipIdx.map (sourceCitation answer units) := by
  unfold extractCitations
  simp only [group_eq, List.zipIdx_map, List.map_map]
  apply List.map_congr_left
  intro s _
  simp only [Function.comp_apply, Prod.map_fst, Prod.map_snd, foldl_addMarker, foldl_pushNew_id]
  rfl

theorem mem_extractCitations {answer : Str} {units : List (ContextUnit κ)} {c : Citation} :
    c ∈ extractCitations answer units ↔
      ∃ s i, (namedSources answer units)[i]? = some s ∧ c = sourceCitation answer units (s, i) := by
  rw [extractCitations_eq]
  simp only [List.mem_map, Prod.exists, List.mem_zipIdx_iff_getElem?, eq_comm]

theorem mem_namedSources {answer : Str} {units : List (ContextUnit κ)} {source : String} :
    source ∈ namedSources answer units ↔
      ∃ n unit, Named answer units n unit ∧ unit.sourceId = source := by
  simp [namedSources, List.mem_eraseDups, mem_namedUnits]

/-- Sources are at most as many as the units that small numbers can name. -/
theorem length_namedSources_lt {answer : Str} {units : List (ContextUnit κ)}
    (hsmall : ∀ n unit, Named answer units n unit → n < 2 ^ 32) :
    (namedSources answer units).length < 2 ^ 32 := by
  have hsub : namedSources answer units ⊆
      (units.take (2 ^ 32 - 1)).map ContextUnit.sourceId := by
    intro s hs
    obtain ⟨n, unit, hn, rfl⟩ := mem_namedSources.mp hs
    have hlt := hsmall n unit hn
    obtain ⟨_, hpos, hu⟩ := hn
    apply List.mem_map_of_mem
    apply List.mem_of_getElem? (i := n - 1)
    rw [List.getElem?_take_of_lt (by omega)]
    exact hu
  have hle := (List.subperm_of_subset (nodup_namedSources answer units) hsub).length_le
  rw [List.length_map, List.length_take] at hle
  omega

theorem mem_sourceCitation_markers {answer : Str} {units : List (ContextUnit κ)} {s : String × Nat}
    {k : Nat} : k ∈ (sourceCitation answer units s).markers ↔
      ∃ n unit, Named answer units n unit ∧ unit.sourceId = s.1 ∧ n % 2 ^ 32 = k := by
  simp only [sourceCitation, List.mem_insertionSort, List.mem_eraseDups, List.mem_map, Prod.exists,
    mem_namedOf, and_assoc]

theorem sourceCitation_markers_sorted (answer : Str) (units : List (ContextUnit κ))
    (s : String × Nat) : (sourceCitation answer units s).markers.Pairwise (· < ·) := by
  have hsorted := List.pairwise_insertionSort (· ≤ ·)
    ((namedOf answer units s.1).map fun m => m.1 % 2 ^ 32).eraseDups
  have hnodup : (sourceCitation answer units s).markers.Nodup :=
    (List.perm_insertionSort _ _).nodup_iff.mpr (nodup_eraseDups _)
  exact hsorted.imp₂ (fun _ _ hle hne => lt_of_le_of_ne hle hne) hnodup

theorem sourceCitation_chunks (answer : Str) (units : List (ContextUnit κ)) (s : String × Nat) :
    (sourceCitation answer units s).locators.map Locator.chunkId =
      ((namedOf answer units s.1).map fun m => m.2.chunkId).eraseDups := by
  unfold sourceCitation
  rw [map_foldl_pushNew, List.map_map]
  rfl

theorem exists_locator_iff {answer : Str} {units : List (ContextUnit κ)} {s : String × Nat}
    {chunk : String} : (∃ l ∈ (sourceCitation answer units s).locators, l.chunkId = chunk) ↔
      ∃ n unit, Named answer units n unit ∧ unit.sourceId = s.1 ∧ unit.chunkId = chunk := by
  rw [← List.mem_map, sourceCitation_chunks]
  simp only [List.mem_eraseDups, List.mem_map, Prod.exists, mem_namedOf, and_assoc]

theorem Named.unique {answer : Str} {units : List (ContextUnit κ)} {n : Nat}
    {u v : ContextUnit κ} (hu : Named answer units n u) (hv : Named answer units n v) : u = v :=
  Option.some.inj (hu.2.2.symm.trans hv.2.2)

/-- Numbers below 2^32 survive the cast, so that only their own source has them. -/
theorem mem_markers_of_small {answer : Str} {units : List (ContextUnit κ)} {s : String × Nat}
    {n : Nat} {unit : ContextUnit κ}
    (hsmall : ∀ n unit, Named answer units n unit → n < 2 ^ 32)
    (hn : Named answer units n unit) :
    n ∈ (sourceCitation answer units s).markers ↔ unit.sourceId = s.1 := by
  rw [mem_sourceCitation_markers]
  constructor
  · rintro ⟨k, v, hk, hsource, hmod⟩
    rw [Nat.mod_eq_of_lt (hsmall k v hk)] at hmod
    subst hmod
    rw [hn.unique hk]
    exact hsource
  · intro hsource
    exact ⟨n, unit, hn, hsource, Nat.mod_eq_of_lt (hsmall n unit hn)⟩

theorem extractCitations_ordinals {answer : Str} {units : List (ContextUnit κ)}
    (hsmall : ∀ n unit, Named answer units n unit → n < 2 ^ 32) :
    (extractCitations answer units).map Citation.ordinal =
      List.range' 1 (extractCitations answer units).length := by
  have hlen := length_namedSources_lt hsmall
  rw [extractCitations_eq, List.map_map, List.length_map, List.length_zipIdx]
  have hord : ∀ s ∈ (namedSources answer units).zipIdx,
      (Citation.ordinal ∘ sourceCitation answer units) s = s.2 + 1 := by
    intro s hs
    have hlt := List.snd_lt_of_mem_zipIdx hs
    exact Nat.mod_eq_of_lt (by omega)
  rw [List.map_congr_left hord, List.range'_eq_map_range]
  have hsnd := List.zipIdx_map_snd 0 (namedSources answer units)
  rw [← List.range_eq_range'] at hsnd
  rw [← hsnd, List.map_map]
  simp [Function.comp_def, Nat.add_comm]

theorem extractCitations_sources (answer : Str) (units : List (ContextUnit κ)) :
    (extractCitations answer units).map Citation.sourceId = namedSources answer units := by
  rw [extractCitations_eq, List.map_map]
  exact List.zipIdx_map_fst 0 (namedSources answer units)

theorem extractCitations_cited {answer : Str} {units : List (ContextUnit κ)}
    (hsmall : ∀ n unit, Named answer units n unit → n < 2 ^ 32) {n : Nat} {unit : ContextUnit κ}
    (hn : Named answer units n unit) : ∃ c ∈ extractCitations answer units, n ∈ c.markers ∧
      c.sourceId = unit.sourceId ∧ (∃ l ∈ c.locators, l.chunkId = unit.chunkId) ∧
      ∀ c' ∈ extractCitations answer units, n ∈ c'.markers → c' = c := by
  have hs : unit.sourceId ∈ namedSources answer units := mem_namedSources.mpr ⟨n, unit, hn, rfl⟩
  obtain ⟨i, hi⟩ := List.mem_iff_getElem?.mp hs
  refine ⟨sourceCitation answer units (unit.sourceId, i),
    mem_extractCitations.mpr ⟨_, i, hi, rfl⟩, (mem_markers_of_small hsmall hn).mpr rfl, rfl,
    exists_locator_iff.mpr ⟨n, unit, hn, rfl, rfl⟩, ?_⟩
  intro c' hc' hmem
  obtain ⟨s, j, hj, rfl⟩ := mem_extractCitations.mp hc'
  have hsource : unit.sourceId = s := (mem_markers_of_small hsmall hn).mp hmem
  subst hsource
  -- a source stands once among the sources
  have hij : i = j := (List.getElem?_inj (List.getElem?_eq_some_iff.mp hi).1
    (nodup_namedSources answer units)).mp (hi.trans hj.symm)
  rw [hij]

/-- A marker is a 32-bit number, so that a larger number of the answer is in no citation. -/
theorem markers_lt {answer : Str} {units : List (ContextUnit κ)} {c : Citation}
    (hc : c ∈ extractCitations answer units) {k : Nat} (hk : k ∈ c.markers) : k < 2 ^ 32 := by
  obtain ⟨s, i, _, rfl⟩ := mem_extractCitations.mp hc
  obtain ⟨n, unit, _, _, rfl⟩ := mem_sourceCitation_markers.mp hk
  exact Nat.mod_lt _ (by decide)

theorem Faithful.markers_small {answer : Str} {units : List (ContextUnit κ)}
    (h : Faithful answer units (extractCitations answer units)) {n : Nat} {unit : ContextUnit κ}
    (hn : Named answer units n unit) : n < 2 ^ 32 := by
  obtain ⟨c, hc, hmem, _⟩ := h.cited n unit hn
  exact markers_lt hc hmem

theorem faithful_of_small {answer : Str} {units : List (ContextUnit κ)}
    (hsmall : ∀ n unit, Named answer units n unit → n < 2 ^ 32) :
    Faithful answer units (extractCitations answer units) := by
  constructor
  case ordinals => exact extractCitations_ordinals hsmall
  case sources => exact extractCitations_sources answer units
  case cited => exact fun n unit hn => extractCitations_cited hsmall hn
  case markers =>
    intro c hc
    obtain ⟨s, i, _, rfl⟩ := mem_extractCitations.mp hc
    exact sourceCitation_markers_sorted answer units (s, i)
  case locators =>
    intro c hc
    obtain ⟨s, i, _, rfl⟩ := mem_extractCitations.mp hc
    rw [sourceCitation_chunks]
    exact nodup_eraseDups _
  case sourceNamed =>
    intro c hc
    obtain ⟨s, i, hi, rfl⟩ := mem_extractCitations.mp hc
    exact mem_namedSources.mp (List.mem_of_getElem? hi)
  case chunkNamed =>
    intro c hc l hl
    obtain ⟨s, i, _, rfl⟩ := mem_extractCitations.mp hc
    exact exists_locator_iff.mp ⟨l, hl, rfl⟩

/-- A unit of one source, to be repeated. -/
def repeatedUnit : ContextUnit Nat where
  text := "text".toList
  sourceId := "s"
  chunkId := "c"
  parentId := none
  locator := none
  orderIndex := 0
  provenance := { source := .dense, graphConfidence := none }

example : extractCitations "a [2][1] b [2,3]".toList [repeatedUnit, repeatedUnit] =
    [{ sourceId := "s", ordinal := 1, markers := [1, 2],
       locators := [unitLocator repeatedUnit] }] := by
  decide +kernel

end Citations

end LensLM
