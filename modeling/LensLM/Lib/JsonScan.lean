import LensLM.Lib.JsonText

/-!
# Scanning JSON texts

A scanner that knows only quotes and escapes keeps in step with a JSON text, and a scanner
that also counts brackets ends where the value ends.
-/

namespace JsonText

open ByteText

set_option autoImplicit false

inductive QuoteState where
  | outside
  | inside
  | escaped
deriving DecidableEq, Repr

def QuoteState.step : QuoteState → Char → QuoteState
  | .outside, c => if c = '"' then .inside else .outside
  | .inside, c => if c = '\\' then .escaped else if c = '"' then .outside else .inside
  | .escaped, _ => .inside

/-- The scanner's state after a text. -/
def QuoteState.run (q : QuoteState) (s : Str) : QuoteState := s.foldl QuoteState.step q

def isBracket (c : Char) : Bool := c == '[' || c == ']' || c == '{' || c == '}'

/-- What a scanner counts, from one character outside strings to the next; `true` at the
character where it ends. -/
structure Tracker (D : Type) where
  step : D → Char → D × Bool

variable {D : Type}

/-- The text up to and with the character where the tracker ends. -/
def Tracker.take (t : Tracker D) : QuoteState → D → Str → Option Str
  | _, _, [] => none
  | .outside, d, c :: cs =>
    if (t.step d c).2 then some [c]
    else (t.take (QuoteState.outside.step c) (t.step d c).1 cs).map (c :: ·)
  | q, d, c :: cs => (t.take (q.step c) d cs).map (c :: ·)

/-- Only brackets count, and a pair of them gives the count back when something is open. -/
structure Tracker.Balanced (t : Tracker D) (Open : D → Prop) : Prop where
  other : ∀ d c, isBracket c = false → t.step d c = (d, false)
  pair : ∀ d (b : Bracket), Open d → ∃ d', t.step d b.left = (d', false) ∧ Open d' ∧
    t.step d' b.right = (d, false)

/-- The tracker goes over `s` and keeps its count. -/
def Tracker.Passes (t : Tracker D) (d : D) (q : QuoteState) (s : Str) (q' : QuoteState) : Prop :=
  ∀ r, t.take q d (s ++ r) = (t.take q' d r).map (s ++ ·)

section Quoted

/-- The text is read within a string up to its end. -/
def Quoted : QuoteState → Str → QuoteState → Prop
  | q, [], q' => q = q'
  | q, c :: cs, q' => q ≠ .outside ∧ Quoted (q.step c) cs q'

theorem Quoted.append {q q' q'' : QuoteState} {s s' : Str} (h : Quoted q s q')
    (h' : Quoted q' s' q'') : Quoted q (s ++ s') q'' := by
  induction s generalizing q with
  | nil => exact (show q = q' from h) ▸ h'
  | cons c s ih => exact ⟨h.1, ih h.2⟩

theorem quoted_of_ne {s : Str} (h : ∀ c ∈ s, c ≠ '"' ∧ c ≠ '\\') : Quoted .inside s .inside := by
  induction s with
  | nil => rfl
  | cons c s ih =>
    obtain ⟨hquote, hback⟩ := h c List.mem_cons_self
    refine ⟨by decide, ?_⟩
    rw [QuoteState.step, if_neg hback, if_neg hquote]
    exact ih fun d hd => h d (List.mem_cons_of_mem _ hd)

theorem hexDigit_of_mem {hex : Str} {ds : List Nat} (h : hex.mapM hexDigit = some ds) :
    ∀ c ∈ hex, ∃ n, hexDigit c = some n := by
  induction hex generalizing ds with
  | nil => exact fun c hc => by cases hc
  | cons a hex ih =>
    rw [List.mapM_cons] at h
    obtain ⟨n, hn, h⟩ := Option.bind_eq_some_iff.mp h
    obtain ⟨ns, hns, _⟩ := Option.bind_eq_some_iff.mp h
    intro c hc
    cases hc with
    | head => exact ⟨n, hn⟩
    | tail _ hc => exact ih hns c hc

theorem hexDigit_of_codeUnit {hex : Str} {n : Nat} (h : codeUnit hex = some n) :
    ∀ c ∈ hex, ∃ m, hexDigit c = some m := by
  rw [codeUnit, if_pos (codeUnit_length h)] at h
  obtain ⟨ds, hds, _⟩ := Option.map_eq_some_iff.mp h
  exact hexDigit_of_mem hds

theorem codeUnit_quoted {hex : Str} {n : Nat} (h : codeUnit hex = some n) :
    Quoted .inside hex .inside := by
  apply quoted_of_ne
  intro c hc
  obtain ⟨m, hm⟩ := hexDigit_of_codeUnit h c hc
  constructor
  · intro hq
    rw [hq] at hm
    exact absurd hm (Option.some_ne_none m).symm
  · intro hb
    rw [hb] at hm
    exact absurd hm (Option.some_ne_none m).symm

theorem StrItem.quoted (i : StrItem) : Quoted .inside i.text .inside := by
  cases i with
  | plain c ok =>
    apply quoted_of_ne
    intro d hd
    obtain rfl := List.mem_singleton.mp hd
    exact ⟨isPlain_ne_quote ok, isPlain_ne_backslash ok⟩
  | short e c ok => exact ⟨by decide, by decide, rfl⟩
  | unit hex n ok => exact ⟨by decide, by decide, codeUnit_quoted ok⟩

theorem quoted_itemsText (is : List StrItem) : Quoted .inside (itemsText is) .inside := by
  induction is with
  | nil => rfl
  | cons i is ih => exact i.quoted.append ih

theorem JString.quoted (s : JString) : Quoted .inside (itemsText s.items ++ ['"']) .outside :=
  (quoted_itemsText s.items).append ⟨by decide, rfl⟩

end Quoted

section Passes

variable {t : Tracker D} {Open : D → Prop} {d : D} {q q' q'' : QuoteState}

theorem Tracker.Passes.append {s s' : Str} (h : t.Passes d q s q') (h' : t.Passes d q' s' q'') :
    t.Passes d q (s ++ s') q'' := by
  intro r
  rw [List.append_assoc, h, h', Option.map_map]
  congr 1
  funext u
  exact (List.append_assoc s s' u).symm

theorem Tracker.passes_single {c : Char} (h : q = .outside → t.step d c = (d, false)) :
    t.Passes d q [c] (q.step c) := by
  intro r
  cases q with
  | outside => rw [List.singleton_append, Tracker.take, h rfl, if_neg Bool.false_ne_true]; rfl
  | inside => rfl
  | escaped => rfl

theorem Tracker.passes_quoted {s : Str} (h : Quoted q s q') : t.Passes d q s q' := by
  induction s generalizing q with
  | nil =>
    obtain rfl : q = q' := h
    intro r
    exact Option.map_id'.symm
  | cons c s ih => exact (Tracker.passes_single fun hq => absurd hq h.1).append (ih h.2)

/-- The tracker goes over what is neither quote nor bracket. -/
theorem Tracker.Balanced.passes_other (h : t.Balanced Open) {s : Str}
    (hs : ∀ c ∈ s, isBracket c = false ∧ c ≠ '"') : t.Passes d .outside s .outside := by
  induction s with
  | nil => exact fun r => Option.map_id'.symm
  | cons c s ih =>
    obtain ⟨hc, hquote⟩ := hs c List.mem_cons_self
    have hstep : QuoteState.outside.step c = .outside := if_neg hquote
    have hone := Tracker.passes_single (q := .outside) fun _ => h.other d c hc
    rw [hstep] at hone
    exact hone.append (ih fun a ha => hs a (List.mem_cons_of_mem _ ha))

theorem Tracker.Balanced.passes_blank (h : t.Balanced Open) (w : Blank) :
    t.Passes d .outside w.text .outside := by
  apply h.passes_other
  intro c hc
  rcases isBlank_cases (w.blank c hc) with rfl | rfl | rfl | rfl
  all_goals decide

theorem Tracker.Balanced.passes_char (h : t.Balanced Open) {c : Char}
    (hc : isBracket c = false ∧ c ≠ '"') : t.Passes d .outside [c] .outside :=
  h.passes_other fun _ ha => (List.mem_singleton.mp ha) ▸ hc

theorem Tracker.Balanced.passes_str (h : t.Balanced Open) (s : JString) :
    t.Passes d .outside s.text .outside := by
  have hquote := Tracker.passes_single (q := .outside) fun _ => h.other d '"' (by decide)
  exact hquote.append (Tracker.passes_quoted s.quoted)

theorem isAtomChar_other {c : Char} (h : isAtomChar c = true) : isBracket c = false ∧ c ≠ '"' := by
  have hne : ∀ a, isAtomChar a = false → c ≠ a := by
    intro a ha hca
    rw [hca, ha] at h
    cases h
  refine ⟨?_, hne _ (by decide)⟩
  simp [isBracket, hne '[' (by decide), hne ']' (by decide), hne '{' (by decide),
    hne '}' (by decide)]

theorem Tracker.Balanced.passes_key (h : t.Balanced Open) {b : Bracket} (k : Key b) :
    t.Passes d .outside k.text .outside := by
  cases k with
  | item => exact fun r => Option.map_id'.symm
  | name s w w' =>
    have hcolon := h.passes_char (d := d) (c := ':') (by decide)
    exact (h.passes_str s).append ((h.passes_blank w).append (hcolon.append (h.passes_blank w')))

theorem Tracker.take_step {d' : D} {c : Char} (hc : c ≠ '"') (h : t.step d c = (d', false))
    (r : Str) : t.take .outside d (c :: r) = (t.take .outside d' r).map (c :: ·) := by
  have hstep : QuoteState.outside.step c = .outside := if_neg hc
  rw [Tracker.take, h, if_neg Bool.false_ne_true, hstep]

theorem Tracker.take_stop {c : Char} (h : (t.step d c).2 = true) (r : Str) :
    t.take .outside d (c :: r) = some [c] := by
  rw [Tracker.take, if_pos h]

theorem left_ne_quote (b : Bracket) : b.left ≠ '"' := by
  cases b
  all_goals decide

theorem right_ne_quote (b : Bracket) : b.right ≠ '"' := by
  cases b
  all_goals decide

theorem Tracker.passes_pair {d' : D} {b : Bracket} {s : Str} (hl : t.step d b.left = (d', false))
    (hs : t.Passes d' .outside s .outside) (hr : t.step d' b.right = (d, false)) :
    t.Passes d .outside (b.left :: (s ++ [b.right])) .outside := by
  intro r
  rw [List.cons_append, List.append_assoc, List.singleton_append,
    Tracker.take_step (left_ne_quote b) hl, hs, Tracker.take_step (right_ne_quote b) hr,
    Option.map_map, Option.map_map]
  congr 1
  funext u
  simp

/-- The tracker ends at the bracket that closes its first one. -/
theorem Tracker.take_pair {d' : D} {b : Bracket} {s : Str} (hl : t.step d b.left = (d', false))
    (hs : t.Passes d' .outside s .outside) (hr : (t.step d' b.right).2 = true) (r : Str) :
    t.take .outside d (b.left :: (s ++ [b.right]) ++ r) = some (b.left :: (s ++ [b.right])) := by
  rw [List.cons_append, List.append_assoc, List.singleton_append,
    Tracker.take_step (left_ne_quote b) hl, hs, Tracker.take_stop hr]
  rfl

mutual

theorem Json.passes (h : t.Balanced Open) : ∀ (v : Json) (d : D), Open d →
    t.Passes d .outside v.text .outside
  | .atom a, d, _ => h.passes_other fun c hc => isAtomChar_other (a.chars.2 c hc)
  | .str s, d, _ => h.passes_str s
  | .empty b w, d, hd => by
    obtain ⟨d', hl, _, hr⟩ := h.pair d b hd
    exact Tracker.passes_pair hl (h.passes_blank w) hr
  | .node b w es, d, hd => by
    obtain ⟨d', hl, hd', hr⟩ := h.pair d b hd
    have hin := (h.passes_blank (d := d') w).append (Entries.passes h es d' hd')
    rw [Json.text, ← List.append_assoc]
    exact Tracker.passes_pair hl hin hr

theorem Entries.passes (h : t.Balanced Open) : ∀ {b : Bracket} (es : Entries b) (d : D), Open d →
    t.Passes d .outside es.text .outside
  | _, .last k v w, d, hd => by
    rw [Entries.text]
    exact (h.passes_key k).append ((Json.passes h v d hd).append (h.passes_blank w))
  | _, .cons k v w w' es, d, hd => by
    have hcomma := h.passes_char (d := d) (c := ',') (by decide)
    rw [Entries.text]
    exact (h.passes_key k).append ((Json.passes h v d hd).append ((h.passes_blank w).append
      (hcomma.append ((h.passes_blank w').append (Entries.passes h es d hd)))))

end

/-- What stands between the outer brackets of a value. -/
theorem Json.take_bracket (h : t.Balanced Open) {v : Json} {b : Bracket} {d' : D}
    (hv : v.start = .bracket b) (hl : t.step d b.left = (d', false)) (hd' : Open d')
    (hr : (t.step d' b.right).2 = true) (r : Str) :
    t.take .outside d (v.text ++ r) = some v.text := by
  cases v with
  | atom a => cases hv
  | str s => cases hv
  | empty b' w =>
    cases hv
    exact Tracker.take_pair hl (h.passes_blank w) hr r
  | node b' w es =>
    cases hv
    rw [Json.text, ← List.append_assoc]
    exact Tracker.take_pair hl ((h.passes_blank w).append (Entries.passes h es d' hd')) hr r

/-- What a tracker takes is the beginning of the text. -/
theorem Tracker.take_prefix {s u : Str} (h : t.take q d s = some u) : ∃ r, s = u ++ r := by
  induction s generalizing q d u with
  | nil => cases h
  | cons c s ih =>
    cases q with
    | outside =>
      rw [Tracker.take] at h
      split at h
      · obtain rfl := Option.some.inj h
        exact ⟨s, rfl⟩
      · obtain ⟨u', hu', rfl⟩ := Option.map_eq_some_iff.mp h
        obtain ⟨r, rfl⟩ := ih hu'
        exact ⟨r, rfl⟩
    | inside =>
      obtain ⟨u', hu', rfl⟩ := Option.map_eq_some_iff.mp h
      obtain ⟨r, rfl⟩ := ih hu'
      exact ⟨r, rfl⟩
    | escaped =>
      obtain ⟨u', hu', rfl⟩ := Option.map_eq_some_iff.mp h
      obtain ⟨r, rfl⟩ := ih hu'
      exact ⟨r, rfl⟩

end Passes

end JsonText
