import LensLM.Dialogue
import Mathlib.Data.Nat.Init

/-!
# The comma clean-up on JSON objects

A JSON text has no trailing comma, so the clean-up keeps it unless the text before it leaves a
quotation open. Then strings are taken for the outside and lose the commas that stand before a
bracket in them.
-/

namespace LensLM

open ByteText JsonText

set_option autoImplicit false

section Settle

/-- The state in which the clean-up comes to a value: `true` when it is within a quotation. -/
def stateOf : Bool → QuoteState
  | true => .inside
  | false => .outside

/-- What is left of the items of a string that the clean-up takes for the outside, and the state
after the closing quote. An escaped quote opens a quotation. -/
def settleItems : List StrItem → List StrItem × Bool
  | [] => ([], true)
  | .short '"' c ok :: is => (.short '"' c ok :: is, false)
  | .plain ',' ok :: is =>
    if closesNext (itemsText is ++ ['"']) then settleItems is
    else (.plain ',' ok :: (settleItems is).1, (settleItems is).2)
  | i :: is => (i :: (settleItems is).1, (settleItems is).2)

def settleString (inQuote : Bool) (s : JString) : JString × Bool :=
  if inQuote then (⟨(settleItems s.items).1⟩, (settleItems s.items).2) else (s, false)

def settleKey (inQuote : Bool) : {b : Bracket} → Key b → Key b × Bool
  | _, .item => (.item, inQuote)
  | _, .name s w w' => (.name (settleString inQuote s).1 w w', (settleString inQuote s).2)

mutual

/-- A value as the clean-up leaves it, and the state after it. -/
def settleJson (inQuote : Bool) : Json → Json × Bool
  | .atom a => (.atom a, inQuote)
  | .str s => (.str (settleString inQuote s).1, (settleString inQuote s).2)
  | .empty b w => (.empty b w, inQuote)
  | .node b w es => (.node b w (settleEntries inQuote es).1, (settleEntries inQuote es).2)

def settleEntries (inQuote : Bool) : {b : Bracket} → Entries b → Entries b × Bool
  | _, .last k v w =>
    let key := settleKey inQuote k
    let value := settleJson key.2 v
    (.last key.1 value.1 w, value.2)
  | _, .cons k v w w' es =>
    let key := settleKey inQuote k
    let value := settleJson key.2 v
    let more := settleEntries value.2 es
    (.cons key.1 value.1 w w' more.1, more.2)

end

end Settle

section Dropping

theorem dropCommas_quoted {q q' : QuoteState} {s : Str} (h : Quoted q s q') (r : Str) :
    dropCommas q (s ++ r) = s ++ dropCommas q' r := by
  induction s generalizing q with
  | nil => exact congrArg (dropCommas · r) (show q = q' from h)
  | cons c s ih =>
    have hq : (q == .outside) = false := by
      cases q with
      | outside => exact absurd rfl h.1
      | inside => rfl
      | escaped => rfl
    rw [List.cons_append, dropCommas, hq, if_neg (by simp), ih h.2]
    rfl

theorem dropCommas_other {s : Str} (h : ∀ c ∈ s, c ≠ ',' ∧ c ≠ '"') (r : Str) :
    dropCommas .outside (s ++ r) = s ++ dropCommas .outside r := by
  induction s with
  | nil => rfl
  | cons c s ih =>
    obtain ⟨hcomma, hquote⟩ := h c List.mem_cons_self
    have hstep : QuoteState.outside.step c = .outside := if_neg hquote
    rw [List.cons_append, dropCommas, if_neg (by simp [hcomma]), hstep,
      ih fun a ha => h a (List.mem_cons_of_mem _ ha)]
    rfl

/-- The characters that the clean-up passes in either state. -/
def isInert (c : Char) : Bool := c != ',' && c != '"' && c != '\\'

theorem dropCommas_inert {s : Str} (h : ∀ c ∈ s, isInert c = true) (q : Bool) (r : Str) :
    dropCommas (stateOf q) (s ++ r) = s ++ dropCommas (stateOf q) r := by
  have hne : ∀ c ∈ s, (c ≠ ',' ∧ c ≠ '"') ∧ c ≠ '\\' := by
    intro c hc
    simpa [isInert] using h c hc
  cases q with
  | true => exact dropCommas_quoted (quoted_of_ne fun c hc => ⟨(hne c hc).1.2, (hne c hc).2⟩) r
  | false => exact dropCommas_other (fun c hc => (hne c hc).1) r

theorem isInert_blank (w : Blank) : ∀ c ∈ w.text, isInert c = true := by
  intro c hc
  rcases isBlank_cases (w.blank c hc) with rfl | rfl | rfl | rfl
  all_goals decide

theorem isInert_atom {c : Char} (h : isAtomChar c = true) : isInert c = true := by
  have hne : ∀ a, isAtomChar a = false → c ≠ a := by
    intro a ha hca
    rw [hca, ha] at h
    cases h
  simp [isInert, hne ',' (by decide), hne '"' (by decide), hne '\\' (by decide)]

theorem isInert_left (b : Bracket) : isInert b.left = true := by
  cases b
  all_goals decide

theorem isInert_right (b : Bracket) : isInert b.right = true := by
  cases b
  all_goals decide

theorem dropCommas_inert_cons {c : Char} (h : isInert c = true) (q : Bool) (r : Str) :
    dropCommas (stateOf q) (c :: r) = c :: dropCommas (stateOf q) r :=
  dropCommas_inert (s := [c]) (fun _ ha => (List.mem_singleton.mp ha) ▸ h) q r

theorem isAsciiWhitespace_of_isBlank {c : Char} (h : isBlank c = true) :
    isAsciiWhitespace c = true := by
  rcases isBlank_cases h with rfl | rfl | rfl | rfl
  all_goals decide

theorem startOf_significant {c : Char} {k : Start} (h : startOf c = some k) :
    isAsciiWhitespace c = false ∧ (c == ']' || c == '}') = false := by
  have hne : ∀ a, startOf a = none → c ≠ a := by
    intro a ha hca
    rw [hca, ha] at h
    cases h
  constructor
  · simp [isAsciiWhitespace, hne ' ' rfl, hne '\t' rfl, hne '\n' rfl, hne '\x0c' rfl, hne '\r' rfl]
  · simp [hne ']' rfl, hne '}' rfl]

/-- Behind a blank the next character tells. -/
theorem closesNext_blank (w : Blank) {c : Char} (hc : isAsciiWhitespace c = false) (r : Str) :
    closesNext (w.text ++ c :: r) = (c == ']' || c == '}') := by
  have hblank := w.blank
  generalize w.text = l at hblank ⊢
  induction l with
  | nil => rw [List.nil_append, closesNext, hc, if_neg (by simp)]
  | cons a l ih =>
    rw [List.cons_append, closesNext,
      if_pos (isAsciiWhitespace_of_isBlank (hblank a List.mem_cons_self))]
    exact ih fun d hd => hblank d (List.mem_cons_of_mem _ hd)

/-- Where an entry follows, no bracket closes. -/
theorem closesNext_entries {b : Bracket} (w : Blank) (es : Entries b) (r : Str) :
    closesNext (w.text ++ (es.text ++ r)) = false := by
  obtain ⟨c, t, k, ht, hc⟩ := es.text_start
  obtain ⟨hspace, hclose⟩ := startOf_significant hc
  rw [ht, List.cons_append, closesNext_blank w hspace, hclose]

theorem dropCommas_comma {b : Bracket} (q : Bool) (w : Blank) (es : Entries b) (r : Str) :
    dropCommas (stateOf q) (',' :: (w.text ++ (es.text ++ r))) =
      ',' :: dropCommas (stateOf q) (w.text ++ (es.text ++ r)) := by
  cases q with
  | true => exact dropCommas_quoted (s := [',']) ⟨by decide, rfl⟩ _
  | false =>
    rw [stateOf, dropCommas, closesNext_entries, if_neg (by simp)]
    rfl

theorem closesNext_quote (s r : Str) : closesNext (s ++ '"' :: r) = closesNext (s ++ ['"']) := by
  induction s with
  | nil => rfl
  | cons c s ih => rw [List.cons_append, List.cons_append, closesNext, closesNext, ih]

theorem codeUnit_other {hex : Str} {n : Nat} (h : codeUnit hex = some n) :
    ∀ c ∈ hex, c ≠ ',' ∧ c ≠ '"' := by
  intro c hc
  obtain ⟨m, hm⟩ := hexDigit_of_codeUnit h c hc
  constructor
  · intro hcomma
    rw [hcomma] at hm
    exact absurd hm (Option.some_ne_none m).symm
  · intro hquote
    rw [hquote] at hm
    exact absurd hm (Option.some_ne_none m).symm

theorem itemText_other {i : StrItem} (hquote : ∀ c ok, i ≠ .short '"' c ok)
    (hcomma : ∀ ok, i ≠ .plain ',' ok) : ∀ c ∈ i.text, c ≠ ',' ∧ c ≠ '"' := by
  intro c hc
  cases i with
  | plain d ok =>
    obtain rfl := List.mem_singleton.mp hc
    refine ⟨?_, isPlain_ne_quote ok⟩
    intro hd
    subst hd
    exact hcomma ok rfl
  | short e d ok =>
    rcases List.mem_cons.mp hc with rfl | hc
    · decide
    · obtain rfl := List.mem_singleton.mp hc
      constructor
      · intro he
        subst he
        exact absurd ok (Option.some_ne_none d).symm
      · intro he
        subst he
        exact hquote d ok rfl
  | unit hex n ok =>
    rcases List.mem_cons.mp hc with rfl | hc
    · decide
    rcases List.mem_cons.mp hc with rfl | hc
    · decide
    · exact codeUnit_other ok c hc

theorem dropCommas_items (is : List StrItem) (r : Str) :
    dropCommas .outside (itemsText is ++ '"' :: r) =
      itemsText (settleItems is).1 ++ '"' :: dropCommas (stateOf (settleItems is).2) r := by
  fun_induction settleItems is with
  | case1 => rfl
  | case2 c ok is =>
    have hrest := dropCommas_quoted ((quoted_itemsText is).append
      (show Quoted .inside ['"'] .outside from ⟨by decide, rfl⟩)) r
    rw [List.append_assoc, List.append_assoc] at hrest
    exact congrArg (fun u => '\\' :: '"' :: u) hrest
  | case3 ok is hclose ih =>
    rw [itemsText_cons]
    show dropCommas .outside (',' :: (itemsText is ++ '"' :: r)) = _
    rw [dropCommas, closesNext_quote, hclose, if_pos (by decide), ih]
  | case4 ok is hclose ih =>
    rw [itemsText_cons, itemsText_cons]
    show dropCommas .outside (',' :: (itemsText is ++ '"' :: r)) = _
    rw [dropCommas, closesNext_quote, if_neg (by simpa using hclose)]
    exact congrArg (',' :: ·) ih
  | case5 i is hquote hcomma ih =>
    rw [itemsText_cons, itemsText_cons, dropCommas_other (itemText_other hquote hcomma), ih]

theorem dropCommas_string (q : Bool) (s : JString) (r : Str) :
    dropCommas (stateOf q) (s.text ++ r) =
      (settleString q s).1.text ++ dropCommas (stateOf (settleString q s).2) r := by
  rw [JString.text_append, JString.text_append]
  cases q with
  | true => exact congrArg ('"' :: ·) (dropCommas_items s.items r)
  | false =>
    have hrest := dropCommas_quoted s.quoted r
    rw [List.append_assoc, List.append_assoc] at hrest
    exact congrArg ('"' :: ·) hrest

theorem dropCommas_key (q : Bool) {b : Bracket} (k : Key b) (r : Str) :
    dropCommas (stateOf q) (k.text ++ r) =
      (settleKey q k).1.text ++ dropCommas (stateOf (settleKey q k).2) r := by
  cases k with
  | item => rfl
  | name s w w' =>
    simp only [Key.text, settleKey, List.append_assoc, List.cons_append]
    rw [dropCommas_string, dropCommas_inert (isInert_blank w), dropCommas_inert_cons (by decide),
      dropCommas_inert (isInert_blank w')]

mutual

theorem dropCommas_json : ∀ (v : Json) (q : Bool) (r : Str), dropCommas (stateOf q) (v.text ++ r) =
    (settleJson q v).1.text ++ dropCommas (stateOf (settleJson q v).2) r
  | .atom a, q, r => dropCommas_inert (fun c hc => isInert_atom (a.chars.2 c hc)) q r
  | .str s, q, r => dropCommas_string q s r
  | .empty b w, q, r => by
    simp only [settleJson, empty_text_append]
    rw [dropCommas_inert_cons (isInert_left b), dropCommas_inert (isInert_blank w),
      dropCommas_inert_cons (isInert_right b)]
  | .node b w es, q, r => by
    simp only [settleJson, node_text_append]
    rw [dropCommas_inert_cons (isInert_left b), dropCommas_inert (isInert_blank w),
      dropCommas_entries es q, dropCommas_inert_cons (isInert_right b)]

theorem dropCommas_entries : ∀ {b : Bracket} (es : Entries b) (q : Bool) (r : Str),
    dropCommas (stateOf q) (es.text ++ r) =
      (settleEntries q es).1.text ++ dropCommas (stateOf (settleEntries q es).2) r
  | _, .last k v w, q, r => by
    simp only [settleEntries, last_text_append]
    rw [dropCommas_key, dropCommas_json v, dropCommas_inert (isInert_blank w)]
  | _, .cons k v w w' es, q, r => by
    simp only [settleEntries, cons_text_append]
    rw [dropCommas_key, dropCommas_json v, dropCommas_inert (isInert_blank w), dropCommas_comma,
      dropCommas_inert (isInert_blank w'), dropCommas_entries es]

end

end Dropping

section Likeness

theorem scriptNames_open : ∀ n ∈ scriptNames, ']' ∉ n ∧ '}' ∉ n := by
  decide

/-- The items hold a closing bracket. -/
def HasCloser (is : List StrItem) : Prop := ∃ c ok, StrItem.plain c ok ∈ is ∧ (c = ']' ∨ c = '}')

theorem HasCloser.cons {is : List StrItem} (h : HasCloser is) (i : StrItem) : HasCloser (i :: is) := by
  obtain ⟨c, ok, hmem, hc⟩ := h
  exact ⟨c, ok, List.mem_cons_of_mem i hmem, hc⟩

theorem mem_itemsValue {p : Option Nat} {is : List StrItem} {s : Str} (h : itemsValue p is = some s)
    {c : Char} {ok : isPlain c = true} (hmem : StrItem.plain c ok ∈ is) : c ∈ s := by
  fun_induction itemsValue p is generalizing s with
  | case1 => cases hmem
  | case2 d ok' is ih =>
    obtain ⟨u, hu, rfl⟩ := Option.map_eq_some_iff.mp h
    cases hmem with
    | head => exact List.mem_cons_self
    | tail _ hmem => exact List.mem_cons_of_mem d (ih hu hmem)
  | case3 e d ok' is ih =>
    obtain ⟨u, hu, rfl⟩ := Option.map_eq_some_iff.mp h
    cases hmem with
    | tail _ hmem => exact List.mem_cons_of_mem d (ih hu hmem)
  | case4 hex n ok' is hhigh ih =>
    cases hmem with
    | tail _ hmem => exact ih h hmem
  | case5 hex n ok' is hhigh hlow => cases h
  | case6 hex n ok' is hhigh hlow ih =>
    obtain ⟨u, hu, rfl⟩ := Option.map_eq_some_iff.mp h
    cases hmem with
    | tail _ hmem => exact List.mem_cons_of_mem _ (ih hu hmem)
  | case7 hex n ok' is m hlow ih =>
    obtain ⟨u, hu, rfl⟩ := Option.map_eq_some_iff.mp h
    cases hmem with
    | tail _ hmem => exact List.mem_cons_of_mem _ (ih hu hmem)
  | case8 hex n ok' is m hlow => cases h
  | case9 m is hne => cases h

theorem HasCloser.value_ne {s : JString} (h : HasCloser s.items) :
    ∀ n ∈ scriptNames, s.value ≠ some n := by
  intro n hn hvalue
  obtain ⟨c, ok, hmem, hc⟩ := h
  have hin := mem_itemsValue hvalue hmem
  obtain ⟨hsquare, hcurly⟩ := scriptNames_open n hn
  rcases hc with rfl | rfl
  · exact hsquare hin
  · exact hcurly hin

theorem settleItems_plain {c : Char} (hc : c ≠ ',') (ok : isPlain c = true) (is : List StrItem) :
    settleItems (.plain c ok :: is) = (.plain c ok :: (settleItems is).1, (settleItems is).2) := by
  rw [settleItems]
  · intro d ok' h
    cases h
  · intro ok' h
    cases h
    exact hc rfl

/-- Where a bracket closes next, a plain character comes first and the bracket is kept. -/
theorem closesNext_items {is : List StrItem} (h : closesNext (itemsText is ++ ['"']) = true) :
    HasCloser is ∧ HasCloser (settleItems is).1 ∧ ∃ c ok is' is'',
      is = .plain c ok :: is' ∧ (settleItems is).1 = .plain c ok :: is'' := by
  induction is with
  | nil => exact absurd h (by decide)
  | cons i is ih =>
    rw [itemsText_cons] at h
    cases i with
    | plain c ok =>
      have hkeep := fun hc => settleItems_plain (c := c) hc ok is
      change closesNext (c :: (itemsText is ++ ['"'])) = true at h
      rw [closesNext] at h
      by_cases hspace : isAsciiWhitespace c = true
      · rw [if_pos hspace] at h
        obtain ⟨hold, hnew, _⟩ := ih h
        have hcomma : c ≠ ',' := by
          intro hc
          rw [hc] at hspace
          exact absurd hspace (by decide)
        rw [hkeep hcomma]
        exact ⟨hold.cons _, hnew.cons _, c, ok, is, _, rfl, rfl⟩
      · rw [if_neg hspace] at h
        have hc : c = ']' ∨ c = '}' := by simpa using h
        have hcomma : c ≠ ',' := by
          rcases hc with rfl | rfl
          all_goals decide
        rw [hkeep hcomma]
        exact ⟨⟨c, ok, List.mem_cons_self, hc⟩, ⟨c, ok, List.mem_cons_self, hc⟩, c, ok, is, _, rfl, rfl⟩
    | short e c ok => exact absurd h Bool.false_ne_true
    | unit hex n ok => exact absurd h Bool.false_ne_true

theorem settleItems_or (is : List StrItem) :
    (settleItems is).1 = is ∨ HasCloser is ∧ HasCloser (settleItems is).1 := by
  fun_induction settleItems is with
  | case1 => exact .inl rfl
  | case2 c ok is => exact .inl rfl
  | case3 ok is hclose ih =>
    obtain ⟨hold, hnew, _⟩ := closesNext_items hclose
    exact .inr ⟨hold.cons _, hnew⟩
  | case4 ok is hclose ih =>
    cases ih with
    | inl h => exact .inl (congrArg _ h)
    | inr h => exact .inr ⟨h.1.cons _, h.2.cons _⟩
  | case5 i is hquote hcomma ih =>
    cases ih with
    | inl h => exact .inl (congrArg _ h)
    | inr h => exact .inr ⟨h.1.cons _, h.2.cons _⟩

theorem itemsValue_cons_isSome {i : StrItem} {is is' : List StrItem}
    (h : ∀ p, (itemsValue p is).isSome = (itemsValue p is').isSome) (p : Option Nat) :
    (itemsValue p (i :: is)).isSome = (itemsValue p (i :: is')).isSome := by
  cases p with
  | none =>
    cases i with
    | plain c ok => simp only [itemsValue, Option.isSome_map, h]
    | short e c ok => simp only [itemsValue, Option.isSome_map, h]
    | unit hex n ok =>
      simp only [itemsValue]
      split
      · exact h (some n)
      · split
        · rfl
        · simp only [Option.isSome_map, h]
  | some m =>
    cases i with
    | plain c ok => rfl
    | short e c ok => rfl
    | unit hex n ok =>
      simp only [itemsValue]
      split
      · simp only [Option.isSome_map, h]
      · rfl

theorem settleItems_valid (is : List StrItem) : ∀ p,
    (itemsValue p (settleItems is).1).isSome = (itemsValue p is).isSome := by
  fun_induction settleItems is with
  | case1 => exact fun p => rfl
  | case2 c ok is => exact fun p => rfl
  | case3 ok is hclose ih =>
    obtain ⟨_, _, c, ok', is', is'', his, hsettled⟩ := closesNext_items hclose
    intro p
    cases p with
    | none =>
      rw [ih, itemsValue, Option.isSome_map]
    | some m =>
      rw [hsettled]
      rfl
  | case4 ok is hclose ih => exact itemsValue_cons_isSome ih
  | case5 i is hquote hcomma ih => exact itemsValue_cons_isSome ih

theorem settleString_like (q : Bool) (s : JString) :
    s.Like scriptNames (settleString q s).1 := by
  cases q with
  | false => exact .same s
  | true =>
    cases settleItems_or s.items with
    | inl h =>
      have hs : (settleString true s).1 = s := congrArg JString.mk h
      rw [hs]
      exact .same s
    | inr h =>
      exact .other h.1.value_ne (HasCloser.value_ne (s := (settleString true s).1) h.2)
        (settleItems_valid s.items none)

theorem settleKey_like (q : Bool) {b : Bracket} (k : Key b) :
    k.Like scriptNames (settleKey q k).1 := by
  cases k with
  | item => exact .item
  | name s w w' => exact .name (settleString_like q s)

mutual

theorem settleJson_like : ∀ (v : Json) (q : Bool), Json.Like scriptNames v (settleJson q v).1
  | .atom a, _ => .atom a
  | .str s, q => .str (settleString_like q s)
  | .empty b w, _ => .empty b w
  | .node _ _ es, q => .node (settleEntries_like es q)

theorem settleEntries_like : ∀ {b : Bracket} (es : Entries b) (q : Bool),
    Entries.Like scriptNames es (settleEntries q es).1
  | _, .last k v _, q => .last (settleKey_like q k) (settleJson_like v _)
  | _, .cons k v _ _ es, q =>
    .cons (settleKey_like q k) (settleJson_like v _) (settleEntries_like es _)

end

end Likeness

end LensLM
