import LensLM.Lib.ByteText
import Mathlib.Data.List.Basic

/-!
# JSON texts

Values with their spelling: blanks, escapes and the raw text of numbers. A value is read back
from its text in one way only.
-/

namespace JsonText

open ByteText

set_option autoImplicit false

def isBlank (c : Char) : Bool := c == ' ' || c == '\t' || c == '\n' || c == '\r'

structure Blank where
  text : Str
  blank : ∀ c ∈ text, isBlank c = true

def Blank.empty : Blank := ⟨[], fun c hc => by cases hc⟩

section Strings

def isPlain (c : Char) : Bool := ' ' ≤ c && c != '"' && c != '\\'

/-- What a one-letter escape stands for. -/
def shortEscape : Char → Option Char
  | '"' => some '"'
  | '\\' => some '\\'
  | '/' => some '/'
  | 'b' => some '\x08'
  | 'f' => some '\x0c'
  | 'n' => some '\n'
  | 'r' => some '\r'
  | 't' => some '\t'
  | _ => none

def hexDigit (c : Char) : Option Nat :=
  if '0' ≤ c ∧ c ≤ '9' then some (c.toNat - 48)
  else if 'a' ≤ c ∧ c ≤ 'f' then some (c.toNat - 87)
  else if 'A' ≤ c ∧ c ≤ 'F' then some (c.toNat - 55)
  else none

/-- The code unit that four hexadecimal digits spell. -/
def codeUnit (hex : Str) : Option Nat :=
  if hex.length = 4 then (hex.mapM hexDigit).map fun ds => ds.foldl (fun n d => 16 * n + d) 0
  else none

/-- A character of a string as it is spelled. -/
inductive StrItem where
  | plain (c : Char) (ok : isPlain c = true)
  | short (e c : Char) (ok : shortEscape e = some c)
  | unit (hex : Str) (n : Nat) (ok : codeUnit hex = some n)

def StrItem.text : StrItem → Str
  | .plain c _ => [c]
  | .short e _ _ => ['\\', e]
  | .unit hex _ _ => '\\' :: 'u' :: hex

def isHighSurrogate (n : Nat) : Bool := 0xD800 ≤ n && n < 0xDC00

def isLowSurrogate (n : Nat) : Bool := 0xDC00 ≤ n && n < 0xE000

/-- The string that the items spell after a pending high surrogate; a surrogate without its
partner spells none. -/
def itemsValue : Option Nat → List StrItem → Option Str
  | none, [] => some []
  | none, .plain c _ :: is => (itemsValue none is).map (c :: ·)
  | none, .short _ c _ :: is => (itemsValue none is).map (c :: ·)
  | none, .unit _ n _ :: is =>
    if isHighSurrogate n then itemsValue (some n) is
    else if isLowSurrogate n then none
    else (itemsValue none is).map (Char.ofNat n :: ·)
  | some m, .unit _ n _ :: is =>
    if isLowSurrogate n then
      (itemsValue none is).map (Char.ofNat (0x10000 + (m - 0xD800) * 0x400 + (n - 0xDC00)) :: ·)
    else none
  | some _, _ => none

structure JString where
  items : List StrItem

def itemsText (is : List StrItem) : Str := is.flatMap StrItem.text

def JString.text (s : JString) : Str := '"' :: (itemsText s.items ++ ['"'])

def JString.value (s : JString) : Option Str := itemsValue none s.items

end Strings

section Atoms

/-- The characters of numbers and of the three literals. -/
def isAtomChar (c : Char) : Bool := c.isAlphanum || c == '+' || c == '-' || c == '.'

def skipDigits : Str → Option Str
  | c :: cs => if c.isDigit then some (cs.dropWhile Char.isDigit) else none
  | [] => none

def skipInt : Str → Option Str
  | '-' :: '0' :: cs => some cs
  | '-' :: cs => skipDigits cs
  | '0' :: cs => some cs
  | cs => skipDigits cs

def skipFraction : Str → Option Str
  | '.' :: cs => skipDigits cs
  | cs => some cs

def skipExponent : Str → Option Str
  | c :: cs =>
    if c = 'e' ∨ c = 'E' then
      match cs with
      | '+' :: ds => skipDigits ds
      | '-' :: ds => skipDigits ds
      | ds => skipDigits ds
    else some (c :: cs)
  | [] => some []

def isNumber (s : Str) : Bool :=
  ((skipInt s).bind skipFraction).bind skipExponent == some []

structure Atom where
  text : Str
  chars : text ≠ [] ∧ ∀ c ∈ text, isAtomChar c = true
  ok : text = "true".toList ∨ text = "false".toList ∨ text = "null".toList ∨ isNumber text = true

end Atoms

section Values

inductive Bracket where
  | square
  | curly
deriving DecidableEq, Repr

def Bracket.left : Bracket → Char
  | .square => '['
  | .curly => '{'

def Bracket.right : Bracket → Char
  | .square => ']'
  | .curly => '}'

/-- What stands before a value: nothing in an array, the member's name in an object. -/
inductive Key : Bracket → Type where
  | item : Key .square
  | name (s : JString) (before after : Blank) : Key .curly

def Key.text : {b : Bracket} → Key b → Str
  | _, .item => []
  | _, .name s w w' => s.text ++ (w.text ++ ':' :: w'.text)

def Key.string : Key .curly → JString
  | .name s _ _ => s

mutual

inductive Json : Type where
  | atom (a : Atom)
  | str (s : JString)
  | empty (b : Bracket) (inside : Blank)
  | node (b : Bracket) (lead : Blank) (es : Entries b)

inductive Entries : Bracket → Type where
  | last {b : Bracket} (k : Key b) (v : Json) (after : Blank) : Entries b
  | cons {b : Bracket} (k : Key b) (v : Json) (after next : Blank) (more : Entries b) : Entries b

end

mutual

def Json.text : Json → Str
  | .atom a => a.text
  | .str s => s.text
  | .empty b w => b.left :: (w.text ++ [b.right])
  | .node b w es => b.left :: (w.text ++ (es.text ++ [b.right]))

def Entries.text : {b : Bracket} → Entries b → Str
  | _, .last k v w => k.text ++ (v.text ++ w.text)
  | _, .cons k v w w' es => k.text ++ (v.text ++ (w.text ++ ',' :: (w'.text ++ es.text)))

end

def Entries.toList : {b : Bracket} → Entries b → List (Key b × Json)
  | _, .last k v _ => [(k, v)]
  | _, .cons k v _ _ es => (k, v) :: es.toList

/-- The elements of an array. -/
def Json.elements : Json → Option (List Json)
  | .empty .square _ => some []
  | .node .square _ es => some (es.toList.map Prod.snd)
  | _ => none

end Values

section Unambiguous

/-- `r` does not begin in the class `p`. -/
def Stops (p : Char → Bool) (r : Str) : Prop := ∀ c ∈ r.head?, p c = false

theorem run_inj {p : Char → Bool} {l l' r r' : Str} (hl : ∀ c ∈ l, p c = true)
    (hl' : ∀ c ∈ l', p c = true) (hr : Stops p r) (hr' : Stops p r') (h : l ++ r = l' ++ r') :
    l = l' ∧ r = r' := by
  induction l generalizing l' with
  | nil =>
    cases l' with
    | nil => exact ⟨rfl, h⟩
    | cons c l' =>
      have hstop := hr c (by rw [show r = c :: (l' ++ r') from h]; rfl)
      exact absurd (hl' c List.mem_cons_self) (by simp [hstop])
  | cons a l ih =>
    cases l' with
    | nil =>
      have hstop := hr' a (by rw [show r' = a :: (l ++ r) from h.symm]; rfl)
      exact absurd (hl a List.mem_cons_self) (by simp [hstop])
    | cons c l' =>
      obtain ⟨rfl, htail⟩ := List.cons.inj h
      obtain ⟨rfl, hrr⟩ := ih (fun c hc => hl c (List.mem_cons_of_mem _ hc))
        (fun c hc => hl' c (List.mem_cons_of_mem _ hc)) htail
      exact ⟨rfl, hrr⟩

theorem Blank.ext' {w w' : Blank} (h : w.text = w'.text) : w = w' := by
  cases w
  cases w'
  cases h
  rfl

theorem Blank.text_inj {w w' : Blank} {c c' : Char} {t t' : Str} (hc : isBlank c = false)
    (hc' : isBlank c' = false) (h : w.text ++ c :: t = w'.text ++ c' :: t') :
    w = w' ∧ c = c' ∧ t = t' := by
  obtain ⟨htext, hrest⟩ := run_inj w.blank w'.blank (fun d hd => by cases hd; exact hc)
    (fun d hd => by cases hd; exact hc') h
  obtain ⟨rfl, rfl⟩ := List.cons.inj hrest
  exact ⟨Blank.ext' htext, rfl, rfl⟩

theorem codeUnit_length {hex : Str} {n : Nat} (h : codeUnit hex = some n) : hex.length = 4 := by
  by_contra hne
  simp [codeUnit, hne] at h

/-- Two spelled code units at one place are one. -/
theorem codeUnit_inj {hex hex' r r' : Str} {n n' : Nat} (h : codeUnit hex = some n)
    (h' : codeUnit hex' = some n') (heq : hex ++ r = hex' ++ r') : hex = hex' ∧ n = n' ∧ r = r' := by
  have hlen : hex.length = hex'.length := by rw [codeUnit_length h, codeUnit_length h']
  obtain ⟨rfl, rfl⟩ := List.append_inj heq hlen
  exact ⟨rfl, Option.some.inj (h.symm.trans h'), rfl⟩

theorem isPlain_ne_backslash {c : Char} (h : isPlain c = true) : c ≠ '\\' := by
  intro hc
  subst hc
  exact absurd h (by decide)

theorem isPlain_ne_quote {c : Char} (h : isPlain c = true) : c ≠ '"' := by
  intro hc
  subst hc
  exact absurd h (by decide)

theorem shortEscape_ne_u {e c : Char} (h : shortEscape e = some c) : e ≠ 'u' := by
  intro he
  subst he
  exact absurd h (Option.some_ne_none c).symm

theorem itemsText_cons (i : StrItem) (is : List StrItem) (r : Str) :
    itemsText (i :: is) ++ r = i.text ++ (itemsText is ++ r) := by
  rw [itemsText, List.flatMap_cons, List.append_assoc]
  rfl

theorem StrItem.text_ne_quote (i : StrItem) (r : Str) : ∀ t, i.text ++ r ≠ '"' :: t := by
  intro t h
  cases i with
  | plain c ok => exact isPlain_ne_quote ok (List.cons.inj h).1
  | short e c ok => exact absurd (List.cons.inj h).1 (by decide)
  | unit hex n ok => exact absurd (List.cons.inj h).1 (by decide)

theorem StrItem.text_inj {i j : StrItem} {r r' : Str} (h : i.text ++ r = j.text ++ r') :
    i = j ∧ r = r' := by
  cases i with
  | plain c ok =>
    cases j with
    | plain c' ok' =>
      obtain ⟨rfl, rfl⟩ := List.cons.inj h
      exact ⟨rfl, rfl⟩
    | short e c' ok' => exact absurd (List.cons.inj h).1 (isPlain_ne_backslash ok)
    | unit hex n ok' => exact absurd (List.cons.inj h).1 (isPlain_ne_backslash ok)
  | short e c ok =>
    cases j with
    | plain c' ok' => exact absurd (List.cons.inj h).1.symm (isPlain_ne_backslash ok')
    | short e' c' ok' =>
      obtain ⟨rfl, rfl⟩ := List.cons.inj (List.cons.inj h).2
      obtain rfl := Option.some.inj (ok.symm.trans ok')
      exact ⟨rfl, rfl⟩
    | unit hex n ok' => exact absurd (List.cons.inj (List.cons.inj h).2).1 (shortEscape_ne_u ok)
  | unit hex n ok =>
    cases j with
    | plain c' ok' => exact absurd (List.cons.inj h).1.symm (isPlain_ne_backslash ok')
    | short e' c' ok' =>
      exact absurd (List.cons.inj (List.cons.inj h).2).1.symm (shortEscape_ne_u ok')
    | unit hex' n' ok' =>
      obtain ⟨rfl, rfl, rfl⟩ := codeUnit_inj ok ok' (List.cons.inj (List.cons.inj h).2).2
      exact ⟨rfl, rfl⟩

theorem itemsText_inj {is js : List StrItem} {r r' : Str}
    (h : itemsText is ++ '"' :: r = itemsText js ++ '"' :: r') :
    is = js ∧ r = r' := by
  induction is generalizing js with
  | nil =>
    cases js with
    | nil => exact ⟨rfl, (List.cons.inj h).2⟩
    | cons j js =>
      rw [itemsText_cons] at h
      exact absurd h.symm (j.text_ne_quote _ _)
  | cons i is ih =>
    rw [itemsText_cons] at h
    cases js with
    | nil => exact absurd h (i.text_ne_quote _ _)
    | cons j js =>
      rw [itemsText_cons] at h
      obtain ⟨rfl, htail⟩ := StrItem.text_inj h
      obtain ⟨rfl, hr⟩ := ih htail
      exact ⟨rfl, hr⟩

theorem JString.text_append (s : JString) (r : Str) :
    s.text ++ r = '"' :: (itemsText s.items ++ '"' :: r) := by
  simp [JString.text]

theorem JString.text_inj {s s' : JString} {r r' : Str} (h : s.text ++ r = s'.text ++ r') :
    s = s' ∧ r = r' := by
  rw [JString.text_append, JString.text_append] at h
  obtain ⟨hitems, hr⟩ := itemsText_inj (List.cons.inj h).2
  cases s
  cases s'
  exact ⟨congrArg JString.mk hitems, hr⟩

theorem isBlank_cases {c : Char} (h : isBlank c = true) :
    c = ' ' ∨ c = '\t' ∨ c = '\n' ∨ c = '\r' := by
  simpa [isBlank, or_assoc] using h

theorem isAtomChar_blank {c : Char} (h : isBlank c = true) : isAtomChar c = false := by
  rcases isBlank_cases h with rfl | rfl | rfl | rfl
  all_goals decide

/-- What the first character of a value tells. -/
inductive Start where
  | atom
  | str
  | bracket (b : Bracket)

def startOf (c : Char) : Option Start :=
  if c = '"' then some .str
  else if c = '[' then some (.bracket .square)
  else if c = '{' then some (.bracket .curly)
  else if isAtomChar c then some .atom
  else none

def Json.start : Json → Start
  | .atom _ => .atom
  | .str _ => .str
  | .empty b _ => .bracket b
  | .node b _ _ => .bracket b

theorem startOf_left (b : Bracket) : startOf b.left = some (.bracket b) := by
  cases b
  all_goals rfl

theorem startOf_right (b : Bracket) : startOf b.right = none := by
  cases b
  all_goals rfl

theorem startOf_atom {c : Char} (h : isAtomChar c = true) : startOf c = some .atom := by
  have hne : ∀ d, isAtomChar d = false → c ≠ d := by
    intro d hd hcd
    rw [hcd, hd] at h
    cases h
  rw [startOf, if_neg (hne _ (by decide)), if_neg (hne _ (by decide)), if_neg (hne _ (by decide)),
    if_pos h]

theorem startOf_blank {c : Char} (h : isBlank c = true) : startOf c = none := by
  rcases isBlank_cases h with rfl | rfl | rfl | rfl
  all_goals rfl

theorem isBlank_of_startOf {c : Char} {k : Start} (h : startOf c = some k) : isBlank c = false := by
  cases hb : isBlank c with
  | false => rfl
  | true => exact absurd h (by rw [startOf_blank hb]; exact (Option.some_ne_none k).symm)

theorem Json.text_start (v : Json) : ∃ c t, v.text = c :: t ∧ startOf c = some v.start := by
  cases v with
  | atom a =>
    obtain ⟨c, t, ha⟩ := List.exists_cons_of_ne_nil a.chars.1
    exact ⟨c, t, ha, startOf_atom (a.chars.2 c (ha ▸ List.mem_cons_self))⟩
  | str s => exact ⟨'"', _, rfl, rfl⟩
  | empty b w => exact ⟨b.left, _, rfl, startOf_left b⟩
  | node b w es => exact ⟨b.left, _, rfl, startOf_left b⟩

theorem Json.text_ne_nil (v : Json) : v.text ≠ [] := by
  obtain ⟨c, t, ht, _⟩ := v.text_start
  rw [ht]
  exact List.cons_ne_nil c t

theorem Key.text_start {b : Bracket} (k : Key b) (v : Json) (r : Str) :
    ∃ c t l, k.text ++ (v.text ++ r) = c :: t ∧ startOf c = some l := by
  cases k with
  | item =>
    obtain ⟨c, t, hv, hc⟩ := v.text_start
    exact ⟨c, t ++ r, _, by rw [hv]; rfl, hc⟩
  | name s w w' => exact ⟨'"', _, _, rfl, rfl⟩

theorem Entries.text_start {b : Bracket} (es : Entries b) :
    ∃ c t l, es.text = c :: t ∧ startOf c = some l := by
  cases es with
  | last k v w =>
    rw [Entries.text]
    exact k.text_start v w.text
  | cons k v w w' es =>
    rw [Entries.text]
    exact k.text_start v _

theorem stops_after {w : Blank} {c : Char} {t : Str} (hc : isAtomChar c = false) :
    Stops isAtomChar (w.text ++ c :: t) := by
  intro d hd
  cases hw : w.text with
  | nil =>
    rw [hw] at hd
    cases hd
    exact hc
  | cons a u =>
    rw [hw] at hd
    cases hd
    exact isAtomChar_blank (w.blank _ (hw ▸ List.mem_cons_self))

theorem Key.text_inj {b : Bracket} {k k' : Key b} {c c' : Char} {t t' : Str}
    (hc : isBlank c = false) (hc' : isBlank c' = false)
    (h : k.text ++ c :: t = k'.text ++ c' :: t') : k = k' ∧ c :: t = c' :: t' := by
  cases k with
  | item =>
    cases k' with
    | item => exact ⟨rfl, h⟩
  | name s w₁ w₂ =>
    cases k' with
    | name s' w₁' w₂' =>
      simp only [Key.text, List.append_assoc, List.cons_append] at h
      obtain ⟨rfl, hrest⟩ := JString.text_inj h
      obtain ⟨rfl, _, hrest⟩ := Blank.text_inj (by decide) (by decide) hrest
      obtain ⟨rfl, rfl, rfl⟩ := Blank.text_inj hc hc' hrest
      exact ⟨rfl, rfl⟩

theorem isAtomChar_right (b : Bracket) : isAtomChar b.right = false := by
  cases b
  all_goals decide

theorem isBlank_right (b : Bracket) : isBlank b.right = false := by
  cases b
  all_goals decide

theorem right_ne_comma (b : Bracket) : b.right ≠ ',' := by
  cases b
  all_goals decide

/-- An entry begins with its key and its value. -/
theorem entry_inj {b : Bracket} {k k' : Key b} {v v' : Json} {r r' : Str}
    (hv : v.text ++ r = v'.text ++ r' → v = v' ∧ r = r')
    (h : k.text ++ (v.text ++ r) = k'.text ++ (v'.text ++ r')) : k = k' ∧ v = v' ∧ r = r' := by
  obtain ⟨c, t, ht, hc⟩ := v.text_start
  obtain ⟨c', t', ht', hc'⟩ := v'.text_start
  rw [ht, ht', List.cons_append, List.cons_append] at h hv
  obtain ⟨rfl, hrest⟩ := Key.text_inj (isBlank_of_startOf hc) (isBlank_of_startOf hc') h
  exact ⟨rfl, hv hrest⟩

theorem start_inj {v v' : Json} {r r' : Str} (h : v.text ++ r = v'.text ++ r') :
    v.start = v'.start := by
  obtain ⟨c, t, ht, hc⟩ := v.text_start
  obtain ⟨c', t', ht', hc'⟩ := v'.text_start
  rw [ht, ht'] at h
  obtain rfl := (List.cons.inj h).1
  exact Option.some.inj (hc.symm.trans hc')

theorem empty_text_append (b : Bracket) (w : Blank) (r : Str) :
    (Json.empty b w).text ++ r = b.left :: (w.text ++ b.right :: r) := by
  simp [Json.text]

theorem node_text_append (b : Bracket) (w : Blank) (es : Entries b) (r : Str) :
    (Json.node b w es).text ++ r = b.left :: (w.text ++ (es.text ++ b.right :: r)) := by
  simp [Json.text]

theorem last_text_append {b : Bracket} (k : Key b) (v : Json) (w : Blank) (r : Str) :
    (Entries.last k v w).text ++ r = k.text ++ (v.text ++ (w.text ++ r)) := by
  simp [Entries.text]

theorem cons_text_append {b : Bracket} (k : Key b) (v : Json) (w w' : Blank) (es : Entries b)
    (r : Str) : (Entries.cons k v w w' es).text ++ r =
      k.text ++ (v.text ++ (w.text ++ ',' :: (w'.text ++ (es.text ++ r)))) := by
  simp [Entries.text]

/-- No entry begins where a bracket closes. -/
theorem Entries.text_ne_right {b : Bracket} (es : Entries b) (c : Bracket) {w w' : Blank}
    {r r' : Str} : w.text ++ c.right :: r ≠ w'.text ++ (es.text ++ r') := by
  intro h
  obtain ⟨d, t, l, ht, hd⟩ := es.text_start
  rw [ht] at h
  obtain ⟨_, rfl, _⟩ := Blank.text_inj (isBlank_right c) (isBlank_of_startOf hd) h
  rw [startOf_right] at hd
  cases hd

theorem Entries.lead_inj {b : Bracket} {es es' : Entries b} {w w' : Blank} {r r' : Str}
    (h : w.text ++ (es.text ++ r) = w'.text ++ (es'.text ++ r')) :
    w = w' ∧ es.text ++ r = es'.text ++ r' := by
  obtain ⟨c, t, l, ht, hc⟩ := es.text_start
  obtain ⟨c', t', l', ht', hc'⟩ := es'.text_start
  rw [ht, ht'] at h ⊢
  obtain ⟨hw, rfl, hrest⟩ := Blank.text_inj (isBlank_of_startOf hc) (isBlank_of_startOf hc') h
  exact ⟨hw, congrArg (List.cons c) hrest⟩

mutual

theorem Json.text_inj : ∀ (v v' : Json) (r r' : Str), Stops isAtomChar r → Stops isAtomChar r' →
    v.text ++ r = v'.text ++ r' → v = v' ∧ r = r'
  | .atom a, v', r, r', hr, hr', h => by
    have hstart := start_inj h
    cases v' with
    | atom a' =>
      obtain ⟨htext, rfl⟩ := run_inj a.chars.2 a'.chars.2 hr hr' h
      cases a
      cases a'
      cases htext
      exact ⟨rfl, rfl⟩
    | str s' => cases hstart
    | empty b' w' => cases hstart
    | node b' w' es' => cases hstart
  | .str s, v', r, r', _, _, h => by
    have hstart := start_inj h
    cases v' with
    | atom a' => cases hstart
    | str s' =>
      obtain ⟨rfl, rfl⟩ := JString.text_inj h
      exact ⟨rfl, rfl⟩
    | empty b' w' => cases hstart
    | node b' w' es' => cases hstart
  | .empty b w, v', r, r', _, _, h => by
    have hstart := start_inj h
    rw [empty_text_append] at h
    cases v' with
    | atom a' => cases hstart
    | str s' => cases hstart
    | empty b' w' =>
      cases hstart
      rw [empty_text_append] at h
      obtain ⟨rfl, _, rfl⟩ := Blank.text_inj (isBlank_right b) (isBlank_right b) (List.cons.inj h).2
      exact ⟨rfl, rfl⟩
    | node b' w' es' =>
      rw [node_text_append] at h
      exact absurd (List.cons.inj h).2 (es'.text_ne_right b)
  | .node b w es, v', r, r', _, _, h => by
    have hstart := start_inj h
    rw [node_text_append] at h
    cases v' with
    | atom a' => cases hstart
    | str s' => cases hstart
    | empty b' w' =>
      rw [empty_text_append] at h
      exact absurd (List.cons.inj h).2.symm (es.text_ne_right b')
    | node b' w' es' =>
      cases hstart
      rw [node_text_append] at h
      obtain ⟨rfl, hrest⟩ := Entries.lead_inj (List.cons.inj h).2
      obtain ⟨rfl, rfl⟩ := Entries.text_inj es es' r r' hrest
      exact ⟨rfl, rfl⟩

theorem Entries.text_inj : ∀ {b : Bracket} (es es' : Entries b) (r r' : Str),
    es.text ++ b.right :: r = es'.text ++ b.right :: r' → es = es' ∧ r = r'
  | b, .last k v w, es', r, r', h => by
    rw [last_text_append] at h
    have hstop := stops_after (w := w) (t := r) (isAtomChar_right b)
    cases es' with
    | last k' v' w' =>
      rw [last_text_append] at h
      obtain ⟨rfl, rfl, hrest⟩ :=
        entry_inj (Json.text_inj v v' _ _ hstop (stops_after (isAtomChar_right b))) h
      obtain ⟨rfl, _, rfl⟩ := Blank.text_inj (isBlank_right b) (isBlank_right b) hrest
      exact ⟨rfl, rfl⟩
    | cons k' v' w' w₂' more' =>
      rw [cons_text_append] at h
      obtain ⟨_, _, hrest⟩ := entry_inj (Json.text_inj v v' _ _ hstop (stops_after (by decide))) h
      obtain ⟨_, hright, _⟩ := Blank.text_inj (isBlank_right b) (by decide) hrest
      exact absurd hright (right_ne_comma b)
  | b, .cons k v w w₂ more, es', r, r', h => by
    rw [cons_text_append] at h
    have hstop := stops_after (w := w) (c := ',') (t := w₂.text ++ (more.text ++ b.right :: r))
      (by decide)
    cases es' with
    | last k' v' w' =>
      rw [last_text_append] at h
      obtain ⟨_, _, hrest⟩ :=
        entry_inj (Json.text_inj v v' _ _ hstop (stops_after (isAtomChar_right b))) h
      obtain ⟨_, hright, _⟩ := Blank.text_inj (by decide) (isBlank_right b) hrest
      exact absurd hright.symm (right_ne_comma b)
    | cons k' v' w' w₂' more' =>
      rw [cons_text_append] at h
      obtain ⟨rfl, rfl, hrest⟩ :=
        entry_inj (Json.text_inj v v' _ _ hstop (stops_after (by decide))) h
      obtain ⟨rfl, _, hrest⟩ := Blank.text_inj (by decide) (by decide) hrest
      obtain ⟨rfl, hmore⟩ := Entries.lead_inj hrest
      obtain ⟨rfl, rfl⟩ := Entries.text_inj more more' r r' hmore
      exact ⟨rfl, rfl⟩

end

end Unambiguous

section Renaming

variable (names : List Str)

/-- Two strings that are one, or none of them a name. -/
inductive JString.Like : JString → JString → Prop where
  | same (s : JString) : Like s s
  | other {s s' : JString} (h : ∀ n ∈ names, s.value ≠ some n) (h' : ∀ n ∈ names, s'.value ≠ some n)
      (valid : s'.value.isSome = s.value.isSome) : Like s s'

inductive Key.Like : {b : Bracket} → Key b → Key b → Prop where
  | item : Like .item .item
  | name {s s' : JString} {w w' : Blank} (h : s.Like names s') : Like (.name s w w') (.name s' w w')

mutual

/-- Values that differ at most in strings that are no names. -/
inductive Json.Like : Json → Json → Prop where
  | atom (a : Atom) : Json.Like (.atom a) (.atom a)
  | str {s s' : JString} (h : s.Like names s') : Json.Like (.str s) (.str s')
  | empty (b : Bracket) (w : Blank) : Json.Like (.empty b w) (.empty b w)
  | node {b : Bracket} {w : Blank} {es es' : Entries b} (h : Entries.Like es es') :
      Json.Like (.node b w es) (.node b w es')

inductive Entries.Like : {b : Bracket} → Entries b → Entries b → Prop where
  | last {b : Bracket} {k k' : Key b} {v v' : Json} {w : Blank} (hk : k.Like names k')
      (hv : Json.Like v v') : Entries.Like (.last k v w) (.last k' v' w)
  | cons {b : Bracket} {k k' : Key b} {v v' : Json} {w w' : Blank} {es es' : Entries b}
      (hk : k.Like names k') (hv : Json.Like v v') (hes : Entries.Like es es') :
      Entries.Like (.cons k v w w' es) (.cons k' v' w w' es')

end

end Renaming

end JsonText
