import LensLM.Lib.ByteText
import Mathlib.Data.List.Infix

/-!
# Full-text queries

The query language of the full-text index: barewords, strings, prefixes, column filters, operators
and parentheses. Terms that stand side by side have to match all.
-/

namespace Fts5

open ByteText

set_option autoImplicit false

inductive Token where
  | word (w : Str)
  | quoted (s : Str)
  | and
  | or
  | not
  | near
  | star
  | caret
  | plus
  | minus
  | colon
  | comma
  | leftParen
  | rightParen
  | leftBrace
  | rightBrace
deriving DecidableEq, Repr

section Lexer

/-- Letters and digits, the underscore, the substitute character, and all that is not ASCII. -/
def isBareword (c : Char) : Bool := 128 ≤ c.toNat || c.isAlphanum || c == '_' || c.toNat == 26

def isSpace (c : Char) : Bool := c == ' ' || c == '\t' || c == '\n' || c == '\r'

def special : Char → Option Token
  | '*' => some .star
  | '^' => some .caret
  | '+' => some .plus
  | '-' => some .minus
  | ':' => some .colon
  | ',' => some .comma
  | '(' => some .leftParen
  | ')' => some .rightParen
  | '{' => some .leftBrace
  | '}' => some .rightBrace
  | _ => none

def operators : List (Str × Token) :=
  [("AND".toList, .and), ("OR".toList, .or), ("NOT".toList, .not), ("NEAR".toList, .near)]

def ofBareword (w : Str) : Token := (operators.lookup w).getD (.word w)

/-- Where the lexer is; a word or a string that has begun is held in reverse. -/
inductive Mode where
  | between
  | inWord (acc : Str)
  | inString (acc : Str)
  | afterQuote (acc : Str)

def Mode.held : Mode → List Token
  | .inWord acc => [ofBareword acc.reverse]
  | .afterQuote acc => [.quoted acc.reverse]
  | _ => []

def begin (c : Char) : Option (List Token × Mode) :=
  if isSpace c then some ([], .between)
  else if isBareword c then some ([], .inWord [c])
  else if c = '"' then some ([], .inString [])
  else (special c).map fun t => ([t], .between)

/-- A quote that is doubled stands for itself. -/
def Mode.step (m : Mode) (c : Char) : Option (List Token × Mode) :=
  match m with
  | .between => begin c
  | .inWord acc =>
    if isBareword c then some ([], .inWord (c :: acc))
    else (begin c).map fun r => (m.held ++ r.1, r.2)
  | .inString acc => some ([], if c = '"' then .afterQuote acc else .inString (c :: acc))
  | .afterQuote acc =>
    if c = '"' then some ([], .inString ('"' :: acc))
    else (begin c).map fun r => (m.held ++ r.1, r.2)

def Mode.stop : Mode → Option (List Token)
  | .inString _ => none
  | m => some m.held

def lexFrom : Mode → Str → Option (List Token)
  | m, [] => m.stop
  | m, c :: s => (m.step c).bind fun r => (lexFrom r.2 s).map (r.1 ++ ·)

def lex (s : Str) : Option (List Token) := lexFrom .between s

end Lexer

section Grammar

inductive Query where
  | word (w : Str)
  | phrase (s : Str)
  | startsWith (s : Str)
  | column (name : Str) (q : Query)
  | and (p q : Query)
  | or (p q : Query)
  | not (p q : Query)

/-- How tightly a query binds: terms side by side before `NOT`, `AND` and `OR`. -/
inductive Level where
  | term
  | beside
  | not
  | and
  | or

def Level.rank : Level → Nat
  | .term => 0
  | .beside => 1
  | .not => 2
  | .and => 3
  | .or => 4

inductive Reads : Level → List Token → Query → Prop
  | word (w : Str) : Reads .term [.word w] (.word w)
  | phrase (s : Str) : Reads .term [.quoted s] (.phrase s)
  | wordStart (w : Str) : Reads .term [.word w, .star] (.startsWith w)
  | phraseStart (s : Str) : Reads .term [.quoted s, .star] (.startsWith s)
  | column (name : Str) {ts : List Token} {q : Query} : Reads .term ts q →
      Reads .term (.word name :: .colon :: ts) (.column name q)
  | group {ts : List Token} {q : Query} : Reads .or ts q →
      Reads .term (.leftParen :: ts ++ [.rightParen]) q
  | beside {ts us : List Token} {p q : Query} : Reads .beside ts p → Reads .term us q →
      Reads .beside (ts ++ us) (.and p q)
  | not {ts us : List Token} {p q : Query} : Reads .not ts p → Reads .beside us q →
      Reads .not (ts ++ .not :: us) (.not p q)
  | and {ts us : List Token} {p q : Query} : Reads .and ts p → Reads .not us q →
      Reads .and (ts ++ .and :: us) (.and p q)
  | or {ts us : List Token} {p q : Query} : Reads .or ts p → Reads .and us q →
      Reads .or (ts ++ .or :: us) (.or p q)
  | lift {l l' : Level} {ts : List Token} {q : Query} : l.rank ≤ l'.rank → Reads l ts q →
      Reads l' ts q

def ReadsText (s : Str) (q : Query) : Prop := ∃ ts, lex s = some ts ∧ Reads .or ts q

/-- How the index makes tokens of texts: `fold` of one word, `split` of a longer text. -/
structure Tokenizer where
  fold : Str → Str
  split : Str → List Str

/-- The query matches a text with these tokens in the column of that name. -/
def Query.Matches (tok : Tokenizer) (column : Str) (doc : List Str) : Query → Prop
  | .word w => tok.fold w ∈ doc
  | .phrase s => tok.split s <:+: doc
  | .startsWith s => ∃ t ∈ doc, tok.fold s <+: t
  | .column name q => name = column ∧ q.Matches tok column doc
  | .and p q => p.Matches tok column doc ∧ q.Matches tok column doc
  | .or p q => p.Matches tok column doc ∨ q.Matches tok column doc
  | .not p q => p.Matches tok column doc ∧ ¬ q.Matches tok column doc

end Grammar

section Words

/-- A word is a run of bareword characters that is not an operator. -/
def IsWord (w : Str) : Prop :=
  w ≠ [] ∧ (∀ c ∈ w, isBareword c = true) ∧ operators.lookup w = none

theorem ofBareword_word {w : Str} (h : IsWord w) : ofBareword w = .word w := by
  rw [ofBareword, h.2.2]
  rfl

theorem lexFrom_inWord {w : Str} (hw : ∀ c ∈ w, isBareword c = true) (acc s : Str) :
    lexFrom (.inWord acc) (w ++ s) = lexFrom (.inWord (w.reverse ++ acc)) s := by
  induction w generalizing acc with
  | nil => rfl
  | cons c w ih =>
    have hc : isBareword c = true := hw c List.mem_cons_self
    rw [List.cons_append, lexFrom, Mode.step, if_pos hc]
    simp only [Option.bind_some, List.nil_append, Option.map_id']
    rw [ih fun d hd => hw d (List.mem_cons_of_mem _ hd)]
    simp

theorem not_space_of_bareword {c : Char} (h : isBareword c = true) : isSpace c = false := by
  by_contra hspace
  simp only [isSpace, Bool.not_eq_false, Bool.or_eq_true, beq_iff_eq] at hspace
  rcases hspace with ((rfl | rfl) | rfl) | rfl <;> exact absurd h (by decide)

theorem lexFrom_between {w : Str} (hw : IsWord w) (s : Str) :
    lexFrom .between (w ++ s) = lexFrom (.inWord w.reverse) s := by
  obtain ⟨hne, hchars, -⟩ := hw
  cases w with
  | nil => exact absurd rfl hne
  | cons c w =>
    have hc : isBareword c = true := hchars c List.mem_cons_self
    rw [List.cons_append, lexFrom, Mode.step, begin, not_space_of_bareword hc]
    simp only [Bool.false_eq_true, if_false, hc, if_true, Option.bind_some, List.nil_append,
      Option.map_id']
    rw [lexFrom_inWord fun d hd => hchars d (List.mem_cons_of_mem _ hd)]
    simp

/-- Words that are joined by blanks are read as these words. -/
theorem lex_words {ws : List Str} (h : ∀ w ∈ ws, IsWord w) :
    lex ([' '].intercalate ws) = some (ws.map .word) := by
  unfold lex
  induction ws with
  | nil => rfl
  | cons w ws ih =>
    have hw : IsWord w := h w List.mem_cons_self
    cases ws with
    | nil =>
      rw [List.intercalate_singleton, ← List.append_nil w, lexFrom_between hw]
      simp [lexFrom, Mode.stop, Mode.held, ofBareword_word hw]
    | cons w' ws =>
      have hblank : isBareword ' ' = false := by decide
      have hbegin : begin ' ' = some ([], .between) := rfl
      rw [List.intercalate_cons_cons, List.append_assoc, lexFrom_between hw, List.singleton_append,
        lexFrom, Mode.step, hblank]
      simp only [Bool.false_eq_true, if_false, hbegin, Option.map_some, Option.bind_some,
        Mode.held, List.reverse_reverse, ofBareword_word hw, List.append_nil]
      rw [ih fun v hv => h v (List.mem_cons_of_mem _ hv)]
      rfl

/-- Words can be read. -/
theorem reads_words {ws : List Str} (hne : ws ≠ []) : ∃ q, Reads .or (ws.map .word) q := by
  have hbeside : ∃ q, Reads .beside (ws.map .word) q := by
    induction ws using List.reverseRecOn with
    | nil => exact absurd rfl hne
    | append_singleton ws w ih =>
      by_cases hws : ws = []
      · subst hws
        exact ⟨_, .lift (Nat.zero_le _) (.word w)⟩
      · obtain ⟨q, hq⟩ := ih hws
        rw [List.map_append]
        exact ⟨_, .beside hq (.word w)⟩
  obtain ⟨q, hq⟩ := hbeside
  exact ⟨q, .lift (by decide) hq⟩

/-- However words are read, all of them have to match. -/
theorem Reads.matches_words {l : Level} {ts : List Token} {q : Query} (h : Reads l ts q)
    (hts : ∀ t ∈ ts, ∃ w, t = .word w) (tok : Tokenizer) (column : Str) (doc : List Str) :
    q.Matches tok column doc ↔ ∀ w, .word w ∈ ts → tok.fold w ∈ doc := by
  induction h with
  | word w => simp [Query.Matches]
  | phrase s => simp at hts
  | wordStart w => simp at hts
  | phraseStart s => simp at hts
  | column name _ _ => simp at hts
  | group _ _ => simp at hts
  | beside _ _ ihp ihq =>
    have hp := ihp fun t ht => hts t (List.mem_append_left _ ht)
    have hq := ihq fun t ht => hts t (List.mem_append_right _ ht)
    simp only [Query.Matches, hp, hq, List.mem_append]
    constructor
    · rintro ⟨hleft, hright⟩ w (hw | hw)
      · exact hleft w hw
      · exact hright w hw
    · intro hall
      exact ⟨fun w hw => hall w (.inl hw), fun w hw => hall w (.inr hw)⟩
  | not _ _ _ _ => simpa using hts .not (by simp)
  | and _ _ _ _ => simpa using hts .and (by simp)
  | or _ _ _ _ => simpa using hts .or (by simp)
  | lift _ _ ih => exact ih hts

end Words

end Fts5
