import LensLM.Error
import LensLM.Lib.Search
import Mathlib.Data.List.Basic
import Mathlib.Order.MinMax

/-!
# The depth of an XML text

Before the parser reads a text, a scan over its bytes counts the elements that are open. All markup
is ASCII, and no byte of a longer character is below 128, so that a text is the list of its bytes.
-/

namespace LensLM

open Search

set_option autoImplicit false

namespace XmlDepth

def XML_MAX_PARSE_DEPTH : Nat := 256

def byte (c : Char) : UInt8 := c.toUInt8

def commentStart : List UInt8 := ['<', '!', '-', '-'].map byte

def commentEnd : List UInt8 := ['-', '-', '>'].map byte

def cdataStart : List UInt8 := ['<', '!', '[', 'C', 'D', 'A', 'T', 'A', '['].map byte

def cdataEnd : List UInt8 := [']', ']', '>'].map byte

def instructionStart : List UInt8 := ['<', '?'].map byte

def instructionEnd : List UInt8 := ['?', '>'].map byte

def closingStart : List UInt8 := ['<', '/'].map byte

/-! ## The scan -/

inductive Markup where
  | skipped
  | opened
  | closed

/-- The rest behind the tag, and whether the tag closes itself. The quote is the one of the value
around the first byte, and `prev` is the byte before it in the tag. -/
def scanStartTag (quote prev : Option UInt8) : List UInt8 → Option (Bool × List UInt8)
  | [] => none
  | b :: rest =>
    match quote with
    | some q => scanStartTag (if b = q then none else some q) (some b) rest
    | none =>
      if b = byte '"' ∨ b = byte '\'' then scanStartTag (some b) (some b) rest
      else if b = byte '>' then some (prev == some (byte '/'), rest)
      else scanStartTag none (some b) rest

/-- What begins with a `<` at the front, and the rest behind it. -/
def readMarkup (s : List UInt8) : Option (Markup × List UInt8) :=
  match s with
  | _ :: next :: _ =>
    if next = byte '!' then
      if commentStart <+: s then (after commentEnd (s.drop 4)).map (Prod.mk .skipped)
      else if cdataStart <+: s then (after cdataEnd (s.drop 9)).map (Prod.mk .skipped)
      else (after [byte '>'] (s.drop 1)).map (Prod.mk .skipped)
    else if next = byte '?' then (after instructionEnd (s.drop 2)).map (Prod.mk .skipped)
    else if next = byte '/' then (after [byte '>'] (s.drop 2)).map (Prod.mk .closed)
    else
      (scanStartTag none none (s.drop 1)).map fun tag =>
        (if tag.1 then .skipped else .opened, tag.2)
  | _ => none

theorem length_scanStartTag_lt {quote prev : Option UInt8} {s : List UInt8}
    {tag : Bool × List UInt8} (h : scanStartTag quote prev s = some tag) :
    tag.2.length < s.length := by
  induction s generalizing quote prev with
  | nil => cases h
  | cons b rest ih =>
    unfold scanStartTag at h
    rw [List.length_cons]
    split at h
    · exact Nat.lt_succ_of_lt (ih h)
    · split at h
      · exact Nat.lt_succ_of_lt (ih h)
      · split at h
        · cases h
          exact Nat.lt_succ_self _
        · exact Nat.lt_succ_of_lt (ih h)

theorem length_after_drop_lt {needle s : List UInt8} {n : Nat} {kind : Markup}
    {m : Markup × List UInt8} (hs : s ≠ []) (hn : 0 < n)
    (h : (after needle (s.drop n)).map (Prod.mk kind) = some m) : m.2.length < s.length := by
  obtain ⟨r, hr, rfl⟩ := Option.map_eq_some_iff.mp h
  have hle := length_after_le hr
  have hpos := List.length_pos_iff.mpr hs
  rw [List.length_drop] at hle
  show r.length < s.length
  omega

theorem length_readMarkup_lt {s : List UInt8} {m : Markup × List UInt8}
    (h : readMarkup s = some m) : m.2.length < s.length := by
  unfold readMarkup at h
  split at h
  · next b next rest =>
    have hs : b :: next :: rest ≠ [] := List.cons_ne_nil _ _
    split at h
    · split at h
      · exact length_after_drop_lt hs (by omega) h
      · split at h
        · exact length_after_drop_lt hs (by omega) h
        · exact length_after_drop_lt hs (by omega) h
    · split at h
      · exact length_after_drop_lt hs (by omega) h
      · split at h
        · exact length_after_drop_lt hs (by omega) h
        · obtain ⟨tag, htag, rfl⟩ := Option.map_eq_some_iff.mp h
          exact Nat.lt_succ_of_lt (length_scanStartTag_lt htag)
  · cases h

/-- The scan from a position, with the depth there and the greatest one so far. -/
def scan (s : List UInt8) (depth maxDepth : Nat) : Nat :=
  match s with
  | [] => maxDepth
  | b :: rest =>
    if b ≠ byte '<' then scan rest depth maxDepth
    else
      match _h : readMarkup (b :: rest) with
      | none => maxDepth
      | some (.skipped, behind) => scan behind depth maxDepth
      | some (.opened, behind) => scan behind (depth + 1) (max maxDepth (depth + 1))
      | some (.closed, behind) => scan behind (depth - 1) maxDepth
termination_by s.length
decreasing_by
  · exact Nat.lt_succ_self _
  all_goals exact length_readMarkup_lt _h

def maxElementNestingDepth (s : List UInt8) : Nat := scan s 0 0

/-- The parser only gets a text that is not too deep. -/
def parseGuarded {D : Type} (parse : List UInt8 → Except LensError D) (s : List UInt8) :
    Except LensError D :=
  if XML_MAX_PARSE_DEPTH < maxElementNestingDepth s then
    .error (.validation "XML nesting depth exceeds supported limit")
  else parse s

/-! ## Well-formed texts -/

inductive Quote where
  | double
  | single

def Quote.byte : Quote → UInt8
  | .double => XmlDepth.byte '"'
  | .single => XmlDepth.byte '\''

def IsTagByte (b : UInt8) : Prop :=
  b ≠ byte '"' ∧ b ≠ byte '\'' ∧ b ≠ byte '<' ∧ b ≠ byte '>' ∧ b ≠ byte '/'

/-- A part of a tag: names, spaces and equality signs, or a quoted value. -/
inductive TagPiece where
  | plain (raw : List UInt8) (h : ∀ b ∈ raw, IsTagByte b)
  | value (quote : Quote) (raw : List UInt8) (h : quote.byte ∉ raw)

def TagPiece.bytes : TagPiece → List UInt8
  | .plain raw _ => raw
  | .value quote raw _ => quote.byte :: (raw ++ [quote.byte])

/-- What stands between the ends of a start tag. A name does not begin like other markup. -/
structure Tag where
  first : UInt8
  pieces : List TagPiece
  first_tagByte : IsTagByte first
  first_ne : first ≠ byte '!' ∧ first ≠ byte '?'

def Tag.bytes (tag : Tag) : List UInt8 := tag.first :: tag.pieces.flatMap TagPiece.bytes

/-- A sequence of texts, comments, sections, instructions and elements. A document is one of them. -/
inductive Content where
  | nil
  | text (raw : List UInt8) (h : byte '<' ∉ raw) (rest : Content)
  | comment (raw : List UInt8) (h : ¬['-', '-'].map byte <:+: raw) (hend : ¬[byte '-'] <:+ raw)
      (rest : Content)
  | cdata (raw : List UInt8) (h : ¬cdataEnd <:+: raw) (rest : Content)
  | instruction (raw : List UInt8) (h : ¬instructionEnd <:+: raw) (rest : Content)
  | emptyElement (tag : Tag) (rest : Content)
  | element (tag : Tag) (inner : Content) (closing : List UInt8) (h : byte '>' ∉ closing)
      (rest : Content)

def Content.bytes : Content → List UInt8
  | .nil => []
  | .text raw _ rest => raw ++ rest.bytes
  | .comment raw _ _ rest => commentStart ++ (raw ++ (commentEnd ++ rest.bytes))
  | .cdata raw _ rest => cdataStart ++ (raw ++ (cdataEnd ++ rest.bytes))
  | .instruction raw _ rest => instructionStart ++ (raw ++ (instructionEnd ++ rest.bytes))
  | .emptyElement tag rest => byte '<' :: (tag.bytes ++ (byte '/' :: byte '>' :: rest.bytes))
  | .element tag inner closing _ rest =>
    byte '<' :: (tag.bytes ++ (byte '>' :: (inner.bytes ++
      (closingStart ++ (closing ++ ([byte '>'] ++ rest.bytes))))))

/-- How deep the elements nest. -/
def Content.elementDepth : Content → Nat
  | .nil => 0
  | .text _ _ rest | .comment _ _ _ rest | .cdata _ _ rest | .instruction _ _ rest =>
    rest.elementDepth
  | .emptyElement _ rest => max 1 rest.elementDepth
  | .element _ inner _ _ rest => max (inner.elementDepth + 1) rest.elementDepth

/-- How many elements are open at once. An empty element opens nothing. -/
def Content.openDepth : Content → Nat
  | .nil => 0
  | .text _ _ rest | .comment _ _ _ rest | .cdata _ _ rest | .instruction _ _ rest =>
    rest.openDepth
  | .emptyElement _ rest => rest.openDepth
  | .element _ inner _ _ rest => max (inner.openDepth + 1) rest.openDepth

theorem Content.openDepth_le (c : Content) : c.openDepth ≤ c.elementDepth := by
  induction c with
  | nil => exact le_refl 0
  | text raw h rest ih => exact ih
  | comment raw h hend rest ih => exact ih
  | cdata raw h rest ih => exact ih
  | instruction raw h rest ih => exact ih
  | emptyElement tag rest ih => exact le_trans ih (le_max_right _ _)
  | element tag inner closing h rest ihinner ihrest =>
    exact max_le_max (Nat.succ_le_succ ihinner) ihrest

/-- The deepest element that opens holds at most empty elements. -/
theorem Content.elementDepth_le (c : Content) : c.elementDepth ≤ c.openDepth + 1 := by
  induction c with
  | nil => exact Nat.zero_le 1
  | text raw h rest ih => exact ih
  | comment raw h hend rest ih => exact ih
  | cdata raw h rest ih => exact ih
  | instruction raw h rest ih => exact ih
  | emptyElement tag rest ih => exact max_le (Nat.le_add_left 1 _) ih
  | element tag inner closing h rest ihinner ihrest =>
    unfold elementDepth openDepth
    omega

/-! ## The scan of well-formed texts -/

theorem scanStartTag_plain {raw : List UInt8} (h : ∀ b ∈ raw, IsTagByte b) {prev : Option UInt8}
    (hprev : prev ≠ some (byte '/')) (s : List UInt8) :
    ∃ prev', prev' ≠ some (byte '/') ∧
      scanStartTag none prev (raw ++ s) = scanStartTag none prev' s := by
  induction raw generalizing prev with
  | nil => exact ⟨prev, hprev, rfl⟩
  | cons b raw ih =>
    obtain ⟨hdouble, hsingle, hlt, hgt, hslash⟩ := h b List.mem_cons_self
    have hb : some b ≠ some (byte '/') := by
      intro heq
      exact hslash (Option.some.inj heq)
    obtain ⟨prev', hprev', heq⟩ := ih (fun b hb => h b (List.mem_cons_of_mem _ hb)) hb
    refine ⟨prev', hprev', ?_⟩
    rw [List.cons_append, scanStartTag, if_neg (not_or.mpr ⟨hdouble, hsingle⟩), if_neg hgt]
    exact heq

theorem scanStartTag_quoted {q : UInt8} {raw : List UInt8} (h : q ∉ raw) (prev : Option UInt8)
    (s : List UInt8) :
    scanStartTag (some q) prev (raw ++ q :: s) = scanStartTag none (some q) s := by
  induction raw generalizing prev with
  | nil => rw [List.nil_append, scanStartTag, if_pos rfl]
  | cons b raw ih =>
    have hb : b ≠ q := by
      intro heq
      subst heq
      exact h List.mem_cons_self
    have hraw : q ∉ raw := fun hq => h (List.mem_cons_of_mem _ hq)
    rw [List.cons_append, scanStartTag, if_neg hb]
    exact ih hraw (some b)

theorem Quote.byte_eq (quote : Quote) :
    quote.byte = XmlDepth.byte '"' ∨ quote.byte = XmlDepth.byte '\'' := by
  cases quote with
  | double => exact .inl rfl
  | single => exact .inr rfl

theorem Quote.byte_ne_slash (quote : Quote) : some quote.byte ≠ some (XmlDepth.byte '/') := by
  cases quote with
  | double => decide
  | single => decide

theorem scanStartTag_piece (piece : TagPiece) {prev : Option UInt8}
    (hprev : prev ≠ some (byte '/')) (s : List UInt8) :
    ∃ prev', prev' ≠ some (byte '/') ∧
      scanStartTag none prev (piece.bytes ++ s) = scanStartTag none prev' s := by
  cases piece with
  | plain raw h => exact scanStartTag_plain h hprev s
  | value quote raw h =>
    refine ⟨some quote.byte, quote.byte_ne_slash, ?_⟩
    unfold TagPiece.bytes
    rw [List.cons_append, scanStartTag, if_pos quote.byte_eq, List.append_assoc,
      List.singleton_append]
    exact scanStartTag_quoted h _ s

theorem scanStartTag_pieces (pieces : List TagPiece) {prev : Option UInt8}
    (hprev : prev ≠ some (byte '/')) (s : List UInt8) :
    ∃ prev', prev' ≠ some (byte '/') ∧
      scanStartTag none prev (pieces.flatMap TagPiece.bytes ++ s) = scanStartTag none prev' s := by
  induction pieces generalizing prev with
  | nil => exact ⟨prev, hprev, rfl⟩
  | cons piece pieces ih =>
    obtain ⟨mid, hmid, hpiece⟩ := scanStartTag_piece piece hprev
      (pieces.flatMap TagPiece.bytes ++ s)
    obtain ⟨last, hlast, hpieces⟩ := ih hmid
    refine ⟨last, hlast, ?_⟩
    rw [List.flatMap_cons, List.append_assoc, hpiece, hpieces]

/-- The end of a tag is found behind its values, whatever is written in them. -/
theorem scanStartTag_tag (tag : Tag) (s : List UInt8) :
    ∃ prev, prev ≠ some (byte '/') ∧
      scanStartTag none none (tag.bytes ++ s) = scanStartTag none prev s := by
  have hnone : (none : Option UInt8) ≠ some (byte '/') := nofun
  have hname : ∀ b ∈ [tag.first], IsTagByte b := by simpa using tag.first_tagByte
  obtain ⟨mid, hmid, hfirst⟩ := scanStartTag_plain hname hnone
    (tag.pieces.flatMap TagPiece.bytes ++ s)
  obtain ⟨last, hlast, hpieces⟩ := scanStartTag_pieces tag.pieces hmid s
  exact ⟨last, hlast, hfirst.trans hpieces⟩

theorem scanStartTag_start (tag : Tag) (s : List UInt8) :
    scanStartTag none none (tag.bytes ++ (byte '>' :: s)) = some (false, s) := by
  obtain ⟨prev, hprev, heq⟩ := scanStartTag_tag tag (byte '>' :: s)
  rw [heq, scanStartTag, if_neg (by decide), if_pos rfl, beq_false_of_ne hprev]

theorem scanStartTag_empty (tag : Tag) (s : List UInt8) :
    scanStartTag none none (tag.bytes ++ (byte '/' :: byte '>' :: s)) = some (true, s) := by
  obtain ⟨prev, hprev, heq⟩ := scanStartTag_tag tag (byte '/' :: byte '>' :: s)
  rw [heq, scanStartTag, if_neg (by decide), if_neg (by decide), scanStartTag,
    if_neg (by decide), if_pos rfl, beq_self_eq_true]

theorem readMarkup_bang (b : UInt8) (rest : List UInt8) :
    readMarkup (b :: byte '!' :: rest) =
      if commentStart <+: b :: byte '!' :: rest then
        (after commentEnd (rest.drop 2)).map (Prod.mk .skipped)
      else if cdataStart <+: b :: byte '!' :: rest then
        (after cdataEnd (rest.drop 7)).map (Prod.mk .skipped)
      else (after [byte '>'] (byte '!' :: rest)).map (Prod.mk .skipped) := by
  rw [readMarkup, if_pos rfl]
  rfl

theorem readMarkup_question (b : UInt8) (rest : List UInt8) :
    readMarkup (b :: byte '?' :: rest) = (after instructionEnd rest).map (Prod.mk .skipped) := by
  rw [readMarkup, if_neg (by decide), if_pos rfl]
  rfl

theorem readMarkup_slash (b : UInt8) (rest : List UInt8) :
    readMarkup (b :: byte '/' :: rest) = (after [byte '>'] rest).map (Prod.mk .closed) := by
  rw [readMarkup, if_neg (by decide), if_neg (by decide), if_pos rfl]
  rfl

theorem readMarkup_comment {raw : List UInt8} (h : ¬['-', '-'].map byte <:+: raw)
    (s : List UInt8) :
    readMarkup (commentStart ++ (raw ++ (commentEnd ++ s))) = some (.skipped, s) := by
  have hfree : ¬commentEnd <:+: raw := by
    intro hpart
    have hdashes : ['-', '-'].map byte <:+: commentEnd := ⟨[], [byte '>'], rfl⟩
    exact h (hdashes.trans hpart)
  have hafter : after commentEnd (raw ++ (commentEnd ++ s)) = some s :=
    after_behind (by decide) (by decide) hfree s
  have hstart := List.prefix_append commentStart (raw ++ (commentEnd ++ s))
  apply (readMarkup_bang _ _).trans
  apply (if_pos hstart).trans
  exact congrArg (Option.map (Prod.mk Markup.skipped)) hafter

theorem readMarkup_cdata {raw : List UInt8} (h : ¬cdataEnd <:+: raw) (s : List UInt8) :
    readMarkup (cdataStart ++ (raw ++ (cdataEnd ++ s))) = some (.skipped, s) := by
  have hafter : after cdataEnd (raw ++ (cdataEnd ++ s)) = some s :=
    after_behind (by decide) (by decide) h s
  have hcomment : ¬commentStart <+: cdataStart ++ (raw ++ (cdataEnd ++ s)) := by
    intro hpre
    have hthird := (List.cons_prefix_cons.mp (List.cons_prefix_cons.mp
      (List.cons_prefix_cons.mp hpre).2).2).1
    exact absurd hthird (by decide)
  have hstart := List.prefix_append cdataStart (raw ++ (cdataEnd ++ s))
  apply (readMarkup_bang _ _).trans
  apply (if_neg hcomment).trans
  apply (if_pos hstart).trans
  exact congrArg (Option.map (Prod.mk Markup.skipped)) hafter

theorem readMarkup_instruction {raw : List UInt8} (h : ¬instructionEnd <:+: raw)
    (s : List UInt8) :
    readMarkup (instructionStart ++ (raw ++ (instructionEnd ++ s))) = some (.skipped, s) := by
  have hafter : after instructionEnd (raw ++ (instructionEnd ++ s)) = some s :=
    after_behind (by decide) (by decide) h s
  apply (readMarkup_question _ _).trans
  exact congrArg (Option.map (Prod.mk Markup.skipped)) hafter

theorem readMarkup_closing {closing : List UInt8} (h : byte '>' ∉ closing) (s : List UInt8) :
    readMarkup (closingStart ++ (closing ++ ([byte '>'] ++ s))) = some (.closed, s) := by
  have hfree : ¬[byte '>'] <:+: closing := by
    intro hpart
    exact h (hpart.subset List.mem_cons_self)
  have hafter : after [byte '>'] (closing ++ ([byte '>'] ++ s)) = some s :=
    after_behind (unbordered_singleton (byte '>')) (by decide) hfree s
  apply (readMarkup_slash _ _).trans
  exact congrArg (Option.map (Prod.mk Markup.closed)) hafter

/-- The name of an element does not begin like other markup. -/
theorem readMarkup_tag (tag : Tag) (s : List UInt8) :
    readMarkup (byte '<' :: (tag.bytes ++ s)) =
      (scanStartTag none none (tag.bytes ++ s)).map fun tag =>
        (if tag.1 then .skipped else .opened, tag.2) := by
  obtain ⟨hbang, hquestion⟩ := tag.first_ne
  obtain ⟨-, -, -, -, hslash⟩ := tag.first_tagByte
  show (if tag.first = byte '!' then _ else _) = _
  rw [if_neg hbang, if_neg hquestion, if_neg hslash]
  rfl

theorem scan_markup {t s : List UInt8} {kind : Markup} (ht : t.head? = some (byte '<'))
    (h : readMarkup t = some (kind, s)) (depth maxDepth : Nat) :
    scan t depth maxDepth =
      match kind with
      | .skipped => scan s depth maxDepth
      | .opened => scan s (depth + 1) (max maxDepth (depth + 1))
      | .closed => scan s (depth - 1) maxDepth := by
  cases t with
  | nil => cases ht
  | cons b rest =>
    have hb : b = byte '<' := Option.some.inj ht
    rw [scan, if_neg (not_not.mpr hb)]
    split
    · next hnone => rw [hnone] at h; cases h
    · next behind hsome => rw [hsome] at h; cases h; rfl
    · next behind hsome => rw [hsome] at h; cases h; rfl
    · next behind hsome => rw [hsome] at h; cases h; rfl

theorem scan_text {raw : List UInt8} (h : byte '<' ∉ raw) (s : List UInt8)
    (depth maxDepth : Nat) : scan (raw ++ s) depth maxDepth = scan s depth maxDepth := by
  induction raw with
  | nil => rfl
  | cons b raw ih =>
    have hb : b ≠ byte '<' := by
      intro heq
      subst heq
      exact h List.mem_cons_self
    rw [List.cons_append, scan, if_pos hb]
    exact ih fun hraw => h (List.mem_cons_of_mem _ hraw)

/-- A content leaves the depth as it was, and counts the elements that are open in it. -/
theorem scan_content (c : Content) (s : List UInt8) {depth maxDepth : Nat}
    (h : depth ≤ maxDepth) :
    scan (c.bytes ++ s) depth maxDepth = scan s depth (max maxDepth (depth + c.openDepth)) := by
  induction c generalizing s depth maxDepth with
  | nil =>
    unfold Content.bytes Content.openDepth
    rw [List.nil_append, Nat.add_zero, max_eq_left h]
  | text raw hraw rest ih =>
    unfold Content.bytes Content.openDepth
    rw [List.append_assoc, scan_text hraw]
    exact ih s h
  | comment raw hraw hend rest ih =>
    unfold Content.bytes Content.openDepth
    rw [List.append_assoc, List.append_assoc, List.append_assoc,
      scan_markup rfl (readMarkup_comment hraw (rest.bytes ++ s))]
    exact ih s h
  | cdata raw hraw rest ih =>
    unfold Content.bytes Content.openDepth
    rw [List.append_assoc, List.append_assoc, List.append_assoc,
      scan_markup rfl (readMarkup_cdata hraw (rest.bytes ++ s))]
    exact ih s h
  | instruction raw hraw rest ih =>
    unfold Content.bytes Content.openDepth
    rw [List.append_assoc, List.append_assoc, List.append_assoc,
      scan_markup rfl (readMarkup_instruction hraw (rest.bytes ++ s))]
    exact ih s h
  | emptyElement tag rest ih =>
    have hread := readMarkup_tag tag (byte '/' :: byte '>' :: (rest.bytes ++ s))
    rw [scanStartTag_empty, Option.map_some] at hread
    unfold Content.bytes Content.openDepth
    rw [List.cons_append, List.append_assoc, List.cons_append, List.cons_append,
      scan_markup rfl hread]
    exact ih s h
  | element tag inner closing hclosing rest ihinner ihrest =>
    have hread := readMarkup_tag tag (byte '>' :: (inner.bytes ++
      (closingStart ++ (closing ++ ([byte '>'] ++ (rest.bytes ++ s))))))
    rw [scanStartTag_start, Option.map_some] at hread
    have hclose := readMarkup_closing hclosing (rest.bytes ++ s)
    have hmax : max (max maxDepth (depth + 1)) (depth + 1 + inner.openDepth) =
        max maxDepth (depth + (inner.openDepth + 1)) := by omega
    unfold Content.bytes Content.openDepth
    rw [List.cons_append, List.append_assoc, List.cons_append, List.append_assoc,
      List.append_assoc, List.append_assoc, List.append_assoc, scan_markup rfl hread]
    calc scan (inner.bytes ++ (closingStart ++ (closing ++ ([byte '>'] ++ (rest.bytes ++ s)))))
          (depth + 1) (max maxDepth (depth + 1))
        = scan (closingStart ++ (closing ++ ([byte '>'] ++ (rest.bytes ++ s)))) (depth + 1)
            (max maxDepth (depth + (inner.openDepth + 1))) := by
          rw [ihinner _ (le_max_right _ _), hmax]
      _ = scan (rest.bytes ++ s) depth (max maxDepth (depth + (inner.openDepth + 1))) :=
          scan_markup rfl hclose _ _
      _ = scan s depth (max maxDepth (depth + max (inner.openDepth + 1) rest.openDepth)) := by
          rw [ihrest _ (le_trans h (le_max_left _ _))]
          congr 1
          omega

theorem maxElementNestingDepth_content (c : Content) :
    maxElementNestingDepth c.bytes = c.openDepth := by
  have hscan := scan_content c [] (le_refl 0)
  rw [List.append_nil, Nat.zero_add, Nat.zero_max, scan] at hscan
  exact hscan

/-- `<a/>` -/
def lonelyElement : Content :=
  .emptyElement ⟨byte 'a', [], by unfold IsTagByte; decide, by decide⟩ .nil

end XmlDepth

end LensLM
