import LensLM.ExtractMarkup

/-!
# Spellings of an XML tree

One tree can be written in many ways: an empty element with one tag or two, a text plainly, as CDATA
or with references. The walk over the events gives the same blocks for all of them, as long as an
element that stands for white space has one tag and no CDATA section has a carriage return.
-/

namespace LensLM

open ByteText LineWriter TextLayout Outcome

set_option autoImplicit false

section Trees

inductive MarkupNode where
  | element (tag : XmlTag) (children : List MarkupNode)
  | text (t : Str)

inductive PredefinedEntity where
  | lt
  | gt
  | amp
  | apos
  | quot

def PredefinedEntity.name : PredefinedEntity → Str
  | .lt => "lt".toList
  | .gt => "gt".toList
  | .amp => "amp".toList
  | .apos => "apos".toList
  | .quot => "quot".toList

def PredefinedEntity.char : PredefinedEntity → Char
  | .lt => '<'
  | .gt => '>'
  | .amp => '&'
  | .apos => '\''
  | .quot => '"'

/-- A part of a text as it is written, with the characters of the file. -/
inductive TextPiece where
  | plain (raw : Str)
  | cdata (raw : Str)
  | charRef (raw : Str) (c : Char)
  | entity (e : PredefinedEntity)

/-- Every line end of a file is read as one newline. -/
def normalizeLineEnds : Str → Str
  | [] => []
  | '\r' :: '\n' :: s => '\n' :: normalizeLineEnds s
  | c :: s => (if c = '\r' then '\n' else c) :: normalizeLineEnds s

def TextPiece.meaning : TextPiece → Str
  | .plain raw | .cdata raw => normalizeLineEnds raw
  | .charRef _ c => [c]
  | .entity e => [e.char]

/-- The reader normalizes the line ends of plain text but not those of CDATA. -/
def TextPiece.event : TextPiece → XmlEvent
  | .plain raw => .text (.ok (normalizeLineEnds raw))
  | .cdata raw => .cdata (.ok raw)
  | .charRef raw c => .generalRef (.ok raw) (some c)
  | .entity e => .generalRef (.ok e.name) none

/-- A node as it is written; comments and processing instructions stand aside. -/
inductive SpelledNode where
  | element (tag : XmlTag) (children : List SpelledNode)
  | emptyElement (tag : XmlTag)
  | text (pieces : List TextPiece)
  | aside

mutual

def SpelledNode.events : SpelledNode → List XmlEvent
  | .element tag children => .start tag :: (spelledEvents children ++ [.stop])
  | .emptyElement tag => [.empty tag]
  | .text pieces => pieces.map TextPiece.event
  | .aside => [.other]

def spelledEvents : List SpelledNode → List XmlEvent
  | [] => []
  | n :: ns => n.events ++ spelledEvents ns

end

mutual

/-- The node that is written, if it is one. -/
def SpelledNode.trees : SpelledNode → List MarkupNode
  | .element tag children => [.element tag (treesOf children)]
  | .emptyElement tag => [.element tag []]
  | .text pieces => [.text (pieces.flatMap TextPiece.meaning)]
  | .aside => []

def treesOf : List SpelledNode → List MarkupNode
  | [] => []
  | n :: ns => n.trees ++ treesOf ns

end

end Trees

section Import

variable {T γ : Type} (format : XmlFormat T γ)

mutual

/-- What a node inside a block adds to its text. -/
def MarkupNode.content : MarkupNode → Str
  | .element tag children =>
    if children.isEmpty then (format.inlineWhitespace tag).getD [] else contentOf children
  | .text t => t

def contentOf : List MarkupNode → Str
  | [] => []
  | n :: ns => n.content ++ contentOf ns

end

mutual

/-- The text items of a node. -/
def MarkupNode.items : MarkupNode → List Str
  | .element _ children => itemsOf children
  | .text t => [t]

def itemsOf : List MarkupNode → List Str
  | [] => []
  | n :: ns => n.items ++ itemsOf ns

end

mutual

/-- The children of the outermost block elements. -/
def MarkupNode.blocks : MarkupNode → List (List MarkupNode)
  | .element tag children =>
    if (format.classify tag).isSome then [children] else blocksOf children
  | .text _ => []

def blocksOf : List MarkupNode → List (List MarkupNode)
  | [] => []
  | n :: ns => n.blocks ++ blocksOf ns

end

mutual

/-- The walk as a function of the tree. -/
def XmlWalk.importNode (w : XmlWalk T γ) : MarkupNode → XmlWalk T γ
  | .element tag children =>
    match format.classify tag with
    | some kind => w.close format ⟨kind.level, 0, contentOf format children⟩
    | none => w.importNodes children
  | .text _ => w

def XmlWalk.importNodes (w : XmlWalk T γ) : List MarkupNode → XmlWalk T γ
  | [] => w
  | n :: ns => (w.importNode n).importNodes ns

end

/-- The texts of the blocks; blank ones are left out. -/
def blockTexts (ns : List MarkupNode) : List Str :=
  ((blocksOf format ns).map fun children => trim (contentOf format children)).filter (· ≠ [])

/-- The text items inside outermost block elements. -/
def blockItems (ns : List MarkupNode) : List Str := (blocksOf format ns).flatMap itemsOf

/-- Headings have a level, and inline white space is nothing else. -/
structure XmlFormat.Regular : Prop where
  levels : ∀ tag level, format.classify tag = some (.heading level) → 0 < level
  blank : ∀ tag ws, format.inlineWhitespace tag = some ws → IsBlank ws

mutual

/-- Inside a block, an element that stands for white space has one tag, and CDATA no carriage
return. -/
def SpelledNode.PlainInside : SpelledNode → Prop
  | .element tag children =>
    ((treesOf children).isEmpty → (format.inlineWhitespace tag).getD [] = []) ∧
      plainInside children
  | .emptyElement _ => True
  | .text pieces => ∀ raw, .cdata raw ∈ pieces → '\r' ∉ raw
  | .aside => True

def plainInside : List SpelledNode → Prop
  | [] => True
  | n :: ns => n.PlainInside ∧ plainInside ns

end

mutual

/-- All blocks are spelled plainly. -/
def SpelledNode.Plain : SpelledNode → Prop
  | .element tag children =>
    if (format.classify tag).isSome then plainInside format children else plain children
  | .emptyElement _ | .text _ | .aside => True

def plain : List SpelledNode → Prop
  | [] => True
  | n :: ns => n.Plain ∧ plain ns

end

end Import

section Walk

variable {T γ : Type} {format : XmlFormat T γ}

theorem normalizeLineEnds_eq {raw : Str} (h : '\r' ∉ raw) : normalizeLineEnds raw = raw := by
  induction raw with
  | nil => rfl
  | cons c s ih =>
    have hc : c ≠ '\r' := fun heq => h (heq ▸ List.mem_cons_self)
    rw [normalizeLineEnds, if_neg hc, ih fun hs => h (List.mem_cons_of_mem c hs)]
    rintro t heq _
    exact hc heq

theorem resolvePredefinedEntity_name (e : PredefinedEntity) :
    resolvePredefinedEntity e.name = some [e.char] := by
  cases e <;> decide

theorem OpenBlock.push_nil (cur : OpenBlock) : cur.push [] = cur := by
  rw [OpenBlock.push, List.append_nil]

theorem OpenBlock.push_push (cur : OpenBlock) (s t : Str) :
    (cur.push s).push t = cur.push (s ++ t) := by
  simp only [OpenBlock.push, List.append_assoc]

theorem contentOf_append (ns ms : List MarkupNode) :
    contentOf format (ns ++ ms) = contentOf format ns ++ contentOf format ms := by
  induction ns with
  | nil => rfl
  | cons n ns ih => simp only [List.cons_append, contentOf, ih, List.append_assoc]

/-- Inside a block a plain piece adds what it means. -/
theorem XmlWalk.event_piece (w : XmlWalk T γ) {cur : OpenBlock} (hcur : w.current = some cur)
    {piece : TextPiece} (h : ∀ raw, piece = .cdata raw → '\r' ∉ raw) :
    w.event format piece.event = .ok { w with current := some (cur.push piece.meaning) } := by
  cases piece with
  | plain raw => simp only [TextPiece.event, XmlWalk.event, hcur, decodedText, Except.map,
      TextPiece.meaning]
  | cdata raw => simp only [TextPiece.event, XmlWalk.event, hcur, decodedText, Except.map,
      TextPiece.meaning, normalizeLineEnds_eq (h raw rfl)]
  | charRef raw c => simp only [TextPiece.event, XmlWalk.event, hcur, decodedText, Except.map,
      TextPiece.meaning, pushGeneralRef, OpenBlock.push]
  | entity e => simp only [TextPiece.event, XmlWalk.event, hcur, decodedText, Except.map,
      TextPiece.meaning, pushGeneralRef, resolvePredefinedEntity_name, OpenBlock.push]

theorem XmlWalk.events_pieces (pieces : List TextPiece)
    (h : ∀ raw, .cdata raw ∈ pieces → '\r' ∉ raw) (w : XmlWalk T γ) {cur : OpenBlock}
    (hcur : w.current = some cur) :
    (pieces.map TextPiece.event).foldlM (XmlWalk.event format) w =
      .ok { w with current := some (cur.push (pieces.flatMap TextPiece.meaning)) } := by
  induction pieces generalizing w cur with
  | nil =>
    rw [List.flatMap_nil, OpenBlock.push, List.append_nil, ← hcur]
    rfl
  | cons piece pieces ih =>
    have hpiece : ∀ raw, piece = .cdata raw → '\r' ∉ raw :=
      fun raw heq => h raw (heq ▸ List.mem_cons_self)
    rw [List.map_cons, List.foldlM_cons, w.event_piece hcur hpiece]
    have hrest := ih (fun raw hraw => h raw (List.mem_cons_of_mem piece hraw))
      { w with current := some (cur.push piece.meaning) } rfl
    rw [OpenBlock.push_push] at hrest
    exact hrest

mutual

/-- Inside a block the events of a plain node add its content and leave the depth. -/
theorem XmlWalk.events_inside (n : SpelledNode) (h : n.PlainInside format) (w : XmlWalk T γ)
    {cur : OpenBlock} (hcur : w.current = some cur) :
    n.events.foldlM (XmlWalk.event format) w =
      .ok { w with current := some (cur.push (contentOf format n.trees)) } := by
  cases n with
  | element tag children =>
    obtain ⟨hws, hchildren⟩ := h
    have hstart : w.event format (.start tag) =
        .ok { w with current := some { cur with depth := cur.depth + 1 } } := by
      simp only [XmlWalk.event, hcur]
    have hinside := XmlWalk.events_plainInside children hchildren
      { w with current := some { cur with depth := cur.depth + 1 } } rfl
    have hcontent : contentOf format (SpelledNode.element tag children).trees =
        contentOf format (treesOf children) := by
      simp only [SpelledNode.trees, contentOf, MarkupNode.content, List.append_nil]
      split
      · rename_i hempty
        rw [hws hempty, List.isEmpty_iff.mp hempty]
        rfl
      · rfl
    rw [SpelledNode.events, List.foldlM_cons, hstart, hcontent]
    show (spelledEvents children ++ [XmlEvent.stop]).foldlM (XmlWalk.event format) _ = _
    rw [List.foldlM_append, hinside]
    simp [XmlWalk.event, OpenBlock.push, Bind.bind, Except.bind, Pure.pure, Except.pure]
  | emptyElement tag =>
    have hevent : w.event format (.empty tag) =
        .ok { w with current := some (cur.push ((format.inlineWhitespace tag).getD [])) } := by
      simp only [XmlWalk.event, hcur]
    rw [SpelledNode.events, List.foldlM_cons, hevent]
    simp [SpelledNode.trees, contentOf, MarkupNode.content, Pure.pure, Bind.bind, Except.bind,
      Except.pure]
  | text pieces =>
    have hpieces := @XmlWalk.events_pieces T γ format pieces h w _ hcur
    simpa [SpelledNode.events, SpelledNode.trees, contentOf, MarkupNode.content] using hpieces
  | aside =>
    rw [SpelledNode.trees, contentOf, OpenBlock.push_nil, ← hcur]
    rfl

theorem XmlWalk.events_plainInside (ns : List SpelledNode) (h : plainInside format ns)
    (w : XmlWalk T γ) {cur : OpenBlock} (hcur : w.current = some cur) :
    (spelledEvents ns).foldlM (XmlWalk.event format) w =
      .ok { w with current := some (cur.push (contentOf format (treesOf ns))) } := by
  cases ns with
  | nil =>
    rw [treesOf, contentOf, OpenBlock.push_nil, ← hcur]
    rfl
  | cons n ns =>
    have hfirst := XmlWalk.events_inside n h.1 w hcur
    have hrest := XmlWalk.events_plainInside ns h.2
      { w with current := some (cur.push (contentOf format n.trees)) } rfl
    rw [OpenBlock.push_push] at hrest
    rw [spelledEvents, List.foldlM_append, hfirst, treesOf, contentOf_append]
    exact hrest

end

theorem XmlWalk.current_close (w : XmlWalk T γ) (cur : OpenBlock) :
    (w.close format cur).current = none := by
  unfold XmlWalk.close
  dsimp only
  split
  · rfl
  · split <;> rfl

theorem XmlWalk.importNodes_append (w : XmlWalk T γ) (ns ms : List MarkupNode) :
    w.importNodes format (ns ++ ms) = (w.importNodes format ns).importNodes format ms := by
  induction ns generalizing w with
  | nil => rfl
  | cons n ns ih =>
    rw [List.cons_append, importNodes, importNodes]
    exact ih _

mutual

theorem XmlWalk.current_importNode (w : XmlWalk T γ) (hcur : w.current = none) (n : MarkupNode) :
    (w.importNode format n).current = none := by
  cases n with
  | element tag children =>
    rw [importNode]
    split
    · exact w.current_close _
    · exact w.current_importNodes hcur children
  | text t => exact hcur

theorem XmlWalk.current_importNodes (w : XmlWalk T γ) (hcur : w.current = none)
    (ns : List MarkupNode) : (w.importNodes format ns).current = none := by
  cases ns with
  | nil => exact hcur
  | cons n ns =>
    rw [importNodes]
    exact (w.importNode format n).current_importNodes (w.current_importNode hcur n) ns

end

theorem XmlWalk.eq_of_current {w : XmlWalk T γ} (hcur : w.current = none) :
    { w with current := none } = w := by
  cases w
  cases hcur
  rfl

/-- Pieces outside a block are passed over. -/
theorem XmlWalk.events_pieces_outside (pieces : List TextPiece) {w : XmlWalk T γ}
    (hcur : w.current = none) :
    (pieces.map TextPiece.event).foldlM (XmlWalk.event format) w = .ok w := by
  induction pieces with
  | nil => rfl
  | cons piece pieces ih =>
    have hpiece : w.event format piece.event = .ok w := by
      cases piece <;> simp only [TextPiece.event, XmlWalk.event, hcur]
    rw [List.map_cons, List.foldlM_cons, hpiece]
    exact ih

/-- A block element with one tag counts as one without text. -/
theorem XmlWalk.event_empty (hf : format.Regular) {w : XmlWalk T γ} (hcur : w.current = none)
    (tag : XmlTag) :
    w.event format (.empty tag) = .ok (w.importNode format (.element tag [])) := by
  simp only [event, hcur, importNode]
  cases hkind : format.classify tag with
  | none => rfl
  | some kind =>
    have hnone : w.close format ⟨kind.level, 0, contentOf format []⟩ =
        { w with current := none, counters := (format.makeAnchor (0 < kind.level) w.counters).2 } := by
      rfl
    dsimp only
    rw [hnone]
    cases kind with
    | heading level =>
      have hpos : decide (0 < BlockKind.level (.heading level)) = true :=
        decide_eq_true (hf.levels tag level hkind)
      rw [hpos]
    | paragraph => rfl

mutual

/-- Outside a block the events of a plain node import it. -/
theorem XmlWalk.events_outside (hf : format.Regular) (n : SpelledNode) (h : n.Plain format)
    {w : XmlWalk T γ} (hcur : w.current = none) :
    n.events.foldlM (XmlWalk.event format) w = .ok (w.importNodes format n.trees) := by
  cases n with
  | element tag children =>
    rw [SpelledNode.Plain] at h
    rw [SpelledNode.events, List.foldlM_cons, SpelledNode.trees, importNodes, importNodes, importNode]
    cases hkind : format.classify tag with
    | some kind =>
      rw [hkind] at h
      have hstart : w.event format (.start tag) =
          .ok { w with current := some ⟨kind.level, 0, []⟩ } := by
        simp only [event, hcur, hkind, Option.map_some]
      have hinside := XmlWalk.events_plainInside children h
        { w with current := some ⟨kind.level, 0, []⟩ } rfl
      rw [hstart]
      show (spelledEvents children ++ [XmlEvent.stop]).foldlM (XmlWalk.event format) _ = _
      rw [List.foldlM_append, hinside]
      rfl
    | none =>
      rw [hkind] at h
      have hstart : w.event format (.start tag) = .ok w := by
        simp only [event, hcur, hkind, Option.map_none, eq_of_current hcur]
      have hchildren := XmlWalk.events_plain hf children h hcur
      rw [hstart]
      show (spelledEvents children ++ [XmlEvent.stop]).foldlM (XmlWalk.event format) _ = _
      rw [List.foldlM_append, hchildren]
      have hstop : (w.importNodes format (treesOf children)).event format .stop =
          .ok (w.importNodes format (treesOf children)) := by
        simp only [event, current_importNodes w hcur]
      show List.foldlM (XmlWalk.event format) _ [XmlEvent.stop] = _
      rw [List.foldlM_cons, hstop]
      rfl
  | emptyElement tag =>
    rw [SpelledNode.events, List.foldlM_cons, event_empty hf hcur]
    rfl
  | text pieces =>
    rw [SpelledNode.events, XmlWalk.events_pieces_outside pieces hcur]
    rfl
  | aside => rfl

theorem XmlWalk.events_plain (hf : format.Regular) (ns : List SpelledNode) (h : plain format ns)
    {w : XmlWalk T γ} (hcur : w.current = none) :
    (spelledEvents ns).foldlM (XmlWalk.event format) w = .ok (w.importNodes format (treesOf ns)) := by
  cases ns with
  | nil => rfl
  | cons n ns =>
    have hrest := XmlWalk.events_plain hf ns h.2 (@current_importNodes T γ format w hcur n.trees)
    rw [spelledEvents, List.foldlM_append, XmlWalk.events_outside hf n h.1 hcur, treesOf,
      XmlWalk.importNodes_append]
    exact hrest

end

end Walk

section Output

variable {T γ : Type} {format : XmlFormat T γ}

theorem XmlWalk.wrote_close {w : XmlWalk T γ} {ts : List Str} (h : w.out.Wrote ts)
    (cur : OpenBlock) :
    (w.close format cur).out.Wrote (ts ++ [trim cur.text].filter (· ≠ [])) := by
  unfold XmlWalk.close
  dsimp only
  split
  · rename_i hnil
    rw [hnil]
    simpa using h
  · rename_i hne
    rw [List.filter_cons_of_pos (by simpa using hne), List.filter_nil]
    split
    · exact h.emit _ _ _ _
    · exact h.emit _ _ _ _

theorem blockTexts_append (ns ms : List MarkupNode) :
    blockTexts format (ns ++ ms) = blockTexts format ns ++ blockTexts format ms := by
  have hblocks : blocksOf format (ns ++ ms) = blocksOf format ns ++ blocksOf format ms := by
    induction ns with
    | nil => rfl
    | cons n ns ih => rw [List.cons_append, blocksOf, blocksOf, ih, List.append_assoc]
  unfold blockTexts
  rw [hblocks, List.map_append, List.filter_append]

mutual

theorem XmlWalk.wrote_importNode {w : XmlWalk T γ} {ts : List Str} (h : w.out.Wrote ts)
    (n : MarkupNode) : (w.importNode format n).out.Wrote (ts ++ blockTexts format [n]) := by
  cases n with
  | element tag children =>
    rw [importNode]
    cases hkind : format.classify tag with
    | some kind =>
      have htexts : blockTexts format [.element tag children] =
          [trim (contentOf format children)].filter (· ≠ []) := by
        simp [blockTexts, blocksOf, MarkupNode.blocks, hkind]
      rw [htexts]
      exact wrote_close h _
    | none =>
      have htexts : blockTexts format [.element tag children] = blockTexts format children := by
        simp [blockTexts, blocksOf, MarkupNode.blocks, hkind]
      rw [htexts]
      exact wrote_importNodes h children
  | text t =>
    rw [show blockTexts format [.text t] = [] by rfl, List.append_nil]
    exact h

/-- The texts that are written are those of the outermost blocks. -/
theorem XmlWalk.wrote_importNodes {w : XmlWalk T γ} {ts : List Str} (h : w.out.Wrote ts)
    (ns : List MarkupNode) : (w.importNodes format ns).out.Wrote (ts ++ blockTexts format ns) := by
  cases ns with
  | nil =>
    rw [show blockTexts format [] = [] by rfl, List.append_nil]
    exact h
  | cons n ns =>
    rw [importNodes, show n :: ns = [n] ++ ns by rfl, blockTexts_append, ← List.append_assoc]
    exact wrote_importNodes (wrote_importNode h n) ns

end

mutual

theorem spaced_node (hf : format.Regular) (n : MarkupNode) :
    Spaced n.items (n.content format) := by
  cases n with
  | element tag children =>
    rw [MarkupNode.items, MarkupNode.content]
    split
    · rename_i hempty
      rw [List.isEmpty_iff.mp hempty]
      cases hws : format.inlineWhitespace tag with
      | none => exact laid_empty
      | some ws => exact hf.blank tag ws hws
    · exact spaced_nodes hf children
  | text t => exact laid_singleton t

/-- The content of nodes is made of their text items and white space. -/
theorem spaced_nodes (hf : format.Regular) (ns : List MarkupNode) :
    Spaced (itemsOf ns) (contentOf format ns) := by
  cases ns with
  | nil => exact laid_empty
  | cons n ns => exact (spaced_node hf n).append (spaced_nodes hf ns)

end

/-- Plain spellings of one tree are imported alike. The texts of the blocks are those of the outermost
block elements, trimmed, and every text item inside one is kept but for white space at its ends. -/
def ImportsTrees (format : XmlFormat T γ) : Prop :=
  ∀ (s : List SpelledNode) (counters : γ) (out : ExtractOutput T) (ts : List Str),
    plain format s → out.Wrote ts → ∃ w, walkXmlBlocks format (spelledEvents s) counters out = .ok w ∧
      (∀ s', plain format s' → treesOf s' = treesOf s →
        walkXmlBlocks format (spelledEvents s') counters out = .ok w) ∧
      w.out.Wrote (ts ++ blockTexts format (treesOf s)) ∧
      w.out.KeepsTexts (ts ++ (blockItems format (treesOf s)).map trim)

theorem importsTrees_of_regular (hf : format.Regular) : ImportsTrees format := by
  intro s counters out ts hplain hout
  have hwalk : ∀ s', plain format s' → treesOf s' = treesOf s →
      walkXmlBlocks format (spelledEvents s') counters out =
        .ok ((⟨none, counters, .new, out⟩ : XmlWalk T γ).importNodes format (treesOf s)) := by
    intro s' hplain' hsame
    rw [← hsame]
    exact XmlWalk.events_plain hf s' hplain' rfl
  have hwrote := @XmlWalk.wrote_importNodes T γ format ⟨none, counters, .new, out⟩ ts hout (treesOf s)
  refine ⟨_, hwalk s hplain rfl, hwalk, hwrote, ?_⟩
  obtain ⟨tss, htss, hflat⟩ := laid_nonempty (blocksOf format (treesOf s))
    (f := fun children => (itemsOf children).map trim) fun children _ =>
      (spaced_nodes hf children).trim
  have hearlier : List.Forall₂ (Laid fun c => isWhitespace c = true) (ts.map fun t => [t]) ts := by
    rw [List.forall₂_map_left_iff, List.forall₂_same]
    exact fun t _ => laid_singleton t
  have hkeeps := hwrote.keepsTexts (List.rel_append hearlier htss)
  have htexts : (((ts.map fun t => [t]) ++ tss).flatten).filter (· ≠ []) =
      (ts ++ (blockItems format (treesOf s)).map trim).filter (· ≠ []) := by
    have hsingle : (ts.map fun t => [t]).flatten = ts :=
      List.flatMap_def.symm.trans (List.flatMap_singleton' ts)
    rw [List.flatten_append, hflat, hsingle, List.filter_append, List.filter_append,
      List.filter_filter, blockItems, List.map_flatMap]
    simp only [Bool.and_self]
  unfold ExtractOutput.KeepsTexts at hkeeps ⊢
  rw [← htexts]
  exact hkeeps

theorem regular_odtFormat : (odtFormat : XmlFormat T (Nat × Nat)).Regular where
  levels := by
    intro tag level h
    simp only [odtFormat] at h
    split at h
    · cases h
      cases hlevel : outlineLevel tag with
      | none => exact Nat.one_pos
      | some n =>
        obtain ⟨m, _, rfl⟩ := Option.map_eq_some_iff.mp hlevel
        simp only [Option.getD_some]
        omega
    · split at h <;> cases h
  blank := by
    intro tag ws h
    simp only [odtFormat] at h
    split at h
    · cases h
      intro c hc
      rw [List.eq_of_mem_replicate hc]
      rfl
    · split at h
      · cases h
        decide
      · split at h
        · cases h
          decide
        · cases h

theorem regular_epubFormat (spineIndex : Nat) (href : Str) :
    (epubFormat spineIndex href : XmlFormat T Unit).Regular where
  levels := by
    intro tag level h
    simp only [epubFormat] at h
    split at h
    · rename_i n hlevel
      cases h
      unfold epubHeadingLevel at hlevel
      split at hlevel <;> cases hlevel <;> decide
    · split at h <;> cases h
  blank := by
    intro tag ws h
    simp only [epubFormat] at h
    split at h
    · cases h
      decide
    · cases h

/-- Both formats import a tree however it is spelled plainly. -/
theorem xml_imports_trees : ImportsTrees (odtFormat : XmlFormat T (Nat × Nat)) ∧
    ∀ spineIndex href, ImportsTrees (epubFormat spineIndex href : XmlFormat T Unit) :=
  ⟨importsTrees_of_regular regular_odtFormat,
    fun spineIndex href => importsTrees_of_regular (regular_epubFormat spineIndex href)⟩

end Output

section Examples

def odfTag (name : String) : XmlTag := ⟨name.toList, name.toList, []⟩

/-- A tab between two letters, with one tag and with two. -/
def tabbed : List SpelledNode :=
  [.element (odfTag "text:p") [.text [.plain ['a']], .emptyElement (odfTag "text:tab"),
    .text [.plain ['b']]]]

def pairedTab : List SpelledNode :=
  [.element (odfTag "text:p") [.text [.plain ['a']], .element (odfTag "text:tab") [],
    .text [.plain ['b']]]]

/-- A paragraph with nothing but a space. -/
def blankParagraph : List SpelledNode := [.element (odfTag "text:p") [.text [.plain [' ']]]]

def importedTexts (s : List SpelledNode) : Option (List Str) :=
  ((walkXmlBlocks (odtFormat : XmlFormat Nat (Nat × Nat)) (spelledEvents s) (0, 0) .empty).toOption).map
    fun w => w.out.blocks.map Block.text

/-- With two tags the tab is lost; and the blank text is in no block. -/
theorem pairedTab_differs : treesOf pairedTab = treesOf tabbed ∧
    importedTexts tabbed = some ["a\tb".toList] ∧ importedTexts pairedTab = some ["ab".toList] ∧
    blockItems (odtFormat : XmlFormat Nat (Nat × Nat)) (treesOf blankParagraph) = [[' ']] ∧
    importedTexts blankParagraph = some [] := by
  refine ⟨rfl, by decide, by decide, by decide, by decide⟩

end Examples

end LensLM
