import LensLM.SectionPath

/-!
# The Markdown state machine

The events of the Markdown library are folded into blocks. Every block is a trimmed slice of
the source, so the offsets of subslices are tracked beside their text.
-/

namespace LensLM

open ByteText

set_option autoImplicit false

inductive Tag where
  | paragraph
  | heading (level : Nat)
  | blockQuote
  | codeBlock
  | htmlBlock
  | list
  | item
  | footnoteDefinition
  | definitionList
  | definitionListTitle
  | definitionListDefinition
  | table
  | tableHead
  | tableRow
  | tableCell
  | emphasis
  | strong
  | strikethrough
  | superscript
  | subscript
  | link
  | image
  | metadataBlock
deriving DecidableEq, Repr

inductive Leaf where
  | text
  | code
  | inlineMath
  | displayMath
  | html
  | inlineHtml
  | footnoteReference
  | softBreak
  | hardBreak
  | rule
  | taskListMarker
deriving DecidableEq, Repr

inductive Event where
  | start (tag : Tag)
  | stop (tag : Tag)
  | leaf (kind : Leaf)
deriving DecidableEq, Repr

/-- An event with its byte range in the source. -/
structure RangedEvent where
  event : Event
  start : Nat
  stop : Nat
deriving DecidableEq, Repr

/-- A subslice of the source at a byte offset. -/
structure SubStr where
  offset : Nat
  text : Str
deriving DecidableEq, Repr

namespace SubStr

def trimEnd (s : SubStr) : SubStr := ⟨s.offset, ByteText.trimEnd s.text⟩

def trim (s : SubStr) : SubStr :=
  ⟨s.offset + byteLen (leadingBlank s.text), ByteText.trim s.text⟩

/-- `trim_start_matches('#')`. -/
def trimStartHashes (s : SubStr) : SubStr :=
  ⟨s.offset + byteLen (s.text.takeWhile (· == '#')), s.text.dropWhile (· == '#')⟩

/-- `trim_end_matches('#')`. -/
def trimEndHashes (s : SubStr) : SubStr := ⟨s.offset, s.text.rdropWhile (· == '#')⟩

/-- `lines()`: the line ends are left out. -/
def linesFrom (offset : Nat) : Str → List SubStr
  | [] => []
  | '\n' :: s => ⟨offset, []⟩ :: linesFrom (offset + 1) s
  | '\r' :: '\n' :: s => ⟨offset, []⟩ :: linesFrom (offset + 2) s
  | c :: s =>
    match linesFrom (offset + c.utf8Size) s with
    | [] => [⟨offset, [c]⟩]
    | line :: ls => ⟨offset, c :: line.text⟩ :: ls

def lines (s : SubStr) : List SubStr := linesFrom s.offset s.text

end SubStr

section HeadingText

def setextTitle (raw : SubStr) : Option SubStr :=
  match raw.lines.filter fun l => !(trim l.text).isEmpty with
  | first :: second :: rest =>
    let underline := trim ((second :: rest).getLast (by simp)).text
    if underline.isEmpty then none
    else if underline.all (· == '=') || underline.all (· == '-') then
      let title := first.trim
      if title.text.isEmpty then none else some title
    else none
  | _ => none

def stripAtxClosing (s : SubStr) : SubStr :=
  let withoutHashes := s.trimEndHashes
  if byteLen withoutHashes.text = byteLen s.text then s
  else
    match withoutHashes.text.getLast? with
    | none => withoutHashes
    | some c => if isWhitespace c then withoutHashes else s

def extractHeadingText (raw : SubStr) : SubStr :=
  match setextTitle raw with
  | some title => title
  | none =>
    let stripped := (stripAtxClosing raw.trimStartHashes.trim).trimEnd
    if stripped.text.isEmpty then raw.trim else stripped

end HeadingText

section Emission

/-- The offset of the first occurrence of `needle`. -/
def findStr (needle : Str) : Str → Option Nat
  | [] => if needle = [] then some 0 else none
  | c :: s =>
    if needle.isPrefixOf (c :: s) then some 0
    else (findStr needle s).map (· + c.utf8Size)

def locateInSrc (src : Str) (needle : SubStr) (windowStart windowEnd : Nat) :
    Except Fault (Nat × Nat) :=
  if needle.text.isEmpty then .ok (windowStart, windowStart)
  else do
    let window ← sliceBytes src windowStart (min windowEnd (byteLen src))
    if windowStart ≤ needle.offset ∧
        needle.offset + byteLen needle.text ≤ windowStart + byteLen window then
      return (needle.offset, needle.offset + byteLen needle.text)
    else
      match findStr needle.text window with
      | some pos => return (windowStart + pos, windowStart + pos + byteLen needle.text)
      | none => return (windowStart, windowStart)

def emitBlock (src : Str) (blockType : BlockType) (sectionPath : Str) (byteStart byteEnd : Nat)
    (blocks : List Block) : Except Fault (List Block) :=
  if byteEnd ≤ byteStart ∨ byteLen src < byteEnd then .ok blocks
  else do
    let raw ← sliceBytes src byteStart byteEnd
    let trimmed := SubStr.trim ⟨byteStart, raw⟩
    if trimmed.text.isEmpty then return blocks
    let (start, stop) ← locateInSrc src trimmed byteStart byteEnd
    if stop ≤ start then return blocks
    return blocks ++ [⟨blockType, sectionPath, trimmed.text, start, stop⟩]

/-- Digits, then one `.` or `)`, then nothing. -/
def isOrderedMarker (sawDigit : Bool) : Str → Bool
  | [] => false
  | c :: rest =>
    if c.isDigit then isOrderedMarker true rest
    else sawDigit && (c == '.' || c == ')') && rest.isEmpty

def isBlankOrMarker (s : Str) : Bool :=
  s.isEmpty || s == ['-'] || s == ['*'] || s == ['+'] || isOrderedMarker false s

inductive BlockContext where
  | paragraph
  | codeBlock
  | listItem (emitted : Bool)
  | heading
deriving DecidableEq, Repr

structure OpenContext where
  context : BlockContext
  start : Nat
  path : Str
deriving DecidableEq, Repr

/-- The locals of `parse_markdown`; the innermost open context comes first. -/
structure MdState where
  blocks : List Block
  headingStack : SectionPathStack
  ctxStack : List OpenContext
  tableDepth : Nat

def MdState.new : MdState := ⟨[], SectionPathStack.new, [], 0⟩

def MdState.open (st : MdState) (context : BlockContext) (start : Nat) : MdState :=
  { st with ctxStack := ⟨context, start, st.headingStack.current⟩ :: st.ctxStack }

/-- A list item's own text up to `stop`, dropped when it is blank or a bare marker. -/
def emitOwnText (src : Str) (path : Str) (start stop : Nat) (blocks : List Block) :
    Except Fault (List Block) :=
  if start < stop then do
    let raw ← sliceBytes src start stop
    if isBlankOrMarker (trim raw) then return blocks
    else emitBlock src .listItem path start stop blocks
  else .ok blocks

def emitItemOwnTextBeforeChild (src : Str) (st : MdState) (childStart : Nat) :
    Except Fault MdState :=
  match st.ctxStack with
  | ⟨.listItem false, start, path⟩ :: outer => do
    let blocks ← emitOwnText src path start childStart st.blocks
    return { st with blocks := blocks, ctxStack := ⟨.listItem true, start, path⟩ :: outer }
  | _ => .ok st

/-- The tags that clamp the own text of the list item around them. -/
def Tag.clamps : Tag → Bool
  | .paragraph | .codeBlock | .list | .table | .htmlBlock => true
  | _ => false

def openTag (src : Str) (st : MdState) (tag : Tag) (start stop : Nat) :
    Except Fault MdState := do
  let st ← if tag.clamps then emitItemOwnTextBeforeChild src st start else pure st
  match tag with
  | .paragraph => return st.open .paragraph start
  | .codeBlock => return st.open .codeBlock start
  | .item => return st.open (.listItem false) start
  | .table =>
    let blocks ← emitBlock src .table st.headingStack.current start stop st.blocks
    return { st with blocks := blocks, tableDepth := st.tableDepth + 1 }
  | .htmlBlock =>
    let blocks ← emitBlock src .html st.headingStack.current start stop st.blocks
    return { st with blocks := blocks }
  | .heading _ => return st.open .heading start
  | _ => return st

/-- `End(Heading)`: the title joins the trail, and gives a block unless it is empty. -/
def closeHeading (src : Str) (st : MdState) (level start stop : Nat) :
    Except Fault MdState := do
  let raw ← sliceBytes src start stop
  let title := extractHeadingText ⟨start, raw⟩
  let headingStack := st.headingStack.push level title.text
  let (charStart, charEnd) ← locateInSrc src title start stop
  let blocks := if charStart < charEnd then
      st.blocks ++ [⟨.heading, headingStack.current, title.text, charStart, charEnd⟩]
    else st.blocks
  return { st with blocks := blocks, headingStack := headingStack }

/-- A closing tag pops the innermost context, and acts on it when it is of its own kind. -/
def closeTag (src : Str) (st : MdState) (tag : Tag) (stop : Nat) : Except Fault MdState :=
  match tag with
  | .paragraph | .codeBlock | .item | .heading _ =>
    match st.ctxStack with
    | [] => .ok st
    | ctx :: outer =>
      let st := { st with ctxStack := outer }
      match tag, ctx.context with
      | .paragraph, .paragraph => do
        let blocks ← emitBlock src .paragraph ctx.path ctx.start stop st.blocks
        return { st with blocks := blocks }
      | .codeBlock, .codeBlock => do
        let blocks ← emitBlock src .code ctx.path ctx.start stop st.blocks
        return { st with blocks := blocks }
      | .item, .listItem false => do
        let blocks ← emitOwnText src ctx.path ctx.start stop st.blocks
        return { st with blocks := blocks }
      | .heading level, .heading => closeHeading src st level ctx.start stop
      | _, _ => .ok st
  | _ => .ok st

def markdownStep (src : Str) (st : MdState) (ev : RangedEvent) : Except Fault MdState :=
  if 0 < st.tableDepth then
    match ev.event with
    | .start .table => .ok { st with tableDepth := st.tableDepth + 1 }
    | .stop .table => .ok { st with tableDepth := st.tableDepth - 1 }
    | _ => .ok st
  else
    match ev.event with
    | .start tag => openTag src st tag ev.start ev.stop
    | .stop tag => closeTag src st tag ev.stop
    | .leaf _ => .ok st

/-- `parse_markdown` over the events of the library. -/
def parseMarkdown (src : Str) (events : List RangedEvent) : Except Fault (List Block) := do
  let st ← events.foldlM (markdownStep src) MdState.new
  return st.blocks

end Emission

end LensLM
