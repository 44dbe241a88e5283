import LensLM.ExtractWriter
import LensLM.SectionPath

/-!
# Extractors of documents

DOCX documents are walked as trees, ODT and EPUB ones as the events of an XML reader, RTF ones line
by line and XML ones element by element.
-/

namespace LensLM

open ByteText LineWriter Outcome

set_option autoImplicit false

variable {T : Type}

def numbered (name : String) (n : Nat) : Str :=
  name.toList ++ '[' :: (toString n).toList ++ [']']

section Docx

inductive RunChild where
  | text (t : Str)
  | other

inductive InsertChild where
  | run (children : List RunChild)
  | delete (runs : List (List RunChild))
  | other

inductive ParagraphChild where
  | run (children : List RunChild)
  | hyperlink (children : List ParagraphChild)
  | insert (children : List InsertChild)
  | delete (runs : List (List RunChild))
  | other

structure Paragraph where
  style : Option Str
  children : List ParagraphChild

inductive TableCellContent where
  | paragraph (p : Paragraph)
  | table (rows : List (List (List TableCellContent)))
  | other

/-- Rows of cells. -/
abbrev Table := List (List (List TableCellContent))

inductive DocumentChild where
  | paragraph (p : Paragraph)
  | table (t : Table)
  | other

/-- No character beyond ASCII has one of the letters compared here as its lower case. -/
def headingLevel (styleId : Str) : Option Nat :=
  let s := trim (styleId.map Char.toLower)
  let isFiller := fun c => c == ' ' || c == '-' || c == '_'
  if "heading".toList <+: s then
    match ((s.drop 7).dropWhile isFiller).rdropWhile isFiller with
    | ['1'] => some 1
    | ['2'] => some 2
    | ['3'] => some 3
    | ['4'] => some 4
    | ['5'] => some 5
    | ['6'] => some 6
    | _ => none
  else none

def RunChild.content : RunChild → Str
  | .text t => t
  | .other => []

/-- Only the runs that are not inside another child are read. -/
def ParagraphChild.content : ParagraphChild → Str
  | .run children => children.flatMap RunChild.content
  | .hyperlink _ | .insert _ | .delete _ | .other => []

def paraText (p : Paragraph) : Str := p.children.flatMap ParagraphChild.content

/-- Contents one after the other with a space between, where empty ones are left out. -/
def cellText (contentText : TableCellContent → Option Str) (contents : List TableCellContent) :
    Str :=
  contents.foldl (fun buf content =>
    match contentText content with
    | none | some [] => buf
    | some t => if buf = [] then t else buf ++ ' ' :: t) []

def tableTextWith (contentText : TableCellContent → Option Str) (t : Table) : Str :=
  ['\n'].intercalate (t.map fun cells => [' ', ' '].intercalate (cells.map (cellText contentText)))

def MAX_TABLE_DEPTH : Nat := 16

/-- Tables are followed to as many levels as are left. -/
def tableTextDepth : Nat → Table → Str
  | 0 => tableTextWith fun
    | .paragraph p => some (paraText p)
    | .table _ | .other => none
  | left + 1 => tableTextWith fun
    | .paragraph p => some (paraText p)
    | .table nested => some (tableTextDepth left nested)
    | .other => none

def tableText (t : Table) : Str := tableTextDepth MAX_TABLE_DEPTH t

structure DocxState (T : Type) where
  out : ExtractOutput T
  sectionPath : SectionPathStack
  paraCount : Nat
  tblCount : Nat

def DocxState.child (st : DocxState T) : DocumentChild → DocxState T
  | .paragraph p =>
    let nodePath := numbered "body/p" st.paraCount
    let st := { st with paraCount := st.paraCount + 1 }
    let text := paraText p
    if text = [] then st
    else
      match headingLevel (p.style.getD []) with
      | some level =>
        let sectionPath := st.sectionPath.push level text
        { st with
          sectionPath
          out := st.out.emit .heading sectionPath.current text (.docx nodePath) }
      | none =>
        { st with out := st.out.emit .paragraph st.sectionPath.current text (.docx nodePath) }
  | .table t =>
    let nodePath := numbered "body/tbl" st.tblCount
    let st := { st with tblCount := st.tblCount + 1 }
    let text := tableText t
    if text = [] then st
    else { st with out := st.out.emit .table st.sectionPath.current text (.docx nodePath) }
  | .other => st

def DocxState.start : DocxState T := ⟨.empty, .new, 0, 0⟩

def extractDocx (children : List DocumentChild) : ExtractOutput T :=
  (children.foldl DocxState.child .start).out.trimmed

def DocumentChild.text : DocumentChild → Str
  | .paragraph p => paraText p
  | .table t => tableText t
  | .other => []

/-- The texts of the children that have one. -/
def docxTexts (children : List DocumentChild) : List Str :=
  (children.map DocumentChild.text).filter (· ≠ [])

theorem DocxState.wrote_child {st : DocxState T} {ts : List Str} (h : st.out.Wrote ts)
    (x : DocumentChild) : (st.child x).out.Wrote (ts ++ docxTexts [x]) := by
  have hskip : x.text = [] → docxTexts [x] = [] := by
    intro hx
    simp [docxTexts, hx]
  have hemit : x.text ≠ [] → docxTexts [x] = [x.text] := by
    intro hx
    simp [docxTexts, hx]
  cases x with
  | paragraph p =>
    simp only [DocxState.child]
    split
    · rename_i hp
      rw [hskip hp, List.append_nil]
      exact h
    · rename_i hp
      rw [hemit hp]
      split
      · exact h.emit _ _ _ _
      · exact h.emit _ _ _ _
  | table t =>
    simp only [DocxState.child]
    split
    · rename_i ht
      rw [hskip ht, List.append_nil]
      exact h
    · rename_i ht
      rw [hemit ht]
      exact h.emit _ _ _ _
  | other =>
    rw [hskip rfl, List.append_nil]
    exact h

theorem DocxState.wrote_foldl (st : DocxState T) {ts : List Str} (h : st.out.Wrote ts)
    (children : List DocumentChild) :
    (children.foldl DocxState.child st).out.Wrote (ts ++ docxTexts children) := by
  induction children generalizing st ts with
  | nil => simpa [docxTexts] using h
  | cons x children ih =>
    have hsplit : docxTexts (x :: children) = docxTexts [x] ++ docxTexts children := by
      unfold docxTexts
      rw [← List.filter_append, ← List.map_append]
      rfl
    rw [hsplit, ← List.append_assoc]
    exact ih _ (wrote_child h x)

/-- A DOCX document is sliceable unless its last text ends in a newline. -/
theorem extractDocx_sliceable_iff (children : List DocumentChild) :
    (extractDocx children : ExtractOutput T).Sliceable ↔
      ∀ t ∈ (docxTexts children).getLast?, t.getLast? ≠ some '\n' := by
  have h := DocxState.wrote_foldl (.start : DocxState T) ExtractOutput.wrote_empty children
  rw [List.nil_append] at h
  apply h.trimmed_sliceable_iff
  intro t ht
  simpa using (List.mem_filter.mp ht).2

end Docx

section XmlBlocks

/-- A start tag; a value that is not UTF-8 is `none`. -/
structure XmlTag where
  name : Str
  localName : Str
  attributes : List (Str × Option Str)

def XmlTag.attribute (tag : XmlTag) (key : Str) : Option (Option Str) :=
  (tag.attributes.find? fun a => a.1 = key).map Prod.snd

/-- What the reader reports, up to the end of the document. -/
inductive XmlEvent where
  | start (tag : XmlTag)
  | empty (tag : XmlTag)
  | text (decoded : Except String Str)
  | cdata (decoded : Except String Str)
  | generalRef (raw : Except String Str) (resolved : Option Char)
  | stop
  | malformed (e : String)
  | other

inductive BlockKind where
  | heading (level : Nat)
  | paragraph

def resolvePredefinedEntity (raw : Str) : Option Str :=
  if raw = "lt".toList then some ['<']
  else if raw = "gt".toList then some ['>']
  else if raw = "amp".toList then some ['&']
  else if raw = "apos".toList then some ['\'']
  else if raw = "quot".toList then some ['"']
  else none

/-- An unknown entity is kept as it is. -/
def pushGeneralRef (dst raw : Str) (resolvedChar : Option Char) : Str :=
  match resolvedChar with
  | some c => dst ++ [c]
  | none =>
    match resolvePredefinedEntity raw with
    | some replacement => dst ++ replacement
    | none => dst ++ '&' :: raw ++ [';']

/-- The level is 0 for a paragraph. -/
structure OpenBlock where
  level : Nat
  depth : Nat
  text : Str

/-- The differences between the formats; `γ` is what the anchors count. -/
structure XmlFormat (T γ : Type) where
  name : String
  classify : XmlTag → Option BlockKind
  inlineWhitespace : XmlTag → Option Str
  makeAnchor : Bool → γ → SourceAnchor T × γ

structure XmlWalk (T γ : Type) where
  current : Option OpenBlock
  counters : γ
  sectionPath : SectionPathStack
  out : ExtractOutput T

variable {γ : Type} (format : XmlFormat T γ)

def OpenBlock.push (cur : OpenBlock) (t : Str) : OpenBlock := { cur with text := cur.text ++ t }

def BlockKind.level : BlockKind → Nat
  | .heading level => level
  | .paragraph => 0

/-- The block that a tag ends; a blank one counts for the anchors only. -/
def XmlWalk.close (w : XmlWalk T γ) (cur : OpenBlock) : XmlWalk T γ :=
  let isHeading : Bool := 0 < cur.level
  let text := trim cur.text
  let (anchor, counters) := format.makeAnchor isHeading w.counters
  let w := { w with current := none, counters }
  if text = [] then w
  else if isHeading then
    let sectionPath := w.sectionPath.push cur.level text
    { w with sectionPath, out := w.out.emit .heading sectionPath.current text anchor }
  else { w with out := w.out.emit .paragraph w.sectionPath.current text anchor }

def decodedText (what : String) : Except String Str → Except LensError Str
  | .ok t => .ok t
  | .error e => .error (.parse (format.name ++ what ++ e))

def XmlWalk.event (w : XmlWalk T γ) : XmlEvent → Except LensError (XmlWalk T γ)
  | .start tag =>
    match w.current with
    | some cur => .ok { w with current := some { cur with depth := cur.depth + 1 } }
    | none => .ok { w with current := (format.classify tag).map fun kind => ⟨kind.level, 0, []⟩ }
  | .empty tag =>
    match w.current with
    | some cur => .ok { w with current := some (cur.push ((format.inlineWhitespace tag).getD [])) }
    | none =>
      match format.classify tag with
      | none => .ok w
      | some kind =>
        let isHeading := match kind with
          | .heading _ => true
          | .paragraph => false
        .ok { w with counters := (format.makeAnchor isHeading w.counters).2 }
  | .text decoded =>
    match w.current with
    | none => .ok w
    | some cur => (decodedText format " text decode failed: " decoded).map fun t =>
      { w with current := some (cur.push t) }
  | .cdata decoded =>
    match w.current with
    | none => .ok w
    | some cur => (decodedText format " CDATA decode failed: " decoded).map fun t =>
      { w with current := some (cur.push t) }
  | .generalRef raw resolved =>
    match w.current with
    | none => .ok w
    | some cur => (decodedText format " entity ref not UTF-8: " raw).map fun raw =>
      { w with current := some { cur with text := pushGeneralRef cur.text raw resolved } }
  | .stop =>
    match w.current with
    | none => .ok w
    | some cur =>
      if 0 < cur.depth then .ok { w with current := some { cur with depth := cur.depth - 1 } }
      else .ok (w.close format cur)
  | .malformed e => .error (.parse (format.name ++ " XML parse error: " ++ e))
  | .other => .ok w

def walkXmlBlocks (events : List XmlEvent) (counters : γ) (out : ExtractOutput T) :
    Except LensError (XmlWalk T γ) :=
  events.foldlM (XmlWalk.event format) ⟨none, counters, .new, out⟩

theorem XmlWalk.wroteClosed_close {w : XmlWalk T γ} (h : w.out.WroteClosed) (cur : OpenBlock) :
    (w.close format cur).out.WroteClosed := by
  unfold XmlWalk.close
  dsimp only
  split
  · exact h
  · rename_i hne
    split
    · exact h.emit _ _ (closed_trim hne) _
    · exact h.emit _ _ (closed_trim hne) _

theorem XmlWalk.wroteClosed_event {w : XmlWalk T γ} (h : w.out.WroteClosed) (e : XmlEvent) :
    Meets (w.event format e) (fun w' => w'.out.WroteClosed) fun _ => True := by
  have hdecoded : ∀ (x : Except LensError Str) (f : Str → XmlWalk T γ),
      (∀ t, (f t).out.WroteClosed) → Meets (x.map f) (fun w' => w'.out.WroteClosed)
        fun _ => True := by
    intro x f hf
    cases x with
    | ok t => exact hf t
    | error e => trivial
  cases e with
  | start tag =>
    simp only [XmlWalk.event]
    split
    · exact h
    · exact h
  | empty tag =>
    simp only [XmlWalk.event]
    split
    · exact h
    · split
      · exact h
      · exact h
  | text decoded =>
    simp only [XmlWalk.event]
    split
    · exact h
    · exact hdecoded _ _ fun _ => h
  | cdata decoded =>
    simp only [XmlWalk.event]
    split
    · exact h
    · exact hdecoded _ _ fun _ => h
  | generalRef raw resolved =>
    simp only [XmlWalk.event]
    split
    · exact h
    · exact hdecoded _ _ fun _ => h
  | stop =>
    simp only [XmlWalk.event]
    split
    · exact h
    · split
      · exact h
      · exact wroteClosed_close format h _
  | malformed e => trivial
  | other => exact h

theorem walkXmlBlocks_wroteClosed {out : ExtractOutput T} (h : out.WroteClosed)
    (events : List XmlEvent) (counters : γ) :
    Meets (walkXmlBlocks format events counters out) (fun w => w.out.WroteClosed)
      fun _ => True := by
  refine meets_foldlM (I := fun _ _ (w : XmlWalk T γ) => w.out.WroteClosed) events h ?_
  intro _ e _ w _ hw _
  exact XmlWalk.wroteClosed_event format hw e

end XmlBlocks

section Odt

/-- `str::parse` of an unsigned integer up to a bound. -/
def parseUnsigned (bound : Nat) (s : Str) : Option Nat :=
  let digits := if s.head? = some '+' then s.drop 1 else s
  if digits ≠ [] ∧ digits.all Char.isDigit then
    let n := digits.foldl (fun n c => 10 * n + (c.toNat - '0'.toNat)) 0
    if n ≤ bound then some n else none
  else none

def maxU8 : Nat := 2 ^ 8 - 1

def maxUsize : Nat := 2 ^ 64 - 1

/-- `n` spaces, where `n` is one unless the tag says otherwise, and 32 at most. -/
def textSSpaces (tag : XmlTag) : Str :=
  let n := match tag.attribute "text:c".toList with
    | none => 1
    | some value => (value.bind fun v => parseUnsigned maxUsize (trim v)).getD 1
  List.replicate (min n 32) ' '

def outlineLevel (tag : XmlTag) : Option Nat :=
  ((tag.attribute "text:outline-level".toList).bind fun value =>
    value.bind fun v => parseUnsigned maxU8 (trim v)).map fun n => max 1 (min n 6)

/-- The counters are those of the headings and of the paragraphs. -/
def odtFormat : XmlFormat T (Nat × Nat) where
  name := "ODT content.xml"
  classify tag :=
    if tag.name = "text:h".toList then some (.heading ((outlineLevel tag).getD 1))
    else if tag.name = "text:p".toList then some .paragraph
    else none
  inlineWhitespace tag :=
    if tag.name = "text:s".toList then some (textSSpaces tag)
    else if tag.name = "text:tab".toList then some ['\t']
    else if tag.name = "text:line-break".toList then some ['\n']
    else none
  makeAnchor isHeading counters :=
    if isHeading then (.odt (numbered "body/text:h" counters.1), (counters.1 + 1, counters.2))
    else (.odt (numbered "body/text:p" counters.2), (counters.1, counters.2 + 1))

def extractOdt (content : List XmlEvent) : Except LensError (ExtractOutput T) :=
  (walkXmlBlocks odtFormat content (0, 0) .empty).map fun w => w.out.trimmed

theorem extractOdt_sliceable {content : List XmlEvent} {out : ExtractOutput T}
    (h : extractOdt content = .ok out) : out.Sliceable := by
  unfold extractOdt at h
  cases hwalk : walkXmlBlocks (odtFormat (T := T)) content (0, 0) .empty with
  | error e =>
    rw [hwalk] at h
    cases h
  | ok w =>
    rw [hwalk] at h
    cases h
    exact ((walkXmlBlocks_wroteClosed odtFormat ExtractOutput.wroteClosed_empty content
      (0, 0)).value hwalk).trimmed

end Odt

section Epub

/-- An entry of the spine with the length of its XHTML and the events of it. -/
structure SpineEntry where
  position : Nat
  href : Str
  byteLength : Nat
  events : List XmlEvent

def MAX_DECOMPRESSED_BYTES : Nat := 256 * 1024 * 1024

def epubHeadingLevel (name : Str) : Option Nat :=
  match name with
  | ['h', '1'] => some 1
  | ['h', '2'] => some 2
  | ['h', '3'] => some 3
  | ['h', '4'] => some 4
  | ['h', '5'] => some 5
  | ['h', '6'] => some 6
  | _ => none

def epubFormat (spineIndex : Nat) (href : Str) : XmlFormat T Unit where
  name := "EPUB XHTML"
  classify tag :=
    match epubHeadingLevel tag.localName with
    | some level => some (.heading level)
    | none => if tag.localName = ['p'] then some .paragraph else none
  inlineWhitespace tag := if tag.localName = "br".toList then some ['\n'] else none
  makeAnchor _ counters := (.epub spineIndex href, counters)

def spineItem (out : ExtractOutput T) (item : Except String SpineEntry) :
    Except LensError (ExtractOutput T) :=
  match item with
  | .error e => .error (.parse ("EPUB spine entry read failed: " ++ e))
  | .ok entry =>
    if MAX_DECOMPRESSED_BYTES < entry.byteLength then
      .error (.validation ("EPUB spine entry decompresses to more than the " ++
        s!"{MAX_DECOMPRESSED_BYTES}-byte limit (possible decompression bomb)"))
    else do
      let w ← walkXmlBlocks (epubFormat entry.position entry.href) entry.events () out
      if MAX_DECOMPRESSED_BYTES < byteLen w.out.extractedText then
        .error (.validation (s!"EPUB extracted text exceeds the {MAX_DECOMPRESSED_BYTES}-byte " ++
          "limit (possible decompression bomb)"))
      else return w.out

def extractEpub (spine : List (Except String SpineEntry)) : Except LensError (ExtractOutput T) :=
  (spine.foldlM spineItem .empty).map ExtractOutput.trimmed

theorem spineItem_wroteClosed {out : ExtractOutput T} (h : out.WroteClosed)
    (item : Except String SpineEntry) :
    Meets (spineItem out item) ExtractOutput.WroteClosed fun _ => True := by
  unfold spineItem
  split
  · trivial
  · split
    · trivial
    · apply (walkXmlBlocks_wroteClosed _ h _ ()).bind
      intro w _ hw
      split
      · trivial
      · exact hw

theorem extractEpub_sliceable {spine : List (Except String SpineEntry)} {out : ExtractOutput T}
    (h : extractEpub spine = .ok out) : out.Sliceable := by
  have hall : Meets (spine.foldlM spineItem (.empty : ExtractOutput T)) ExtractOutput.WroteClosed
      fun _ => True := by
    refine meets_foldlM (I := fun _ _ => ExtractOutput.WroteClosed) spine
      ExtractOutput.wroteClosed_empty ?_
    intro _ item _ out _ hout _
    exact spineItem_wroteClosed hout item
  unfold extractEpub at h
  cases hfold : spine.foldlM spineItem (.empty : ExtractOutput T) with
  | error e =>
    rw [hfold] at h
    cases h
  | ok out' =>
    rw [hfold] at h
    cases h
    exact (hall.value hfold).trimmed

end Epub

section Rtf

def rtfLine (out : ExtractOutput T) (line : Str) : ExtractOutput T :=
  let text := trim line
  if text = [] then out else out.emit .paragraph [] text (.rtf (byteLen out.extractedText))

/-- The texts of the parser's style blocks. -/
def extractRtf (body : List Str) : ExtractOutput T :=
  ((body.flatten.splitOn '\n').foldl rtfLine .empty).trimmed

theorem extractRtf_sliceable (body : List Str) : (extractRtf body : ExtractOutput T).Sliceable := by
  have hall : ∀ (lines : List Str) (out : ExtractOutput T), out.WroteClosed →
      (lines.foldl rtfLine out).WroteClosed := by
    intro lines
    induction lines with
    | nil => exact fun out h => h
    | cons line lines ih =>
      intro out h
      apply ih
      unfold rtfLine
      dsimp only
      split
      · exact h
      · rename_i hne
        exact h.emit _ _ (closed_trim hne) _
  exact (hall _ _ ExtractOutput.wroteClosed_empty).trimmed

end Rtf

end LensLM
