import LensLM.ExtractRecords
import Mathlib.Data.List.Chain

/-!
# Streams of YAML documents

Documents are rendered one after the other, each with its lines, with or without a marker above and
below. The splitter returns the lines below the markers, and drops what stands on a marker line.
-/

namespace LensLM

open ByteText

set_option autoImplicit false

section Streams

/-- How a line ends; only the last one of a stream may end without a newline. -/
inductive LineEnd where
  | lf
  | crlf
  | missing
  deriving DecidableEq

def LineEnd.render : LineEnd → Str
  | .lf => ['\n']
  | .crlf => ['\r', '\n']
  | .missing => []

structure YamlLine where
  text : Str
  lineEnd : LineEnd

def YamlLine.render (l : YamlLine) : Str := l.text ++ l.lineEnd.render

/-- The line above a document: none, `---` or `--- content`. -/
inductive DocOpening where
  | none
  | marker (lineEnd : LineEnd)
  | inline (content : Str) (lineEnd : LineEnd)

def DocOpening.lines : DocOpening → List YamlLine
  | .none => []
  | .marker lineEnd => [⟨"---".toList, lineEnd⟩]
  | .inline content lineEnd => [⟨"--- ".toList ++ content, lineEnd⟩]

/-- What the opening says of the document's content. -/
def DocOpening.content : DocOpening → Str
  | .none | .marker _ => []
  | .inline content lineEnd => content ++ lineEnd.render

structure YamlDoc where
  opening : DocOpening
  body : List YamlLine
  /-- The end of a line `...` below the document. -/
  closing : Option LineEnd

namespace YamlDoc

def closingLines (d : YamlDoc) : List YamlLine := d.closing.toList.map (⟨"...".toList, ·⟩)

def lines (d : YamlDoc) : List YamlLine := d.opening.lines ++ d.body ++ d.closingLines

def bodyText (d : YamlDoc) : Str := d.body.flatMap YamlLine.render

def content (d : YamlDoc) : Str := d.opening.content ++ d.bodyText

/-- The content on the marker line is not blank, and no line of the body is a marker. -/
structure WellFormed (d : YamlDoc) : Prop where
  inlined : ∀ content lineEnd, d.opening = .inline content lineEnd → ¬ IsBlank content
  unmarked : ∀ l ∈ d.body, isDocMarker l.render = false

end YamlDoc

/-- Every line but the last ends in its newline, and there is no other. -/
def LinesOk : List YamlLine → Prop
  | [] => True
  | [l] => '\n' ∉ l.text ∧ l.render ≠ []
  | l :: ls => '\n' ∉ l.text ∧ l.lineEnd ≠ .missing ∧ LinesOk ls

def streamLines (docs : List YamlDoc) : List YamlLine := docs.flatMap YamlDoc.lines

def yamlStream (docs : List YamlDoc) : Str := (streamLines docs).flatMap YamlLine.render

/-- A marker stands between any two documents. -/
structure YamlRendering (docs : List YamlDoc) : Prop where
  wellFormed : ∀ d ∈ docs, d.WellFormed
  parted : docs.IsChain fun d e => d.closing ≠ none ∨ e.opening.lines ≠ []
  lines : LinesOk (streamLines docs)

end Streams

section Lines

theorem linesInclusive_newline {s : Str} (h : '\n' ∉ s) (t : Str) :
    linesInclusive (s ++ '\n' :: t) = (s ++ ['\n']) :: linesInclusive t := by
  induction s with
  | nil => rfl
  | cons c s ih =>
    obtain ⟨hc, hs⟩ := not_or.mp (mt List.mem_cons.mpr h)
    rw [List.cons_append, linesInclusive, if_neg (Ne.symm hc), ih hs]
    rfl

theorem linesInclusive_last {s : Str} (h : '\n' ∉ s) (hne : s ≠ []) : linesInclusive s = [s] := by
  induction s with
  | nil => exact absurd rfl hne
  | cons c s ih =>
    obtain ⟨hc, hs⟩ := not_or.mp (mt List.mem_cons.mpr h)
    rw [linesInclusive, if_neg (Ne.symm hc)]
    cases s with
    | nil => rfl
    | cons d s => rw [ih hs (List.cons_ne_nil d s)]

theorem linesInclusive_line {l : YamlLine} (h : '\n' ∉ l.text) (hend : l.lineEnd ≠ .missing)
    (t : Str) : linesInclusive (l.render ++ t) = l.render :: linesInclusive t := by
  obtain ⟨text, lineEnd⟩ := l
  cases lineEnd with
  | lf =>
    rw [YamlLine.render, LineEnd.render, List.append_assoc]
    exact linesInclusive_newline h t
  | crlf =>
    have hcr : '\n' ∉ text ++ ['\r'] := by
      rw [List.mem_append]
      exact fun hmem => hmem.elim h (by decide)
    have heq := linesInclusive_newline hcr t
    rw [List.append_assoc, List.append_assoc] at heq
    rw [YamlLine.render, LineEnd.render, List.append_assoc]
    exact heq
  | missing => exact absurd rfl hend

theorem linesInclusive_lines {ls : List YamlLine} (h : LinesOk ls) :
    linesInclusive (ls.flatMap YamlLine.render) = ls.map YamlLine.render := by
  induction ls with
  | nil => rfl
  | cons l ls ih =>
    rw [List.flatMap_cons, List.map_cons]
    cases ls with
    | nil =>
      by_cases hend : l.lineEnd = .missing
      · have hrender : l.render = l.text := by rw [YamlLine.render, hend]; exact List.append_nil _
        rw [List.flatMap_nil, List.append_nil, linesInclusive_last (by rw [hrender]; exact h.1) h.2]
        rfl
      · exact linesInclusive_line h.1 hend []
    | cons m ls => rw [linesInclusive_line h.1 h.2.1, ih h.2.2]

/-- A mark that does not end in what is stripped stays. -/
theorem stripLast_append {c : Char} {p : Str} (hp : p.getLast? ≠ some c) (s : Str) :
    stripLast c (p ++ s) = p ++ stripLast c s := by
  unfold stripLast
  cases s with
  | nil =>
    rw [List.append_nil, if_neg hp]
    exact (List.append_nil p).symm
  | cons d s =>
    rw [List.getLast?_append_of_ne_nil _ (List.cons_ne_nil d s)]
    split
    · rw [List.dropLast_append_of_ne_nil (List.cons_ne_nil d s)]
    · rfl

theorem isDocMarker_opening {o : DocOpening} : ∀ l ∈ o.lines, isDocMarker l.render = true := by
  intro l hl
  cases o with
  | none => cases hl
  | marker lineEnd =>
    cases List.mem_singleton.mp hl
    cases lineEnd <;> decide
  | inline content lineEnd =>
    cases List.mem_singleton.mp hl
    rw [isDocMarker, YamlLine.render, List.append_assoc, stripLast_append (by decide),
      stripLast_append (by decide)]
    simp only [List.isPrefixOf_iff_prefix.mpr (List.prefix_append _ _), Bool.or_true, Bool.true_or]

theorem isDocMarker_closing {d : YamlDoc} :
    ∀ l ∈ d.closingLines, isDocMarker l.render = true := by
  intro l hl
  obtain ⟨lineEnd, _, rfl⟩ := List.mem_map.mp hl
  cases lineEnd <;> decide

end Lines

section Splitting

def NonBlank (s : Str) : Bool := !decide (IsBlank s)

theorem SplitState.push_eq (st : SplitState) :
    st.push = st.docs ++ [st.slice].filter NonBlank := by
  unfold SplitState.push NonBlank
  simp only [trim_eq_nil_iff]
  by_cases h : IsBlank st.slice
  · simp [h]
  · simp [h]

theorem foldl_body {ls : List YamlLine} (h : ∀ l ∈ ls, isDocMarker l.render = false)
    (st : SplitState) : (ls.map YamlLine.render).foldl SplitState.line st =
      ⟨st.docs, st.slice ++ ls.flatMap YamlLine.render⟩ := by
  induction ls generalizing st with
  | nil => rw [List.flatMap_nil, List.append_nil]; rfl
  | cons l ls ih =>
    obtain ⟨hl, hls⟩ := List.forall_mem_cons.mp h
    have hline : st.line l.render = ⟨st.docs, st.slice ++ l.render⟩ := by
      rw [SplitState.line, hl]
      rfl
    rw [List.map_cons, List.foldl_cons, ih hls, hline, List.flatMap_cons, List.append_assoc]

/-- A marker, or none, closes what is open. -/
theorem foldl_markers {ls : List YamlLine} (h : ∀ l ∈ ls, isDocMarker l.render = true)
    (hone : ls.length ≤ 1) (st : SplitState) :
    (ls.map YamlLine.render).foldl SplitState.line st = if ls = [] then st else ⟨st.push, []⟩ := by
  match ls, hone with
  | [], _ => rfl
  | [l], _ =>
    rw [if_neg (List.cons_ne_nil _ _), List.map_singleton, List.foldl_cons, List.foldl_nil,
      SplitState.line, h l List.mem_cons_self]
    rfl

theorem DocOpening.length_lines (o : DocOpening) : o.lines.length ≤ 1 := by
  cases o <;> simp [DocOpening.lines]

theorem YamlDoc.length_closingLines (d : YamlDoc) : d.closingLines.length ≤ 1 := by
  rw [YamlDoc.closingLines, List.length_map]
  cases d.closing <;> simp

theorem YamlDoc.closingLines_ne_nil {d : YamlDoc} (h : d.closing ≠ none) :
    d.closingLines ≠ [] := by
  cases hc : d.closing with
  | none => exact absurd hc h
  | some lineEnd => simp [YamlDoc.closingLines, hc]

/-- A document that begins at a marker, or where nothing is open, adds what is below its marker. -/
theorem foldl_doc {d : YamlDoc} (hd : d.WellFormed) {st : SplitState}
    (h : st.slice = [] ∨ d.opening.lines ≠ []) :
    ((d.lines.map YamlLine.render).foldl SplitState.line st).push =
        st.push ++ [d.bodyText].filter NonBlank ∧
      (d.closing ≠ none → ((d.lines.map YamlLine.render).foldl SplitState.line st).slice = []) := by
  have hopen : (d.opening.lines.map YamlLine.render).foldl SplitState.line st = ⟨st.push, []⟩ := by
    rw [foldl_markers isDocMarker_opening d.opening.length_lines]
    split
    · rename_i hnone
      have hslice := h.resolve_right (not_not.mpr hnone)
      rw [st.push_eq, hslice]
      obtain ⟨docs, slice⟩ := st
      cases hslice
      simp [NonBlank]
    · rfl
  rw [YamlDoc.lines, List.map_append, List.map_append, List.foldl_append, List.foldl_append, hopen,
    foldl_body hd.unmarked, foldl_markers isDocMarker_closing d.length_closingLines]
  constructor
  · split
    · rw [SplitState.push_eq]
      rfl
    · rw [SplitState.push_eq, SplitState.push_eq]
      simp [NonBlank, YamlDoc.bodyText]
  · intro hclosed
    rw [if_neg (YamlDoc.closingLines_ne_nil hclosed)]

theorem streamLines_cons (d : YamlDoc) (docs : List YamlDoc) :
    streamLines (d :: docs) = d.lines ++ streamLines docs := List.flatMap_cons

theorem foldl_docs {docs : List YamlDoc} (hdocs : ∀ d ∈ docs, d.WellFormed)
    (hparted : docs.IsChain fun d e => d.closing ≠ none ∨ e.opening.lines ≠ []) {st : SplitState}
    (h : st.slice = [] ∨ ∀ d ∈ docs.head?, d.opening.lines ≠ []) :
    (((streamLines docs).map YamlLine.render).foldl SplitState.line st).push =
      st.push ++ (docs.map YamlDoc.bodyText).filter NonBlank := by
  induction docs generalizing st with
  | nil => exact (List.append_nil _).symm
  | cons d docs ih =>
    obtain ⟨hd, hdocs⟩ := List.forall_mem_cons.mp hdocs
    have hstep := foldl_doc hd (h.imp_right fun h => h d rfl)
    have hnext := (List.isChain_cons.mp hparted).2
    rw [streamLines_cons, List.map_append, List.foldl_append, ih hdocs hnext ?_, hstep.1,
      List.append_assoc, ← List.filter_append]
    · rfl
    · by_cases hclosed : d.closing = none
      · right
        intro e he
        exact ((List.isChain_cons.mp hparted).1 e he).resolve_left (not_not.mpr hclosed)
      · exact .inl (hstep.2 hclosed)

/-- The splitter returns what is below the markers. -/
theorem splitDocuments_stream {docs : List YamlDoc} (h : YamlRendering docs) :
    splitDocuments (yamlStream docs) = (docs.map YamlDoc.bodyText).filter NonBlank := by
  rw [splitDocuments, yamlStream, linesInclusive_lines h.lines,
    foldl_docs h.wellFormed h.parted (.inl rfl)]
  rfl

/-- The characters of a text that are not blank. -/
def marks (s : Str) : Nat := s.countP fun c => !isWhitespace c

theorem marks_eq_zero {s : Str} : marks s = 0 ↔ IsBlank s := by
  simp [marks, IsBlank, List.countP_eq_zero]

theorem sum_marks_filter (ss : List Str) :
    ((ss.filter NonBlank).map marks).sum = (ss.map marks).sum := by
  induction ss with
  | nil => rfl
  | cons s ss ih =>
    by_cases h : IsBlank s
    · simp [NonBlank, h, marks_eq_zero.mpr h, ← ih]
    · simp [NonBlank, h, ← ih]

/-- Counted over the documents, only the contents of the marker lines are missing. -/
theorem sum_marks_content (docs : List YamlDoc) :
    ((docs.map YamlDoc.content).map marks).sum =
      (docs.map fun d => marks d.opening.content).sum +
        ((docs.map YamlDoc.bodyText).map marks).sum := by
  induction docs with
  | nil => rfl
  | cons d docs ih =>
    have hd : marks d.content = marks d.opening.content + marks d.bodyText := List.countP_append
    simp only [List.map_cons, List.sum_cons, ih, hd]
    omega

theorem split_documents_exact {docs : List YamlDoc} (h : YamlRendering docs) :
    splitDocuments (yamlStream docs) = (docs.map YamlDoc.content).filter NonBlank ↔
      ∀ d ∈ docs, ∀ content lineEnd, d.opening ≠ .inline content lineEnd := by
  rw [splitDocuments_stream h]
  constructor
  · intro heq d hd content lineEnd hinline
    have hsum := congrArg (fun ss => (ss.map marks).sum) heq
    simp only [sum_marks_filter, sum_marks_content] at hsum
    have hzero : (docs.map fun d => marks d.opening.content).sum = 0 := by omega
    have hd0 := List.sum_eq_zero_iff_forall_eq_nat.mp hzero _ (List.mem_map_of_mem hd)
    have hblank := marks_eq_zero.mp hd0
    rw [hinline] at hblank
    apply (h.wellFormed d hd).inlined content lineEnd hinline
    exact fun c hc => hblank c (List.mem_append_left _ hc)
  · intro hnone
    have heq : docs.map YamlDoc.bodyText = docs.map YamlDoc.content := by
      apply List.map_congr_left
      intro d hd
      rw [YamlDoc.content]
      cases ho : d.opening with
      | none => rfl
      | marker lineEnd => rfl
      | inline content lineEnd => exact absurd ho (hnone d hd content lineEnd)
    rw [heq]

end Splitting

section Instances

/-- A stream `---`, `a: 1`, `...`, `b: 2`, with both line ends and without a last one. -/
def markedDocs : List YamlDoc :=
  [⟨.marker .lf, [⟨"a: 1".toList, .lf⟩], some .crlf⟩, ⟨.none, [⟨"b: 2".toList, .missing⟩], none⟩]

theorem markedDocs_rendering : YamlRendering markedDocs where
  wellFormed := by
    intro d hd
    simp only [markedDocs, List.mem_cons, List.not_mem_nil, or_false] at hd
    rcases hd with rfl | rfl
    · exact ⟨fun _ _ h => by (cases h), by decide⟩
    · exact ⟨fun _ _ h => by (cases h), by decide⟩
  parted := by simp [markedDocs]
  lines := by simp [LinesOk, streamLines, markedDocs, YamlDoc.lines, DocOpening.lines,
    YamlDoc.closingLines, YamlLine.render, LineEnd.render]

theorem split_marked_docs : splitDocuments (yamlStream markedDocs) =
    (markedDocs.map YamlDoc.content).filter NonBlank :=
  (split_documents_exact markedDocs_rendering).mpr (by
    intro d hd content lineEnd h
    simp only [markedDocs, List.mem_cons, List.not_mem_nil, or_false] at hd
    rcases hd with rfl | rfl
    · cases h
    · cases h)

/-- A stream `--- a: 1`, `--- b: 2`. -/
def inlineDocs : List YamlDoc :=
  [⟨.inline "a: 1".toList .lf, [], none⟩, ⟨.inline "b: 2".toList .lf, [], none⟩]

theorem inlineDocs_rendering : YamlRendering inlineDocs where
  wellFormed := by
    intro d hd
    simp only [inlineDocs, List.mem_cons, List.not_mem_nil, or_false] at hd
    rcases hd with rfl | rfl
    · exact ⟨fun _ _ h => by (cases h; decide), by decide⟩
    · exact ⟨fun _ _ h => by (cases h; decide), by decide⟩
  parted := by simp [inlineDocs, DocOpening.lines]
  lines := by simp [LinesOk, streamLines, inlineDocs, YamlDoc.lines, DocOpening.lines,
    YamlDoc.closingLines, YamlLine.render, LineEnd.render]

/-- Both documents are lost. -/
theorem inline_contents_lost : YamlRendering inlineDocs ∧
    splitDocuments (yamlStream inlineDocs) = [] ∧
    (inlineDocs.map YamlDoc.content).filter NonBlank =
      ["a: 1\n".toList, "b: 2\n".toList] := ⟨inlineDocs_rendering, by decide, by decide⟩

end Instances

end LensLM
