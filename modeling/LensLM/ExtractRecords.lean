import LensLM.ExtractMarkup
import Mathlib.Data.Char
import Mathlib.Data.List.Lex
import Mathlib.Data.List.Sort

/-!
# Extractors of records

The values of JSON, JSONL and YAML sources are walked in depth and every scalar becomes a line with
its path. XML elements become lines with their attributes, the rows of tables lines with their
headers. Nothing is trimmed.
-/

namespace LensLM

open ByteText LineWriter Outcome

set_option autoImplicit false

variable {T : Type}

/-- Some texts were written. -/
def ExtractOutput.WroteSome (out : ExtractOutput T) : Prop := ∃ ts, out.Wrote ts

theorem ExtractOutput.wroteSome_empty : (ExtractOutput.empty : ExtractOutput T).WroteSome :=
  ⟨[], wrote_empty⟩

theorem ExtractOutput.WroteSome.emit {out : ExtractOutput T} (h : out.WroteSome)
    (blockType : BlockType) (sectionPath text : Str) (anchor : SourceAnchor T) :
    (out.emit blockType sectionPath text anchor).WroteSome := by
  obtain ⟨ts, h⟩ := h
  exact ⟨ts ++ [text], h.emit blockType sectionPath text anchor⟩

theorem ExtractOutput.WroteSome.sliceable {out : ExtractOutput T} (h : out.WroteSome) :
    out.Sliceable := by
  obtain ⟨ts, h⟩ := h
  exact h.sliceable

/-- Steps that write keep what was written. -/
theorem ExtractOutput.WroteSome.foldl {ι : Type} {step : ExtractOutput T → ι → ExtractOutput T}
    {l : List ι} (hstep : ∀ out, ∀ x ∈ l, out.WroteSome → (step out x).WroteSome)
    {out : ExtractOutput T} (h : out.WroteSome) : (l.foldl step out).WroteSome := by
  induction l generalizing out with
  | nil => exact h
  | cons x l ih =>
    apply ih fun out y hy => hstep out y (List.mem_cons_of_mem x hy)
    exact hstep out x List.mem_cons_self h

section Json

inductive JsonValue where
  | null
  | bool (b : Bool)
  | number (text : Str)
  | string (s : Str)
  | array (items : List JsonValue)
  | object (entries : List (Str × JsonValue))

/-- The libraries that parse and render values. -/
structure ValueLibrary where
  display : JsonValue → Str
  parseJson : Str → Option JsonValue
  parseYaml : Str → Except String JsonValue

inductive PathSegment where
  | key (k : Str)
  | index (i : Nat)
  | record (i : Nat)

def PathSegment.sectionPart : PathSegment → Str
  | .key k => k
  | .index i => (toString i).toList
  | .record i => '[' :: (toString i).toList ++ [']']

def PathSegment.pathPart : PathSegment → Str
  | .key k => k
  | .index i | .record i => (toString i).toList

def MAX_NESTING_DEPTH : Nat := 64

def MAX_ARRAY_ELEMENTS : Nat := 10000

def MAX_COLLAPSED_BLOCK_BYTES : Nat := 8 * 1024

def sectionPathOf (segments : List PathSegment) : Str :=
  trailSeparator.intercalate (segments.map PathSegment.sectionPart)

def anchorPathOf (segments : List PathSegment) : Str :=
  segments.flatMap fun s => '/' :: s.pathPart

def emitLeaf (out : ExtractOutput T) (sectionPath anchorPath value : Str) : ExtractOutput T :=
  out.emit .paragraph sectionPath (anchorPath ++ ':' :: ' ' :: value) (.structured anchorPath)

/-- The longest part from the start that has at most so many bytes. -/
def takeBytes : Nat → Str → Str
  | _, [] => []
  | n, c :: s => if c.utf8Size ≤ n then c :: takeBytes (n - c.utf8Size) s else []

def truncateCollapsed (s : Str) : Str :=
  if byteLen s ≤ MAX_COLLAPSED_BLOCK_BYTES then s
  else takeBytes MAX_COLLAPSED_BLOCK_BYTES s ++ " …[truncated]".toList

variable (lib : ValueLibrary)

def scalarToString (v : JsonValue) : Str :=
  match v with
  | .string s => s
  | .null => "null".toList
  | .bool b => (toString b).toList
  | .number text => text
  | other => lib.display other

def sortedEntries (entries : List (Str × JsonValue)) : List (Str × JsonValue) :=
  entries.insertionSort fun a b => a.1 ≤ b.1

/-- Walks to as many levels as are left, and writes what is below in one line. -/
def walkValue : Nat → JsonValue → List PathSegment → ExtractOutput T → ExtractOutput T
  | 0, value, segments, out =>
    emitLeaf out (sectionPathOf segments) (anchorPathOf segments)
      (truncateCollapsed (lib.display value))
  | left + 1, value, segments, out =>
    match value with
    | .object entries => (sortedEntries entries).foldl (fun out x =>
        walkValue left x.2 (segments ++ [.key x.1]) out) out
    | .array items =>
      let n := items.length
      let out := (items.take MAX_ARRAY_ELEMENTS).zipIdx.foldl (fun out x =>
        walkValue left x.1 (segments ++ [.index x.2]) out) out
      if MAX_ARRAY_ELEMENTS < n then
        emitLeaf out (sectionPathOf segments) (anchorPathOf segments)
          ("[... ".toList ++ (toString (n - MAX_ARRAY_ELEMENTS)).toList ++
            " more elements truncated]".toList)
      else out
    | scalar =>
      emitLeaf out (sectionPathOf segments) (anchorPathOf segments) (scalarToString lib scalar)

/-- The walk of a whole value. -/
def walkAll (value : JsonValue) (segments : List PathSegment) (out : ExtractOutput T) :
    ExtractOutput T := walkValue lib (MAX_NESTING_DEPTH + 1) value segments out

theorem wroteSome_walkValue (left : Nat) (value : JsonValue) (segments : List PathSegment)
    {out : ExtractOutput T} (h : out.WroteSome) :
    (walkValue lib left value segments out).WroteSome := by
  induction left generalizing value segments out with
  | zero => exact h.emit _ _ _ _
  | succ left ih =>
    cases value with
    | object entries => exact h.foldl fun out x _ hout => ih x.2 _ hout
    | array items =>
      have hitems : ((items.take MAX_ARRAY_ELEMENTS).zipIdx.foldl (fun out x =>
          walkValue lib left x.1 (segments ++ [.index x.2]) out) out).WroteSome :=
        h.foldl fun out x _ hout => ih x.1 _ hout
      simp only [walkValue]
      split
      · exact hitems.emit _ _ _ _
      · exact hitems
    | null | bool | number | string => exact h.emit _ _ _ _

def extractJson (value : JsonValue) : ExtractOutput T := walkAll lib value [] .empty

theorem extractJson_sliceable (value : JsonValue) :
    (extractJson lib value : ExtractOutput T).Sliceable :=
  (wroteSome_walkValue lib _ value [] ExtractOutput.wroteSome_empty).sliceable

end Json

section Jsonl

variable (lib : ValueLibrary)

structure RecordState (T : Type) where
  out : ExtractOutput T
  recordIndex : Nat

def RecordState.line (st : RecordState T) (rawLine : Str) : RecordState T :=
  let line := rawLine.rdropWhile (· == '\r')
  if trim line = [] then st
  else
    match lib.parseJson line with
    | some value => ⟨walkAll lib value [.record st.recordIndex] st.out, st.recordIndex + 1⟩
    | none => st

/-- The text without its byte order mark. -/
def extractJsonl (s : Str) : ExtractOutput T :=
  ((s.splitOn '\n').foldl (RecordState.line lib) ⟨.empty, 0⟩).out

theorem RecordState.wroteSome_line {st : RecordState T} (h : st.out.WroteSome) (rawLine : Str) :
    (st.line lib rawLine).out.WroteSome := by
  unfold RecordState.line
  dsimp only
  split
  · exact h
  · split
    · exact wroteSome_walkValue lib _ _ _ h
    · exact h

theorem extractJsonl_sliceable (s : Str) : (extractJsonl lib s : ExtractOutput T).Sliceable := by
  have hall : ∀ (lines : List Str) (st : RecordState T), st.out.WroteSome →
      (lines.foldl (RecordState.line lib) st).out.WroteSome := by
    intro lines
    induction lines with
    | nil => exact fun st h => h
    | cons line lines ih => exact fun st h => ih _ (RecordState.wroteSome_line lib h line)
  exact (hall _ _ ExtractOutput.wroteSome_empty).sliceable

end Jsonl

section Yaml

variable (lib : ValueLibrary)

def MAX_YAML_DOCUMENTS : Nat := 1024

/-- The lines with their newlines. -/
def linesInclusive : Str → List Str
  | [] => []
  | c :: s =>
    if c = '\n' then [c] :: linesInclusive s
    else
      match linesInclusive s with
      | [] => [[c]]
      | l :: ls => (c :: l) :: ls

def stripLast (c : Char) (s : Str) : Str := if s.getLast? = some c then s.dropLast else s

/-- A line that starts or ends a document. -/
def isDocMarker (line : Str) : Bool :=
  let trimmedNl := stripLast '\r' (stripLast '\n' line)
  trimmedNl = "---".toList || "--- ".toList.isPrefixOf trimmedNl || trimmedNl = "...".toList ||
    "... ".toList.isPrefixOf trimmedNl

structure SplitState where
  docs : List Str
  slice : Str

def SplitState.push (st : SplitState) : List Str :=
  if trim st.slice = [] then st.docs else st.docs ++ [st.slice]

def SplitState.line (st : SplitState) (line : Str) : SplitState :=
  if isDocMarker line then ⟨st.push, []⟩ else { st with slice := st.slice ++ line }

def splitDocuments (s : Str) : List Str :=
  ((linesInclusive s).foldl SplitState.line ⟨[], []⟩).push

def yamlDocument (multiDoc : Bool) (out : ExtractOutput T) (x : Str × Nat) :
    Except LensError (ExtractOutput T) :=
  match lib.parseYaml x.1 with
  | .error e => .error (.parse ("invalid YAML: " ++ e))
  | .ok value => .ok (walkAll lib value (if multiDoc then [.record x.2] else []) out)

def extractYaml (s : Str) : Except LensError (ExtractOutput T) :=
  let docs := splitDocuments s
  let multiDoc : Bool := 1 < docs.length
  (docs.take MAX_YAML_DOCUMENTS).zipIdx.foldlM (yamlDocument lib multiDoc) .empty

theorem extractYaml_sliceable {s : Str} {out : ExtractOutput T} (h : extractYaml lib s = .ok out) :
    out.Sliceable := by
  have hall : Meets (extractYaml lib s) (ExtractOutput.WroteSome (T := T)) fun _ => True := by
    refine meets_foldlM (I := fun _ _ => ExtractOutput.WroteSome) _
      ExtractOutput.wroteSome_empty ?_
    intro _ x _ out _ hout _
    unfold yamlDocument
    split
    · trivial
    · exact wroteSome_walkValue lib _ _ _ hout
  exact (hall.value h).sliceable

end Yaml

section Xml

/-- An element has the prefix that its namespace is looked up to. -/
inductive XmlNode where
  | element (nsPrefix : Option Str) (tag : Str) (attributes : List (Str × Str))
      (children : List XmlNode)
  | text (t : Option Str)
  | other

def qualifiedName (nsPrefix : Option Str) (tag : Str) : Str :=
  match nsPrefix with
  | none | some [] => tag
  | some p => p ++ ':' :: tag

def XmlNode.directText : XmlNode → Str
  | .text t => t.getD []
  | .element _ _ _ _ | .other => []

def renderElement (attributes : List (Str × Str)) (children : List XmlNode) : Str :=
  let text := trim (children.flatMap XmlNode.directText)
  trimEnd (attributes.flatMap (fun a => '@' :: a.1 ++ '=' :: a.2 ++ [' ']) ++ text)

/-- Walks to as many levels as are left and skips what is below. -/
def walkElement : Nat → List Str → XmlNode → ExtractOutput T → ExtractOutput T
  | 0, _, _, out => out
  | left + 1, segments, node, out =>
    match node with
    | .element nsPrefix tag attributes children =>
      let segments := segments ++ [qualifiedName nsPrefix tag]
      let rendered := renderElement attributes children
      let out := if rendered = [] then out
        else out.emit .paragraph (trailSeparator.intercalate segments) rendered
          (.structured (segments.flatMap ('/' :: ·)))
      children.foldl (fun out child => walkElement left segments child out) out
    | .text _ | .other => out

def extractXml (root : XmlNode) : ExtractOutput T :=
  walkElement (MAX_NESTING_DEPTH + 1) [] root .empty

theorem wroteSome_walkElement (left : Nat) (segments : List Str) (node : XmlNode)
    {out : ExtractOutput T} (h : out.WroteSome) :
    (walkElement left segments node out).WroteSome := by
  induction left generalizing segments node out with
  | zero => exact h
  | succ left ih =>
    cases node with
    | element nsPrefix tag attributes children =>
      apply ExtractOutput.WroteSome.foldl
      · exact fun out child _ hout => ih _ child hout
      · split
        · exact h
        · exact h.emit _ _ _ _
    | text t => exact h
    | other => exact h

theorem extractXml_sliceable (root : XmlNode) : (extractXml root : ExtractOutput T).Sliceable :=
  (wroteSome_walkElement _ [] root ExtractOutput.wroteSome_empty).sliceable

end Xml

section Tabular

def MAX_COLUMNS : Nat := 16384

def normalizeHeaders (first : List Str) : List Str :=
  if first.all fun c => trim c = [] then
    (List.range first.length).map fun i => "Column ".toList ++ (toString (i + 1)).toList
  else first

def escapeChar (c : Char) : Str :=
  if c ∈ "\\|`".toList then ['\\', c]
  else if c = '\n' ∨ c = '\r' then [' ']
  else [c]

def escapeCell (s : Str) : Str := s.flatMap escapeChar

/-- A row of a grid with the given cells. -/
def markdownRow (cells : List Str) : Str :=
  "| ".toList ++ " | ".toList.intercalate cells ++ " |\n".toList

/-- As many cells as there are headers, missing ones empty. -/
def cellsOf (headers row : List Str) : List Str :=
  (List.range headers.length).map fun i => row.getD i []

def renderTableMarkdown (headers : List Str) (rows : List (List Str)) : Str :=
  if headers = [] then []
  else
    markdownRow (headers.map escapeCell) ++
      markdownRow (List.replicate headers.length "---".toList) ++
      rows.flatMap fun row => markdownRow ((cellsOf headers row).map escapeCell)

def verbalizeRow (headers row : List Str) : Str :=
  "; ".toList.intercalate ((headers.zip (cellsOf headers row)).map fun x => x.1 ++ ':' :: ' ' :: x.2)

def checkColumns (headers : List Str) : Except LensError Unit :=
  if MAX_COLUMNS < headers.length then
    .error (.validation (s!"tabular source has {headers.length} columns, exceeding the " ++
      s!"{MAX_COLUMNS}-column limit"))
  else .ok ()

/-- The rows below the headers, with the sheet's part of their anchors. -/
def emitRows (sectionPath anchorPath : Str) (headers : List Str) (dataRows : List (List Str))
    (out : ExtractOutput T) : ExtractOutput T :=
  dataRows.zipIdx.foldl (fun out x => out.emit .table sectionPath (verbalizeRow headers x.1)
    (.structured (anchorPath ++ numbered "/row" (x.2 + 1)))) out

theorem wroteSome_emitRows (sectionPath anchorPath : Str) (headers : List Str)
    (dataRows : List (List Str)) {out : ExtractOutput T} (h : out.WroteSome) :
    (emitRows sectionPath anchorPath headers dataRows out).WroteSome :=
  h.foldl fun _ _ _ hout => hout.emit _ _ _ _

theorem ExtractOutput.WroteSome.tableMarkdown {out : ExtractOutput T} (h : out.WroteSome)
    (tableMarkdown : Option Str) : ({ out with tableMarkdown } : ExtractOutput T).WroteSome := by
  obtain ⟨ts, h⟩ := h
  exact ⟨ts, h.tableMarkdown tableMarkdown⟩

def extractCsv (records : List (List Str)) : Except LensError (ExtractOutput T) :=
  match records with
  | [] => .ok .empty
  | first :: dataRows => do
    let headers := normalizeHeaders first
    checkColumns headers
    return { emitRows [] [] headers dataRows .empty with
      tableMarkdown := some (renderTableMarkdown headers dataRows) }

theorem extractCsv_sliceable {records : List (List Str)} {out : ExtractOutput T}
    (h : extractCsv records = .ok out) : out.Sliceable := by
  cases records with
  | nil =>
    cases h
    exact ExtractOutput.wroteSome_empty.sliceable
  | cons first dataRows =>
    obtain ⟨_, _, h⟩ := bind_eq_ok.mp h
    cases h
    exact ((wroteSome_emitRows _ _ _ _ ExtractOutput.wroteSome_empty).tableMarkdown _).sliceable

/-- A cell; a float, a date or an error is given by its text. -/
inductive Cell where
  | string (s : Str)
  | int (i : Int)
  | bool (b : Bool)
  | iso (s : Str)
  | rendered (s : Str)
  | empty

def cellToString : Cell → Str
  | .string s | .iso s | .rendered s => s
  | .int i => (toString i).toList
  | .bool b => (toString b).toList
  | .empty => []

def cellDataBytes : Cell → Nat
  | .string s => byteLen s
  | .int _ | .bool _ | .iso _ | .rendered _ | .empty => 8

structure WorkbookState (T : Type) where
  out : ExtractOutput T
  tableMarkdown : Str
  totalCellBytes : Nat

/-- The sum with the cells of a row, if it is within the limit. -/
def addCells (total : Nat) (row : List Cell) : Except LensError Nat :=
  let total := total + (row.map cellDataBytes).sum
  if MAX_DECOMPRESSED_BYTES < total then
    .error (.validation (s!"spreadsheet decompresses to >{MAX_DECOMPRESSED_BYTES} bytes of " ++
      "cell data (possible decompression bomb)"))
  else .ok total

def WorkbookState.sheet (st : WorkbookState T) (x : Str × List (List Cell)) :
    Except LensError (WorkbookState T) :=
  match x.2 with
  | [] => .ok st
  | headerRow :: rows => do
    let total ← addCells st.totalCellBytes headerRow
    let headers := normalizeHeaders (headerRow.map cellToString)
    checkColumns headers
    let total ← rows.foldlM addCells total
    let dataRows := rows.map (List.map cellToString)
    return {
      out := emitRows x.1 ('/' :: x.1) headers dataRows st.out
      tableMarkdown := st.tableMarkdown ++ "## ".toList ++ x.1 ++ "\n\n".toList ++
        renderTableMarkdown headers dataRows ++ ['\n']
      totalCellBytes := total }

/-- The sheets of a workbook by name. -/
def extractSpreadsheet (sheets : List (Str × List (List Cell))) :
    Except LensError (ExtractOutput T) := do
  let st ← sheets.foldlM WorkbookState.sheet ⟨.empty, [], 0⟩
  return { st.out with
    tableMarkdown := if st.tableMarkdown = [] then none else some st.tableMarkdown }

theorem WorkbookState.wroteSome_sheet {st : WorkbookState T} (h : st.out.WroteSome)
    (x : Str × List (List Cell)) :
    Meets (st.sheet x) (fun st' => st'.out.WroteSome) fun _ => True := by
  have htrue : ∀ {ι : Type} (y : Except LensError ι), Meets y (fun _ => True) fun _ => True := by
    intro ι y
    cases y <;> trivial
  unfold WorkbookState.sheet
  split
  · exact h
  · apply (htrue _).bind
    intro _ _ _
    apply (htrue _).bind
    intro _ _ _
    apply (htrue _).bind
    intro _ _ _
    exact wroteSome_emitRows _ _ _ _ h

theorem extractSpreadsheet_sliceable {sheets : List (Str × List (List Cell))}
    {out : ExtractOutput T} (h : extractSpreadsheet sheets = .ok out) : out.Sliceable := by
  have hall : Meets (sheets.foldlM WorkbookState.sheet (⟨.empty, [], 0⟩ : WorkbookState T))
      (fun st => st.out.WroteSome) fun _ => True := by
    refine meets_foldlM (I := fun _ _ (st : WorkbookState T) => st.out.WroteSome) sheets
      ExtractOutput.wroteSome_empty ?_
    intro _ x _ st _ hst _
    exact st.wroteSome_sheet hst x
  obtain ⟨st, hst, h⟩ := bind_eq_ok.mp h
  cases h
  exact ((hall.value hst).tableMarkdown _).sliceable

end Tabular

end LensLM
