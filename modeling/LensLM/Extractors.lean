import LensLM.ExtractPdf
import LensLM.ExtractRecords

/-!
# Sliceable output

The extractors that trim their buffer argue that the newline they trim lies in no block. That holds
of all but two: the texts of DOCX paragraphs, tables and PDF segments are kept as they are.
-/

namespace LensLM

open ByteText

set_option autoImplicit false

variable {T : Type}

/-- What the parser of each format hands to its extractor. -/
inductive ParsedDocument (T : Type) where
  | docx (children : List DocumentChild)
  | odt (content : List XmlEvent)
  | epub (spine : List (Except String SpineEntry))
  | rtf (body : List Str)
  | json (value : JsonValue)
  | jsonl (s : Str)
  | yaml (s : Str)
  | xml (root : XmlNode)
  | csv (records : List (List Str))
  | spreadsheet (sheets : List (Str × List (List Cell)))
  | pdf (doc : PdfDocument T)

def ParsedDocument.extract [Zero T] (lib : ValueLibrary) :
    ParsedDocument T → Except LensError (ExtractOutput T)
  | .docx children => .ok (extractDocx children)
  | .odt content => extractOdt content
  | .epub spine => extractEpub spine
  | .rtf body => .ok (extractRtf body)
  | .json value => .ok (extractJson lib value)
  | .jsonl s => .ok (extractJsonl lib s)
  | .yaml s => extractYaml lib s
  | .xml root => .ok (extractXml root)
  | .csv records => extractCsv records
  | .spreadsheet sheets => extractSpreadsheet sheets
  | .pdf doc => .ok (extractPdf doc)

/-- The last text of a DOCX or PDF document does not end in a newline. -/
def ParsedDocument.EndsPlain : ParsedDocument T → Prop
  | .docx children => ∀ t ∈ (docxTexts children).getLast?, t.getLast? ≠ some '\n'
  | .pdf doc => ∀ t ∈ (pdfTexts doc).getLast?, t.getLast? ≠ some '\n'
  | .odt _ | .epub _ | .rtf _ | .json _ | .jsonl _ | .yaml _ | .xml _ | .csv _ | .spreadsheet _ =>
    True

/-- The output of an extractor is sliceable exactly if the document ends plain. -/
theorem extract_sliceable_iff [Zero T] (lib : ValueLibrary) (d : ParsedDocument T)
    {out : ExtractOutput T} (h : d.extract lib = .ok out) : out.Sliceable ↔ d.EndsPlain := by
  cases d with
  | docx children =>
    cases h
    exact extractDocx_sliceable_iff children
  | odt content => exact iff_of_true (extractOdt_sliceable h) trivial
  | epub spine => exact iff_of_true (extractEpub_sliceable h) trivial
  | rtf body =>
    cases h
    exact iff_of_true (extractRtf_sliceable body) trivial
  | json value =>
    cases h
    exact iff_of_true (extractJson_sliceable lib value) trivial
  | jsonl s =>
    cases h
    exact iff_of_true (extractJsonl_sliceable lib s) trivial
  | yaml s => exact iff_of_true (extractYaml_sliceable lib h) trivial
  | xml root =>
    cases h
    exact iff_of_true (extractXml_sliceable root) trivial
  | csv records => exact iff_of_true (extractCsv_sliceable h) trivial
  | spreadsheet sheets => exact iff_of_true (extractSpreadsheet_sliceable h) trivial
  | pdf doc =>
    cases h
    exact extractPdf_sliceable_iff doc

section Examples

def plainValues : ValueLibrary := ⟨fun _ => "value".toList, fun _ => none, fun _ => .ok .null⟩

def textCell (t : String) : List TableCellContent :=
  [.paragraph ⟨none, [.run [.text t.toList]]⟩]

/-- A table whose last row is empty. -/
def hollowTable : ParsedDocument Nat := .docx [.table [[textCell "A"], [textCell ""]]]

def filledTable : ParsedDocument Nat := .docx [.table [[textCell "A"], [textCell "B"]]]

/-- Its text ends in the newline before the empty row, which the trim takes away. -/
theorem extract_hollowTable : ∃ out, hollowTable.extract plainValues = .ok out ∧
    ¬ out.Sliceable := by
  refine ⟨_, rfl, fun h => ?_⟩
  have hblock : (⟨.table, [], "A\n".toList, 0, 2⟩ : Block) ∈
      (extractDocx [.table [[textCell "A"], [textCell ""]]] : ExtractOutput Nat).blocks := by
    decide
  have hend := (h.verbatim _ hblock).2.1
  exact absurd hend (by decide)

/-- With a text in its last row the table is sliced. -/
theorem extract_filledTable : ∃ out, filledTable.extract plainValues = .ok out ∧
    out.Sliceable := by
  have hplain : filledTable.EndsPlain := by
    show ∀ t ∈ (docxTexts [.table [[textCell "A"], [textCell "B"]]]).getLast?,
      t.getLast? ≠ some '\n'
    decide
  exact ⟨_, rfl, (extract_sliceable_iff plainValues filledTable rfl).mpr hplain⟩

end Examples

end LensLM
