import LensLM.ExtractPdf
import LensLM.Ingest

/-!
# The text layer of a PDF

A PDF without text is left for OCR, which its empty output calls for. The titles of the outline are
written to the same buffer, though, so an outline hides that there is no text.
-/

namespace LensLM

open ByteText LineWriter

set_option autoImplicit false

variable {T : Type}

/-- The texts of the segments of all pages. -/
def segmentTexts (doc : PdfDocument T) : List Str :=
  doc.pages.flatMap fun page => (page.getD []).map PdfSegment.text

/-- Some segment has a character that is not white space. -/
def HasTextLayer (doc : PdfDocument T) : Prop := ∃ t ∈ segmentTexts doc, ¬ IsBlank t

/-- Some title of the outline lies on a page of the document. -/
def HasTitledPage (doc : PdfDocument T) : Prop :=
  ∃ e ∈ outlineOf doc.bookmarks, e.page < doc.pages.length

/-- The last text ends in no newline, or it stands in the lines above it and what is left of it. -/
def LastTextKept (doc : PdfDocument T) : Prop :=
  ∀ above last, pdfTexts doc = above ++ [last] →
    last.getLast? ≠ some '\n' ∨ last <:+: written above ++ trimNewlines last

section Texts

/-- A text is written exactly if it is a segment's and not blank, or the title of a page. -/
theorem mem_pdfTexts {doc : PdfDocument T} {t : Str} : t ∈ pdfTexts doc ↔
    (t ∈ segmentTexts doc ∧ ¬ IsBlank t) ∨
      ∃ e ∈ outlineOf doc.bookmarks, e.page < doc.pages.length ∧ e.title = t := by
  have hpage : ∀ {page : Option (List (PdfSegment T))} {i : Nat},
      (page, i) ∈ doc.pages.zipIdx → page ∈ doc.pages ∧ i < doc.pages.length := by
    intro page i h
    have hat := List.mem_zipIdx_iff_getElem?.mp h
    exact ⟨List.mem_of_getElem? hat, (List.getElem?_eq_some_iff.mp hat).1⟩
  unfold pdfTexts segmentTexts pageTexts
  simp only [List.mem_flatMap, List.mem_append, List.mem_map, List.mem_filter, decide_eq_true_eq,
    ← trim_eq_nil_iff]
  constructor
  · rintro ⟨⟨page, i⟩, hmem, ⟨e, ⟨he, hi⟩, rfl⟩ | ⟨ht, hne⟩⟩
    · exact .inr ⟨e, he, hi ▸ (hpage hmem).2, rfl⟩
    · exact .inl ⟨⟨page, (hpage hmem).1, ht⟩, hne⟩
  · rintro (⟨⟨page, hmem, ht⟩, hne⟩ | ⟨e, he, hlt, rfl⟩)
    · obtain ⟨i, hi⟩ := List.mem_iff_getElem?.mp hmem
      exact ⟨(page, i), List.mem_zipIdx_iff_getElem?.mpr hi, .inr ⟨ht, hne⟩⟩
    · exact ⟨(doc.pages[e.page], e.page), List.mem_zipIdx_iff_getElem?.mpr
        (List.getElem?_eq_getElem hlt), .inl ⟨e, ⟨he, rfl⟩, rfl⟩⟩

/-- Nothing is written exactly if there is neither a text layer nor a titled page. -/
theorem pdfTexts_eq_nil_iff (doc : PdfDocument T) :
    pdfTexts doc = [] ↔ ¬ HasTextLayer doc ∧ ¬ HasTitledPage doc := by
  constructor
  · intro hnil
    constructor
    · rintro ⟨t, ht, hblank⟩
      have hmem := mem_pdfTexts.mpr (.inl ⟨ht, hblank⟩)
      rw [hnil] at hmem
      cases hmem
    · rintro ⟨e, he, hlt⟩
      have hmem := mem_pdfTexts.mpr (.inr ⟨e, he, hlt, rfl⟩)
      rw [hnil] at hmem
      cases hmem
  · rintro ⟨hlayer, htitle⟩
    apply List.eq_nil_iff_forall_not_mem.mpr
    intro t ht
    rcases mem_pdfTexts.mp ht with h | ⟨e, he, hlt, _⟩
    · exact hlayer ⟨t, h⟩
    · exact htitle ⟨e, he, hlt⟩

end Texts

section Trimmed

/-- The trim of the buffer reaches into the last text only. -/
theorem trimNewlines_written_concat (above : List Str) {last : Str} (hlast : ¬ IsBlank last) :
    trimNewlines (written (above ++ [last])) = written above ++ trimNewlines last := by
  rw [written_concat, trimNewlines_append]
  have hne : (last.reverse.dropWhile fun c => c == '\n').isEmpty = false := by
    apply Bool.eq_false_iff.mpr
    intro hempty
    apply hlast
    apply isBlank_of_trimNewlines
    unfold trimNewlines List.rdropWhile
    rw [List.isEmpty_iff.mp hempty]
    exact isBlank_nil
  unfold trimNewlines List.rdropWhile
  rw [List.reverse_append, List.dropWhile_append, hne, if_neg Bool.false_ne_true,
    List.reverse_append, List.reverse_reverse]

theorem infix_trimmed_last_iff (above : List Str) {last : Str} (hlast : ¬ IsBlank last) :
    last <:+: trimNewlines (written (above ++ [last])) ↔
      last.getLast? ≠ some '\n' ∨ last <:+: written above ++ trimNewlines last := by
  rw [trimNewlines_written_concat above hlast]
  constructor
  · exact .inr
  · rintro (hplain | h)
    · have hkeep : trimNewlines last = last := by
        apply List.rdropWhile_eq_self_iff.mpr
        intro hne hnl
        apply hplain
        rw [List.getLast?_eq_some_getLast hne, beq_iff_eq.mp hnl]
      rw [hkeep]
      exact (List.suffix_append _ _).isInfix
    · exact h

theorem infix_written {ts : List Str} {t : Str} (h : t ∈ ts) : t <:+: written ts := by
  obtain ⟨before, after, rfl⟩ := List.append_of_mem h
  rw [written_append]
  exact ⟨written before, '\n' :: written after, by simp [written]⟩

theorem infix_trimmed_above {above : List Str} {t last : Str} (ht : t ∈ above)
    (hlast : ¬ IsBlank last) : t <:+: trimNewlines (written (above ++ [last])) := by
  rw [trimNewlines_written_concat above hlast]
  exact (infix_written ht).trans (List.prefix_append _ _).isInfix

variable [Zero T]

theorem extractPdf_text_ne_nil {doc : PdfDocument T} (h : pdfTexts doc ≠ []) :
    (extractPdf doc).extractedText ≠ [] := by
  rcases extractPdf_cases doc with ⟨hnone, _⟩ | ⟨_, out, hwrote, hout⟩
  · exact absurd hnone h
  · obtain ⟨above, last, hts⟩ := (List.eq_nil_or_concat' (pdfTexts doc)).resolve_left h
    have hlast := @not_isBlank_of_mem_pdfTexts T doc last (by simp [hts])
    rw [hout, ExtractOutput.trimmed, hwrote.text, hts, trimNewlines_written_concat above hlast]
    intro hnil
    apply hlast
    apply isBlank_of_trimNewlines
    rw [(List.append_eq_nil_iff.mp hnil).2]
    exact isBlank_nil

end Trimmed

section Layer

variable [LinearOrder T] [Zero T]

/-- Ingest leaves a PDF with this output for OCR. -/
def RoutedToOcr (out : ExtractOutput T) : Prop :=
  ∀ (F : Type) (e : Surroundings F T) (source : Source) (raw : List UInt8), source.kind = .pdf →
    e.extract source.kind raw = .ok out →
    ingestExtracted e source raw = setTerminalPending source.id .needsOcr

/-- A PDF without text is left for OCR, any other one shows its text. -/
structure ShowsTextLayer (doc : PdfDocument T) : Prop where
  scanned : ¬ HasTextLayer doc → extractPdf doc = .empty ∧ RoutedToOcr (extractPdf doc)
  layered : ∀ t ∈ segmentTexts doc, ¬ IsBlank t →
    (extractPdf doc).extractedText ≠ [] ∧ t <:+: (extractPdf doc).extractedText

omit [Zero T] in
theorem routedToOcr_empty : RoutedToOcr (.empty : ExtractOutput T) := by
  intro F e source raw hkind hout
  unfold ingestExtracted
  rw [hout, hkind]
  rfl

/-- A PDF is treated by its text exactly if no title stands in for it and the trim of the buffer
spares the last text. -/
theorem showsTextLayer_iff (doc : PdfDocument T) :
    ShowsTextLayer doc ↔ (HasTitledPage doc → HasTextLayer doc) ∧ LastTextKept doc := by
  constructor
  · intro h
    constructor
    · intro htitle
      by_contra hlayer
      have hne : pdfTexts doc ≠ [] := fun hnil =>
        ((pdfTexts_eq_nil_iff doc).mp hnil).2 htitle
      apply extractPdf_text_ne_nil hne
      rw [(h.scanned hlayer).1]
      rfl
    · intro above last hts
      have hmem : last ∈ pdfTexts doc := by simp [hts]
      rcases mem_pdfTexts.mp hmem with ⟨hseg, hlast⟩ | ⟨e, he, _, rfl⟩
      · have hin := (h.layered last hseg hlast).2
        rcases extractPdf_cases doc with ⟨hnone, _⟩ | ⟨_, out, hwrote, hout⟩
        · rw [hnone] at hmem
          cases hmem
        · rw [hout, ExtractOutput.trimmed, hwrote.text, hts] at hin
          exact (infix_trimmed_last_iff above hlast).mp hin
      · exact .inl (closed_outlineOf _ e he).ne_newline
  · rintro ⟨htitle, hkept⟩
    constructor
    · intro hlayer
      have hnil := (pdfTexts_eq_nil_iff doc).mpr ⟨hlayer, fun h => hlayer (htitle h)⟩
      rcases extractPdf_cases doc with ⟨_, hout⟩ | ⟨hne, _⟩
      · rw [hout]
        exact ⟨rfl, routedToOcr_empty⟩
      · exact absurd hnil hne
    · intro t hseg hblank
      have hmem : t ∈ pdfTexts doc := mem_pdfTexts.mpr (.inl ⟨hseg, hblank⟩)
      have hne : pdfTexts doc ≠ [] := List.ne_nil_of_mem hmem
      refine ⟨extractPdf_text_ne_nil hne, ?_⟩
      rcases extractPdf_cases doc with ⟨hnone, _⟩ | ⟨_, out, hwrote, hout⟩
      · exact absurd hnone hne
      · obtain ⟨above, last, hts⟩ := (List.eq_nil_or_concat' (pdfTexts doc)).resolve_left hne
        have hlast := @not_isBlank_of_mem_pdfTexts T doc last (by simp [hts])
        rw [hout, ExtractOutput.trimmed, hwrote.text, hts]
        rw [hts] at hmem
        rcases List.mem_append.mp hmem with habove | heq
        · exact infix_trimmed_above habove hlast
        · rw [List.mem_singleton.mp heq]
          exact (infix_trimmed_last_iff above hlast).mpr (hkept above last hts)

end Layer

section Examples

/-- One scanned page, with a title in the outline. -/
def titledScan : PdfDocument Nat := ⟨[.mk (some "Cover".toList) (some 0) []], [some []]⟩

/-- Its title is all that is extracted, so it is not left for OCR. -/
theorem titledScan_hides : ¬ HasTextLayer titledScan ∧
    (extractPdf titledScan).extractedText = "Cover".toList ∧ ¬ ShowsTextLayer titledScan := by
  have hlayer : ¬ HasTextLayer titledScan := by
    rintro ⟨t, ht, _⟩
    cases ht
  have htext : (extractPdf titledScan).extractedText = "Cover".toList := by decide +kernel
  refine ⟨hlayer, htext, fun h => ?_⟩
  rw [(h.scanned hlayer).1] at htext
  cases htext

end Examples

end LensLM
