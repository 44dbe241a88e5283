import LensLM.ExtractMarkup
import LensLM.Lib.TextLayout

/-!
# The text runs of a DOCX document

Only the runs that are children of a paragraph themselves are read. Those of hyperlinks and
insertions are visible as well, but they are lost.
-/

namespace LensLM

open ByteText Spans LineWriter TextLayout

set_option autoImplicit false

section Runs

def RunChild.texts : RunChild → List Str
  | .text t => [t]
  | .other => []

def InsertChild.texts : InsertChild → List Str
  | .run children => children.flatMap RunChild.texts
  | .delete _ | .other => []

mutual

/-- The texts of the runs that are not inside a deletion. -/
def ParagraphChild.texts : ParagraphChild → List Str
  | .run children => children.flatMap RunChild.texts
  | .hyperlink children => textsOfChildren children
  | .insert children => children.flatMap InsertChild.texts
  | .delete _ | .other => []

def textsOfChildren : List ParagraphChild → List Str
  | [] => []
  | x :: xs => x.texts ++ textsOfChildren xs

end

def ParagraphChild.shownTexts : ParagraphChild → List Str
  | .run children => children.flatMap RunChild.texts
  | .hyperlink _ | .insert _ | .delete _ | .other => []

/-- The texts of the runs inside hyperlinks and insertions. -/
def ParagraphChild.hiddenTexts : ParagraphChild → List Str
  | .run _ => []
  | x => x.texts

def Paragraph.texts (p : Paragraph) : List Str := p.children.flatMap ParagraphChild.texts

def Paragraph.shownTexts (p : Paragraph) : List Str := p.children.flatMap ParagraphChild.shownTexts

def Paragraph.hiddenTexts (p : Paragraph) : List Str :=
  p.children.flatMap ParagraphChild.hiddenTexts

variable (f : Paragraph → List Str)

/-- The texts of the paragraphs in the cells, in tables nested to as many levels as are left. -/
def tableRuns : Nat → Table → List Str
  | 0, t => t.flatMap fun cells => cells.flatMap fun contents => contents.flatMap fun
    | .paragraph p => f p
    | .table _ | .other => []
  | left + 1, t => t.flatMap fun cells => cells.flatMap fun contents => contents.flatMap fun
    | .paragraph p => f p
    | .table nested => tableRuns left nested
    | .other => []

def DocumentChild.runs : DocumentChild → List Str
  | .paragraph p => f p
  | .table t => tableRuns f MAX_TABLE_DEPTH t
  | .other => []

def documentRuns (children : List DocumentChild) : List Str :=
  children.flatMap (DocumentChild.runs f)

end Runs

/-- The last text, or at least the last run, does not end in a newline. -/
def LastRunKept (children : List DocumentChild) : Prop :=
  (∀ t ∈ (docxTexts children).getLast?, t.getLast? ≠ some '\n') ∨
    ∀ t ∈ ((documentRuns Paragraph.texts children).filter (· ≠ [])).getLast?,
      t.getLast? ≠ some '\n'

/-- What separates the cells and paragraphs of a table. -/
def IsSeparator (c : Char) : Prop := c = ' ' ∨ c = '\n'

section Layout

theorem laid_paraText (p : Paragraph) : Laid IsSeparator p.shownTexts (paraText p) := by
  apply laid_flatMap
  intro x _
  cases x with
  | run children =>
    apply laid_flatMap
    intro c _
    cases c with
    | text t => exact laid_singleton t
    | other => exact laid_empty
  | hyperlink _ => exact laid_empty
  | insert _ => exact laid_empty
  | delete _ => exact laid_empty
  | other => exact laid_empty

variable {contentText : TableCellContent → Option Str} {runs : TableCellContent → List Str}

/-- A buffer that takes the runs of one content after the other. -/
theorem laid_foldl {take : Str → TableCellContent → Str}
    (htake : ∀ ts buf c, Laid IsSeparator ts buf → Laid IsSeparator (ts ++ runs c) (take buf c))
    (contents : List TableCellContent) {ts : List Str} {buf : Str}
    (hbuf : Laid IsSeparator ts buf) :
    Laid IsSeparator (ts ++ contents.flatMap runs) (contents.foldl take buf) := by
  induction contents generalizing ts buf with
  | nil => simpa using hbuf
  | cons c contents ih =>
    rw [List.flatMap_cons, ← List.append_assoc, List.foldl_cons]
    exact ih (htake ts buf c hbuf)

theorem laid_cellText (h : ∀ c, Laid IsSeparator (runs c) ((contentText c).getD []))
    (contents : List TableCellContent) :
    Laid IsSeparator (contents.flatMap runs) (cellText contentText contents) := by
  rw [← List.nil_append (contents.flatMap runs)]
  unfold cellText
  apply laid_foldl _ _ laid_empty
  intro ts buf c hbuf
  have hc := h c
  split
  · rename_i hnone
    rw [hnone] at hc
    simpa using hbuf.append hc
  · rename_i hnil
    rw [hnil] at hc
    simpa using hbuf.append hc
  · rename_i t ht
    rw [ht] at hc
    split
    · rename_i hempty
      rw [hempty] at hbuf
      simpa using hbuf.append hc
    · have hspace : ∀ d ∈ [' '], IsSeparator d := fun d hd => .inl (List.mem_singleton.mp hd)
      simpa using hbuf.append (hc.separate hspace)

theorem laid_tableTextWith (h : ∀ c, Laid IsSeparator (runs c) ((contentText c).getD []))
    (t : Table) : Laid IsSeparator (t.flatMap fun cells => cells.flatMap fun contents =>
      contents.flatMap runs) (tableTextWith contentText t) := by
  apply laid_intercalate
  · exact fun c hc => .inr (List.mem_singleton.mp hc)
  · intro cells _
    apply laid_intercalate
    · intro c hc
      left
      simpa using hc
    · exact fun contents _ => laid_cellText h contents

theorem laid_tableTextDepth (left : Nat) (t : Table) :
    Laid IsSeparator (tableRuns Paragraph.shownTexts left t) (tableTextDepth left t) := by
  induction left generalizing t with
  | zero =>
    apply laid_tableTextWith
    intro c
    cases c with
    | paragraph p => exact laid_paraText p
    | table _ => exact laid_empty
    | other => exact laid_empty
  | succ left ih =>
    apply laid_tableTextWith
    intro c
    cases c with
    | paragraph p => exact laid_paraText p
    | table nested => exact ih nested
    | other => exact laid_empty

theorem laid_child (x : DocumentChild) :
    Laid IsSeparator (x.runs Paragraph.shownTexts) x.text := by
  cases x with
  | paragraph p => exact laid_paraText p
  | table t => exact laid_tableTextDepth MAX_TABLE_DEPTH t
  | other => exact laid_empty

/-- Every text that is written is laid out from the runs of its child. -/
theorem laid_docxTexts (children : List DocumentChild) :
    ∃ tss, List.Forall₂ (Laid IsSeparator) tss (docxTexts children) ∧
      tss.flatten = (documentRuns Paragraph.shownTexts children).filter (· ≠ []) :=
  laid_nonempty children fun x _ => laid_child x

end Layout

section Hidden

theorem merged_paragraph (p : Paragraph) : Merged p.shownTexts p.hiddenTexts p.texts := by
  apply merged_flatMap
  intro x _
  cases x with
  | run children => exact merged_left _
  | hyperlink children => exact merged_right _
  | insert children => exact merged_right _
  | delete _ => exact .nil
  | other => exact .nil

theorem merged_tableRuns (left : Nat) (t : Table) :
    Merged (tableRuns Paragraph.shownTexts left t) (tableRuns Paragraph.hiddenTexts left t)
      (tableRuns Paragraph.texts left t) := by
  induction left generalizing t with
  | zero =>
    apply merged_flatMap
    intro cells _
    apply merged_flatMap
    intro contents _
    apply merged_flatMap
    intro c _
    cases c with
    | paragraph p => exact merged_paragraph p
    | table _ => exact .nil
    | other => exact .nil
  | succ left ih =>
    apply merged_flatMap
    intro cells _
    apply merged_flatMap
    intro contents _
    apply merged_flatMap
    intro c _
    cases c with
    | paragraph p => exact merged_paragraph p
    | table nested => exact ih nested
    | other => exact .nil

/-- The runs of a document are those that are shown and those that are hidden. -/
theorem merged_documentRuns (children : List DocumentChild) :
    Merged (documentRuns Paragraph.shownTexts children)
      (documentRuns Paragraph.hiddenTexts children) (documentRuns Paragraph.texts children) := by
  apply merged_flatMap
  intro x _
  cases x with
  | paragraph p => exact merged_paragraph p
  | table t => exact merged_tableRuns MAX_TABLE_DEPTH t
  | other => exact .nil

end Hidden

section Kept

variable {T : Type}

theorem wrote_extractDocx (children : List DocumentChild) :
    ∃ out : ExtractOutput T, out.Wrote (docxTexts children) ∧
      extractDocx children = out.trimmed := by
  have h := DocxState.wrote_foldl (.start : DocxState T) ExtractOutput.wrote_empty children
  rw [List.nil_append] at h
  exact ⟨_, h, rfl⟩

/-- With no run hidden and the last one kept by the trim, no text is lost. -/
theorem keepsTexts_of_shown (children : List DocumentChild)
    (hhidden : ∀ t ∈ documentRuns Paragraph.hiddenTexts children, t = [])
    (hlast : LastRunKept children) :
    (extractDocx children : ExtractOutput T).KeepsTexts (documentRuns Paragraph.texts children) := by
  have hruns : (documentRuns Paragraph.texts children).filter (· ≠ []) =
      (documentRuns Paragraph.shownTexts children).filter (· ≠ []) :=
    (merged_documentRuns children).filter_eq fun t ht => by simp [hhidden t ht]
  obtain ⟨out, hwrote, hout⟩ := wrote_extractDocx (T := T) children
  obtain ⟨tss, htss, hflat⟩ := laid_docxTexts children
  obtain ⟨places, hsliced, hsep, _, hline⟩ := places_written htss [] []
  rw [hflat, ← hruns, List.nil_append, List.append_nil] at hsliced
  have hbound : ∀ p ∈ places, p.stop ≤ byteLen (trimNewlines (written (docxTexts children))) := by
    rcases hlast with hplain | hplain
    · have hne : ∀ t ∈ (docxTexts children).getLast?, t ≠ [] := fun t ht => by
        simpa using (List.mem_filter.mp (List.mem_of_getLast? ht)).2
      intro p hp
      obtain ⟨line, hmem, hwithin⟩ := hline p hp
      obtain ⟨t, _, hslice⟩ := ((slicedAs_trimmed_iff hne).mpr hplain).slice_of_mem hmem
      exact hwithin.2.trans (slice_right_boundary hslice).le
    · apply stop_le_of_places hsliced hsep
      intro t ht a b hslice
      have hne : t ≠ [] := by
        simpa using (List.mem_filter.mp (List.mem_of_getLast? ht)).2
      exact (slice_right_boundary (slice_trimNewlines hslice hne (hplain t ht))).le
  have hprefix := List.rdropWhile_prefix (fun c => c == '\n') (written (docxTexts children))
  rw [hout]
  refine ⟨places, ?_, hsep, ?_⟩
  · rw [ExtractOutput.trimmed, hwrote.text]
    have hall : ∀ {ps : List Span} {ts : List Str}, SlicedAs (written (docxTexts children)) ps ts →
        (∀ p ∈ ps, p.stop ≤ byteLen (trimNewlines (written (docxTexts children)))) →
        SlicedAs (trimNewlines (written (docxTexts children))) ps ts := by
      intro ps ts hps hle
      induction hps with
      | nil => exact List.Forall₂.nil
      | @cons p t ps ts hslice _ ih =>
        refine List.Forall₂.cons ?_ (ih fun q hq => hle q (List.mem_cons_of_mem p hq))
        exact slice_prefix hslice hprefix (hle p List.mem_cons_self)
    exact hall hsliced hbound
  · intro p hp
    obtain ⟨line, hline, hwithin⟩ := hline p hp
    obtain ⟨t, _, hslice⟩ := hsliced.slice_of_mem hp
    refine hwrote.one_block ?_ hline hwithin
    have := slice_stop hslice
    omega

/-- If no text is lost, hidden runs are at most what separates cells. -/
theorem separator_of_keepsTexts (children : List DocumentChild)
    (h : (extractDocx children : ExtractOutput T).KeepsTexts
      (documentRuns Paragraph.texts children)) :
    ∀ t ∈ documentRuns Paragraph.hiddenTexts children, ∀ c ∈ t, IsSeparator c := by
  intro t ht c hc
  by_contra hsep
  obtain ⟨places, hsliced, hplaces, _⟩ := h
  obtain ⟨out, hwrote, hout⟩ := wrote_extractDocx (T := T) children
  obtain ⟨tss, htss, hflat⟩ := laid_docxTexts children
  have hkept : (documentRuns Paragraph.texts children).flatten.count c ≤
      (documentRuns Paragraph.shownTexts children).flatten.count c := by
    calc (documentRuns Paragraph.texts children).flatten.count c
        ≤ (extractDocx children : ExtractOutput T).extractedText.count c := by
          have hle := count_le_of_places hsliced hplaces c
          rwa [List.flatten_filter_ne_nil] at hle
      _ ≤ (written (docxTexts children)).count c := by
          rw [hout, ExtractOutput.trimmed, hwrote.text]
          exact (List.rdropWhile_prefix _ _).sublist.count_le c
      _ = (documentRuns Paragraph.shownTexts children).flatten.count c := by
          rw [count_written _ fun hn => hsep (.inr hn), count_flatten_of_laid htss hsep, hflat,
            List.flatten_filter_ne_nil]
  rw [(merged_documentRuns children).count_flatten] at hkept
  have hpos : 0 < (documentRuns Paragraph.hiddenTexts children).flatten.count c :=
    List.count_pos_iff.mpr (List.mem_flatten.mpr ⟨t, ht, hc⟩)
  omega

/-- No text is lost if no run is hidden and the trim spares the last one; and none is lost only if
the hidden ones are no more than what separates cells. -/
theorem docx_keeps_runs (children : List DocumentChild) :
    ((∀ t ∈ documentRuns Paragraph.hiddenTexts children, t = []) ∧ LastRunKept children →
        (extractDocx children : ExtractOutput T).KeepsTexts
          (documentRuns Paragraph.texts children)) ∧
      ((extractDocx children : ExtractOutput T).KeepsTexts (documentRuns Paragraph.texts children) →
        ∀ t ∈ documentRuns Paragraph.hiddenTexts children, ∀ c ∈ t, IsSeparator c) :=
  ⟨fun h => keepsTexts_of_shown children h.1 h.2, separator_of_keepsTexts children⟩

/-- A paragraph with the text of a hyperlink in it. -/
def linkedParagraph : List DocumentChild :=
  [.paragraph ⟨none, [.run [.text "See ".toList], .hyperlink [.run [.text "page".toList]]]⟩]

theorem linkedParagraph_loses : documentRuns Paragraph.texts linkedParagraph =
      ["See ".toList, "page".toList] ∧
    (extractDocx linkedParagraph : ExtractOutput Nat).extractedText = "See ".toList ∧
    ¬ (extractDocx linkedParagraph : ExtractOutput Nat).KeepsTexts
      (documentRuns Paragraph.texts linkedParagraph) := by
  refine ⟨by decide, by decide, ?_⟩
  rintro ⟨places, hsliced, hsep, _⟩
  have hle := count_le_of_places hsliced hsep 'p'
  revert hle
  decide

end Kept

end LensLM
