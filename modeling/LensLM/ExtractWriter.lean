import LensLM.Anchors
import LensLM.Lib.TextLayout
import Mathlib.Data.List.Flatten

/-!
# How extractors write

Every extractor appends the text of a block and a newline to its buffer, with the block and its
anchor. Some trim the newlines at the end of the buffer when all is written.
-/

namespace LensLM

open ByteText Spans LineWriter TextLayout Outcome

set_option autoImplicit false

variable {T : Type}

namespace ExtractOutput

def empty : ExtractOutput T := ⟨[], [], [], none⟩

/-- Appends a block and its anchor. -/
def emit (out : ExtractOutput T) (blockType : BlockType) (sectionPath text : Str)
    (anchor : SourceAnchor T) : ExtractOutput T :=
  let charStart := byteLen out.extractedText
  { out with
    extractedText := out.extractedText ++ text ++ ['\n']
    blocks := out.blocks ++ [⟨blockType, sectionPath, text, charStart, charStart + byteLen text⟩]
    anchors := out.anchors ++ [anchor] }

/-- `while extracted_text.ends_with('\n') { extracted_text.pop(); }` -/
def trimmed (out : ExtractOutput T) : ExtractOutput T :=
  { out with extractedText := trimNewlines out.extractedText }

/-- Every block is a slice of the text, the blocks are apart and ascend, and each has an anchor. -/
structure Sliceable (out : ExtractOutput T) : Prop where
  verbatim : ∀ b ∈ out.blocks, b.charStart ≤ b.charEnd ∧ b.charEnd ≤ byteLen out.extractedText ∧
    b.Verbatim out.extractedText
  increasing : out.blocks.Pairwise fun a b => a.charEnd < b.charStart
  anchored : out.anchors.length = out.blocks.length

/-- The blocks with these texts were emitted, and nothing else was written. -/
structure Wrote (out : ExtractOutput T) (ts : List Str) : Prop where
  text : out.extractedText = written ts
  texts : out.blocks.map Block.text = ts
  spans : out.blocks.map Block.span = spans 0 ts
  anchored : out.anchors.length = out.blocks.length

theorem wrote_empty : (empty : ExtractOutput T).Wrote [] := ⟨rfl, rfl, rfl, rfl⟩

variable {out : ExtractOutput T} {ts : List Str}

theorem Wrote.emit (h : out.Wrote ts) (blockType : BlockType) (sectionPath text : Str)
    (anchor : SourceAnchor T) :
    (out.emit blockType sectionPath text anchor).Wrote (ts ++ [text]) where
  text := by
    rw [written_concat, ← h.text]
    rfl
  texts := by
    show (out.blocks ++ _).map Block.text = _
    rw [List.map_append, h.texts]
    rfl
  spans := by
    show (out.blocks ++ _).map Block.span = _
    rw [List.map_append, h.spans, spans_concat, ← h.text]
    rfl
  anchored := by
    show (out.anchors ++ _).length = (out.blocks ++ _).length
    rw [List.length_append, List.length_append, h.anchored]
    rfl

theorem Wrote.tableMarkdown (h : out.Wrote ts) (tableMarkdown : Option Str) :
    ({ out with tableMarkdown } : ExtractOutput T).Wrote ts := ⟨h.text, h.texts, h.spans, h.anchored⟩

/-- Over any buffer, the blocks are slices exactly if their texts are. -/
theorem Wrote.slicedAs_iff (h : out.Wrote ts) (buf : Str) :
    SlicedAs buf (LineWriter.spans 0 ts) ts ↔ ∀ b ∈ out.blocks, b.Verbatim buf := by
  rw [← h.spans, ← h.texts]
  unfold SlicedAs
  rw [List.forall₂_map_left_iff, List.forall₂_map_right_iff, List.forall₂_same]
  rfl

theorem Wrote.sliceable_iff (h : out.Wrote ts) (buf : Str) :
    ({ out with extractedText := buf } : ExtractOutput T).Sliceable ↔
      SlicedAs buf (LineWriter.spans 0 ts) ts := by
  rw [h.slicedAs_iff]
  constructor
  · exact fun hs b hb => (hs.verbatim b hb).2.2
  · intro hverb
    refine ⟨fun b hb => ?_, ?_, h.anchored⟩
    · have hstop := (hverb b hb).charEnd_eq
      exact ⟨by omega, (slice_right_boundary (hverb b hb)).le, hverb b hb⟩
    · have hapart := spans_apart 0 ts
      rw [← h.spans] at hapart
      exact List.pairwise_map.mp hapart

theorem Wrote.sliceable (h : out.Wrote ts) : out.Sliceable := by
  apply (h.sliceable_iff out.extractedText).mpr
  rw [h.text]
  exact slicedAs_all ts

/-- What is trimmed is sliceable unless the last block ends in a newline. -/
theorem Wrote.trimmed_sliceable_iff (h : out.Wrote ts) (hne : ∀ t ∈ ts, t ≠ []) :
    out.trimmed.Sliceable ↔ ∀ t ∈ ts.getLast?, t.getLast? ≠ some '\n' := by
  unfold trimmed
  rw [h.sliceable_iff, h.text]
  exact slicedAs_trimmed_iff fun t ht => hne t (List.mem_of_getLast? ht)

/-- The texts that are not empty stand in the output in their order, each inside one block. -/
def KeepsTexts (out : ExtractOutput T) (texts : List Str) : Prop :=
  ∃ places, SlicedAs out.extractedText places (texts.filter (· ≠ [])) ∧ Separated places ∧
    ∀ p ∈ places, ∃! b, b ∈ out.blocks ∧ p.Within b.span

/-- Places in the lines of what was written lie in one block each. -/
theorem Wrote.one_block (h : out.Wrote ts) {p line : Span} (hp : p.start ≤ p.stop) (hline : line ∈ LineWriter.spans 0 ts)
    (hwithin : p.Within line) : ∃! b, b ∈ out.blocks ∧ p.Within b.span := by
  rw [← h.spans] at hline
  obtain ⟨b, hb, rfl⟩ := List.mem_map.mp hline
  refine ⟨b, ⟨hb, hwithin⟩, ?_⟩
  rintro b' ⟨hb', hwithin'⟩
  have hapart : out.blocks.Pairwise fun a b => a.charEnd < b.charStart ∨ b.charEnd < a.charStart := by
    have hspans := spans_apart 0 ts
    rw [← h.spans] at hspans
    exact (List.pairwise_map.mp hspans).imp .inl
  by_contra hne
  have : Std.Symm fun a b : Block => a.charEnd < b.charStart ∨ b.charEnd < a.charStart :=
    ⟨fun a b => Or.symm⟩
  have hor := hapart.forall hb hb' (Ne.symm hne)
  simp only [Span.Within, Block.span] at hwithin hwithin'
  omega

/-- What is laid out in the texts that were written is kept. -/
theorem Wrote.keepsTexts {isSep : Char → Prop} {tss : List (List Str)} (h : out.Wrote ts)
    (hlaid : List.Forall₂ (Laid isSep) tss ts) : out.KeepsTexts tss.flatten := by
  have hnonempty : List.Forall₂ (Laid isSep) (tss.map (List.filter (· ≠ []))) ts := by
    rw [List.forall₂_map_left_iff]
    exact hlaid.imp fun _ _ => Laid.nonempty
  obtain ⟨places, hsliced, hsep, _, hline⟩ := places_written hnonempty [] []
  rw [List.nil_append, List.append_nil, ← h.text, ← List.filter_flatten] at hsliced
  refine ⟨places, hsliced, hsep, ?_⟩
  intro p hp
  obtain ⟨line, hmem, hwithin⟩ := hline p hp
  obtain ⟨t, _, hslice⟩ := hsliced.slice_of_mem hp
  refine h.one_block ?_ hmem hwithin
  have := slice_stop hslice
  omega

end ExtractOutput

/-- A text that is not blank and does not end in white space. -/
def Closed (t : Str) : Prop := ∃ c ∈ t.getLast?, isWhitespace c = false

theorem Closed.ne_nil {t : Str} (h : Closed t) : t ≠ [] := by
  obtain ⟨c, hc, _⟩ := h
  intro ht
  rw [ht] at hc
  cases hc

theorem Closed.ne_newline {t : Str} (h : Closed t) : t.getLast? ≠ some '\n' := by
  obtain ⟨c, hc, hw⟩ := h
  intro hn
  rw [hn] at hc
  obtain rfl : '\n' = c := by simpa using hc
  exact absurd hw (by decide)

theorem closed_trimEnd {s : Str} (h : trimEnd s ≠ []) : Closed (trimEnd s) := by
  refine ⟨(trimEnd s).getLast h, List.getLast?_eq_some_getLast h, ?_⟩
  exact Bool.eq_false_of_not_eq_true (List.rdropWhile_last_not isWhitespace s h)

theorem closed_trim {s : Str} (h : trim s ≠ []) : Closed (trim s) := closed_trimEnd h

/-- Only closed texts were written. -/
def ExtractOutput.WroteClosed (out : ExtractOutput T) : Prop :=
  ∃ ts, out.Wrote ts ∧ ∀ t ∈ ts, Closed t

theorem ExtractOutput.wroteClosed_empty : (ExtractOutput.empty : ExtractOutput T).WroteClosed :=
  ⟨[], wrote_empty, nofun⟩

theorem ExtractOutput.WroteClosed.emit {out : ExtractOutput T} (h : out.WroteClosed)
    (blockType : BlockType) (sectionPath : Str) {text : Str} (htext : Closed text)
    (anchor : SourceAnchor T) : (out.emit blockType sectionPath text anchor).WroteClosed := by
  obtain ⟨ts, hwrote, hclosed⟩ := h
  refine ⟨ts ++ [text], hwrote.emit blockType sectionPath text anchor, ?_⟩
  exact Slots.forall_mem_push hclosed htext

theorem ExtractOutput.WroteClosed.trimmed {out : ExtractOutput T} (h : out.WroteClosed) :
    out.trimmed.Sliceable := by
  obtain ⟨ts, hwrote, hclosed⟩ := h
  apply (hwrote.trimmed_sliceable_iff fun t ht => (hclosed t ht).ne_nil).mpr
  exact fun t ht => (hclosed t (List.mem_of_getLast? ht)).ne_newline

end LensLM
