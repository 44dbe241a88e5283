import LensLM.Lib.Slots
import LensLM.MarkdownBlocks

/-!
# Plain text and the choice of the parser

Plain text is split at blank lines. Positions are carried along with the source text that
follows them.
-/

namespace LensLM

open ByteText Spans Outcome

set_option autoImplicit false

section Lines

/-- The first line with its line end, and what follows it. -/
def splitLine : Str → Str × Str
  | [] => ([], [])
  | '\n' :: s => (['\n'], s)
  | c :: s => (c :: (splitLine s).1, (splitLine s).2)

theorem splitLine_append (s : Str) : (splitLine s).1 ++ (splitLine s).2 = s := by
  fun_induction splitLine s with
  | case1 => rfl
  | case2 s => rfl
  | case3 c s _ ih => rw [List.cons_append, ih]

theorem splitLine_ne_nil {s : Str} (h : s ≠ []) : (splitLine s).1 ≠ [] := by
  fun_cases splitLine s with
  | case1 => exact absurd rfl h
  | case2 s => simp
  | case3 c s _ => simp

theorem splitLine_length_lt {s : Str} (h : s ≠ []) : (splitLine s).2.length < s.length := by
  have hlen := congrArg List.length (splitLine_append s)
  have hpos := List.length_pos_iff.mpr (splitLine_ne_nil h)
  rw [List.length_append] at hlen
  omega

def skipBlankLines (pos : Nat) (rest : Str) : Nat × Str :=
  if rest = [] then (pos, rest)
  else if (trim (splitLine rest).1).isEmpty then
    skipBlankLines (pos + byteLen (splitLine rest).1) (splitLine rest).2
  else (pos, rest)
termination_by rest.length
decreasing_by exact splitLine_length_lt ‹_›

def findParagraphEnd (pos : Nat) (rest : Str) : Nat × Str :=
  if rest = [] then (pos, rest)
  else if (trim (splitLine rest).1).isEmpty then (pos, rest)
  else findParagraphEnd (pos + byteLen (splitLine rest).1) (splitLine rest).2
termination_by rest.length
decreasing_by exact splitLine_length_lt ‹_›

/-- The text is the rest of the source from the position on. -/
def RestAt (src : Str) (pos : Nat) (rest : Str) : Prop := ∃ p, src = p ++ rest ∧ byteLen p = pos

theorem RestAt.advance {src rest line more : Str} {pos : Nat} (h : RestAt src pos rest)
    (hrest : rest = line ++ more) : RestAt src (pos + byteLen line) more := by
  obtain ⟨p, hsrc, rfl⟩ := h
  exact ⟨p ++ line, by simp [hsrc, hrest], byteLen_append p line⟩

theorem RestAt.slice {src rest line more : Str} {pos : Nat} (h : RestAt src pos rest)
    (hrest : rest = line ++ more) : slice src pos (pos + byteLen line) = some line := by
  obtain ⟨p, hsrc, rfl⟩ := h
  exact slice_eq_some.mpr ⟨p, more, by simp [hsrc, hrest], rfl, rfl⟩

theorem skipBlankLines_spec (pos : Nat) (rest : Str) :
    ∃ blank, rest = blank ++ (skipBlankLines pos rest).2 ∧
      (skipBlankLines pos rest).1 = pos + byteLen blank := by
  fun_induction skipBlankLines pos rest with
  | case1 => exact ⟨[], rfl, rfl⟩
  | case2 pos rest _ _ ih =>
    obtain ⟨blank, hrest, hpos⟩ := ih
    refine ⟨(splitLine rest).1 ++ blank, ?_, ?_⟩
    · rw [List.append_assoc, ← hrest, splitLine_append]
    · rw [hpos, byteLen_append, Nat.add_assoc]
  | case3 => exact ⟨[], rfl, rfl⟩

/-- What follows skipped blank lines starts with a visible line. -/
theorem skipBlankLines_visible {pos : Nat} {rest : Str} (h : (skipBlankLines pos rest).2 ≠ []) :
    (trim (splitLine (skipBlankLines pos rest).2).1).isEmpty = false := by
  fun_induction skipBlankLines pos rest with
  | case1 => exact absurd rfl h
  | case2 pos rest _ _ ih => exact ih h
  | case3 pos rest _ hline => simpa using hline

theorem findParagraphEnd_spec (pos : Nat) (rest : Str) :
    ∃ para, rest = para ++ (findParagraphEnd pos rest).2 ∧
      (findParagraphEnd pos rest).1 = pos + byteLen para := by
  fun_induction findParagraphEnd pos rest with
  | case1 => exact ⟨[], rfl, rfl⟩
  | case2 => exact ⟨[], rfl, rfl⟩
  | case3 pos rest _ _ ih =>
    obtain ⟨para, hrest, hpos⟩ := ih
    refine ⟨(splitLine rest).1 ++ para, ?_, ?_⟩
    · rw [List.append_assoc, ← hrest, splitLine_append]
    · rw [hpos, byteLen_append, Nat.add_assoc]

theorem findParagraphEnd_length_le (pos : Nat) (rest : Str) :
    (findParagraphEnd pos rest).2.length ≤ rest.length := by
  obtain ⟨para, hrest, _⟩ := findParagraphEnd_spec pos rest
  have := congrArg List.length hrest
  rw [List.length_append] at this
  omega

theorem skipBlankLines_length_le (pos : Nat) (rest : Str) :
    (skipBlankLines pos rest).2.length ≤ rest.length := by
  obtain ⟨blank, hrest, _⟩ := skipBlankLines_spec pos rest
  have := congrArg List.length hrest
  rw [List.length_append] at this
  omega

/-- A paragraph takes at least the visible line it starts with. -/
theorem findParagraphEnd_length_lt (pos : Nat) {rest : Str} (hne : rest ≠ [])
    (hline : (trim (splitLine rest).1).isEmpty = false) :
    (findParagraphEnd pos rest).2.length < rest.length := by
  rw [findParagraphEnd, if_neg hne, if_neg (by simp [hline])]
  exact Nat.lt_of_le_of_lt (findParagraphEnd_length_le _ _) (splitLine_length_lt hne)

end Lines

section Paragraphs

/-- The loop of `parse_text` from a position on. -/
def parseTextFrom (src : Str) (pos : Nat) (rest : Str) (blocks : List Block) :
    Except Fault (List Block) :=
  if rest = [] then .ok blocks
  else if (skipBlankLines pos rest).2 = [] then .ok blocks
  else
    let para := skipBlankLines pos rest
    let after := findParagraphEnd para.1 para.2
    match sliceBytes src para.1 after.1 with
    | .error e => .error e
    | .ok raw =>
      let trimmed := SubStr.trim ⟨para.1, raw⟩
      if trimmed.text.isEmpty then parseTextFrom src after.1 after.2 blocks
      else parseTextFrom src after.1 after.2 (blocks ++ [⟨.paragraph, [], trimmed.text,
        trimmed.offset, trimmed.offset + byteLen trimmed.text⟩])
termination_by rest.length
decreasing_by
  all_goals
    have hne : (skipBlankLines pos rest).2 ≠ [] := ‹_›
    exact Nat.lt_of_lt_of_le (findParagraphEnd_length_lt _ hne (skipBlankLines_visible hne))
      (skipBlankLines_length_le pos rest)

def parseText (src : Str) : Except Fault (List Block) := parseTextFrom src 0 src []

/-- Verbatim blocks in document order, all before the position. -/
structure BlocksBefore (src : Str) (blocks : List Block) (pos : Nat) : Prop where
  verbatim : ∀ b ∈ blocks, b.Verbatim src
  disjoint : blocks.Pairwise fun a b => a.charEnd ≤ b.charStart
  before : ∀ b ∈ blocks, b.charEnd ≤ pos

theorem BlocksBefore.concat {src : Str} {blocks : List Block} {pos pos' : Nat} {b : Block}
    (h : BlocksBefore src blocks pos) (hb : b.Verbatim src) (hlo : pos ≤ b.charStart)
    (hhi : b.charEnd ≤ pos') : BlocksBefore src (blocks ++ [b]) pos' := by
  have hend := hb.charEnd_eq
  refine ⟨?_, ?_, ?_⟩
  · exact Slots.forall_mem_push h.verbatim hb
  · apply List.pairwise_append.mpr
    refine ⟨h.disjoint, List.pairwise_singleton _ _, ?_⟩
    intro c hc d hd
    have := h.before c hc
    rw [List.mem_singleton.mp hd]
    omega
  · apply Slots.forall_mem_push
    · intro c hc
      have := h.before c hc
      omega
    · exact hhi

theorem parseTextFrom_blocks {src : Str} {pos : Nat} {rest : Str} {blocks : List Block}
    (hrest : RestAt src pos rest) (h : BlocksBefore src blocks pos) :
    ∃ all, parseTextFrom src pos rest blocks = .ok all ∧ ∃ n, BlocksBefore src all n := by
  induction hn : rest.length using Nat.strong_induction_on generalizing pos rest blocks with
  | _ n ih =>
    rw [parseTextFrom]
    split
    · exact ⟨blocks, rfl, pos, h⟩
    · split
      · exact ⟨blocks, rfl, pos, h⟩
      · rename_i hne
        obtain ⟨blank, hblank, hstart⟩ := skipBlankLines_spec pos rest
        have hpara := hrest.advance hblank
        rw [← hstart] at hpara
        obtain ⟨para, hsplit, hstop⟩ :=
          findParagraphEnd_spec (skipBlankLines pos rest).1 (skipBlankLines pos rest).2
        have hraw := hpara.slice hsplit
        have hafter := hpara.advance hsplit
        rw [← hstop] at hraw hafter
        have hlen := Nat.lt_of_lt_of_le
          (findParagraphEnd_length_lt (skipBlankLines pos rest).1 hne
            (skipBlankLines_visible hne))
          (skipBlankLines_length_le pos rest)
        have hin := SubStr.trim_in ⟨(skipBlankLines pos rest).1, para⟩
        have hsub := subslice_of_in hraw hin
        have hle : (SubStr.trim ⟨(skipBlankLines pos rest).1, para⟩).offset +
            byteLen (SubStr.trim ⟨(skipBlankLines pos rest).1, para⟩).text ≤
            (findParagraphEnd (skipBlankLines pos rest).1 (skipBlankLines pos rest).2).1 := by
          obtain ⟨p, q, htext, hoff⟩ := hin
          have := congrArg byteLen htext
          simp only [byteLen_append] at this hoff
          omega
        have hlo : pos ≤ (SubStr.trim ⟨(skipBlankLines pos rest).1, para⟩).offset := by
          show pos ≤ (skipBlankLines pos rest).1 + _
          omega
        simp only [sliceBytes_of_slice hraw]
        split
        · exact ih _ (by omega) hafter ⟨h.verbatim, h.disjoint, fun b hb =>
            Nat.le_trans (h.before b hb) (by omega)⟩ rfl
        · exact ih _ (by omega) hafter (h.concat hsub hlo hle) rfl

/-- The paragraphs of a text are a block list. -/
theorem parseText_blockList (src : Str) : ∃ bs : BlockList src, parseText src = .ok bs.blocks := by
  have hrest : RestAt src 0 src := ⟨[], rfl, rfl⟩
  have hnil : BlocksBefore src [] 0 := ⟨by simp, List.Pairwise.nil, by simp⟩
  obtain ⟨all, hok, n, h⟩ := parseTextFrom_blocks hrest hnil
  exact ⟨⟨all, h.verbatim, h.disjoint⟩, hok⟩

end Paragraphs

section Kinds

inductive SourceKind where
  | text
  | markdown
  | pdf
  | docx
  | url
  | json
  | jsonl
  | yaml
  | xml
  | rtf
  | odt
  | epub
  | xlsx
  | xls
  | csv
  | audio
  | file
deriving DecidableEq, Repr

/-- The external Markdown library: it reports the events of a well-nested tree. -/
structure MarkdownLibrary where
  parse : Str → Doc
  nested : ∀ src, (parse src).WellNested src 0 (byteLen src)

/-- `parse_blocks`: the kinds that have extractors of their own fall back to plain text. -/
def parseBlocks (lib : MarkdownLibrary) (src : Str) (kind : SourceKind) :
    Except Fault (List Block) :=
  match kind with
  | .markdown => parseMarkdown src (lib.parse src).events
  | _ => parseText src

/-- Markdown blocks form a block list where no node runs over other text. -/
theorem parseBlocks_blockList (lib : MarkdownLibrary) (src : Str) (kind : SourceKind)
    (h : kind = .markdown → (lib.parse src).Clear src) :
    ∃ bs : BlockList src, parseBlocks lib src kind = .ok bs.blocks := by
  cases kind with
  | markdown =>
    obtain ⟨blocks, hok, hverb, hspans⟩ := parseMarkdown_spans (lib.parse src) (lib.nested src)
    refine ⟨⟨blocks, hverb, ?_⟩, hok⟩
    have hsep := (scan_separated_iff (lib.nested src)).mpr (h rfl)
    rw [← hspans] at hsep
    exact List.pairwise_map.mp hsep
  | _ => exact parseText_blockList src

end Kinds

end LensLM
