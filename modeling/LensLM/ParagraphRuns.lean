import LensLM.ExtractRecords
import LensLM.Lib.Runs
import LensLM.ParseText

/-!
# Paragraphs are runs of lines

The blocks of a plain text are its maximal runs of lines that are not blank, each of them trimmed.
-/

namespace LensLM

open ByteText Runs

set_option autoImplicit false

section Lines

def hasText (line : Str) : Bool := !(trim line).isEmpty

theorem linesInclusive_split {s : Str} (h : s ≠ []) :
    linesInclusive s = (splitLine s).1 :: linesInclusive (splitLine s).2 := by
  fun_induction splitLine s with
  | case1 => exact absurd rfl h
  | case2 s => rfl
  | case3 c s hc ih =>
    rw [linesInclusive, if_neg fun heq => hc heq]
    cases s with
    | nil => rfl
    | cons d s => rw [ih (List.cons_ne_nil d s)]

theorem flatten_linesInclusive (s : Str) : (linesInclusive s).flatten = s := by
  fun_induction linesInclusive s with
  | case1 => rfl
  | case2 s ih => rw [List.flatten_cons, ih, List.singleton_append]
  | case3 c s _ hnil ih =>
    rw [hnil] at ih
    rw [← ih]
    rfl
  | case4 c s _ l ls hcons ih =>
    rw [hcons] at ih
    rw [← ih]
    rfl

/-- The text of the lines in front of a rest. -/
theorem eq_flatten_append {s r : Str} {ls : List Str}
    (h : linesInclusive s = ls ++ linesInclusive r) : s = ls.flatten ++ r := by
  have hflat := congrArg List.flatten h
  rwa [List.flatten_append, flatten_linesInclusive, flatten_linesInclusive] at hflat

theorem skipBlankLines_lines (pos : Nat) (rest : Str) : ∃ blank,
    linesInclusive rest = blank ++ linesInclusive (skipBlankLines pos rest).2 ∧
      (∀ l ∈ blank, hasText l = false) ∧
      (skipBlankLines pos rest).1 = pos + byteLen blank.flatten := by
  fun_induction skipBlankLines pos rest with
  | case1 pos => exact ⟨[], rfl, List.forall_mem_nil _, rfl⟩
  | case2 pos rest hne hline ih =>
    obtain ⟨blank, hlines, hblank, hpos⟩ := ih
    refine ⟨(splitLine rest).1 :: blank, ?_, ?_, ?_⟩
    · rw [linesInclusive_split hne, hlines, List.cons_append]
    · intro l hl
      rcases List.mem_cons.mp hl with rfl | hl
      · simpa [hasText] using hline
      · exact hblank l hl
    · rw [hpos, List.flatten_cons, byteLen_append, Nat.add_assoc]
  | case3 pos rest => exact ⟨[], rfl, List.forall_mem_nil _, rfl⟩

theorem findParagraphEnd_lines (pos : Nat) (rest : Str) : ∃ para,
    linesInclusive rest = para ++ linesInclusive (findParagraphEnd pos rest).2 ∧
      (∀ l ∈ para, hasText l = true) ∧
      (∀ l ∈ (linesInclusive (findParagraphEnd pos rest).2).head?, hasText l = false) ∧
      (findParagraphEnd pos rest).1 = pos + byteLen para.flatten := by
  fun_induction findParagraphEnd pos rest with
  | case1 pos =>
    refine ⟨[], rfl, List.forall_mem_nil _, ?_, rfl⟩
    intro l hl
    cases hl
  | case2 pos rest hne hline =>
    refine ⟨[], rfl, List.forall_mem_nil _, ?_, rfl⟩
    intro l hl
    rw [linesInclusive_split hne] at hl
    cases hl
    simpa [hasText] using hline
  | case3 pos rest hne hline ih =>
    obtain ⟨para, hlines, hpara, hstop, hpos⟩ := ih
    refine ⟨(splitLine rest).1 :: para, ?_, ?_, hstop, ?_⟩
    · rw [linesInclusive_split hne, hlines, List.cons_append]
    · intro l hl
      rcases List.mem_cons.mp hl with rfl | hl
      · simpa [hasText] using hline
      · exact hpara l hl
    · rw [hpos, List.flatten_cons, byteLen_append, Nat.add_assoc]

end Lines

section Blocks

/-- The trimmed paragraph at a position. -/
def paragraphAt (pos : Nat) (text : Str) : Block :=
  let trimmed := SubStr.trim ⟨pos, text⟩
  ⟨.paragraph, [], trimmed.text, trimmed.offset, trimmed.offset + byteLen trimmed.text⟩

/-- The block is a maximal run of lines with text, of which the first one begins at `pos`. -/
def RunBlock (pos : Nat) (lines : List Str) (b : Block) : Prop :=
  ∃ before run after, IsRun hasText lines before run after ∧
    b = paragraphAt (pos + byteLen before.flatten) run.flatten

theorem runBlock_append_iff {blank para rest : List Str} {pos : Nat} {b : Block}
    (hblank : ∀ l ∈ blank, hasText l = false) (hne : para ≠ [])
    (hpara : ∀ l ∈ para, hasText l = true) (hrest : ∀ l ∈ rest.head?, hasText l = false) :
    RunBlock pos (blank ++ (para ++ rest)) b ↔
      b = paragraphAt (pos + byteLen blank.flatten) para.flatten ∨
        RunBlock (pos + byteLen blank.flatten + byteLen para.flatten) rest b := by
  have hsum : ∀ more : List Str, pos + byteLen (blank ++ (para ++ more)).flatten =
      pos + byteLen blank.flatten + byteLen para.flatten + byteLen more.flatten := by
    intro more
    simp only [List.flatten_append, byteLen_append]
    omega
  constructor
  · rintro ⟨before, run, after, h, rfl⟩
    obtain ⟨more, rfl, hmore⟩ := (isRun_blank_append_iff hblank).mp h
    rcases (isRun_append_iff hne hpara hrest).mp hmore with ⟨rfl, rfl, rfl⟩ | ⟨later, rfl, hlater⟩
    · left
      rw [List.append_nil]
    · right
      exact ⟨later, run, after, hlater, by rw [hsum]⟩
  · rintro (rfl | ⟨later, run, after, hlater, rfl⟩)
    · refine ⟨blank, para, rest, (isRun_blank_append_iff hblank).mpr ⟨[], by simp, ?_⟩, rfl⟩
      exact (isRun_append_iff hne hpara hrest).mpr (Or.inl ⟨rfl, rfl, rfl⟩)
    · refine ⟨blank ++ (para ++ later), run, after,
        (isRun_blank_append_iff hblank).mpr ⟨para ++ later, rfl, ?_⟩, by rw [hsum]⟩
      exact (isRun_append_iff hne hpara hrest).mpr (Or.inr ⟨later, rfl, hlater⟩)

theorem not_runBlock_blank {blank : List Str} {pos : Nat} {b : Block}
    (hblank : ∀ l ∈ blank, hasText l = false) : ¬ RunBlock pos blank b := by
  rintro ⟨before, run, after, h, -⟩
  rw [← List.append_nil blank] at h
  obtain ⟨more, -, hmore⟩ := (isRun_blank_append_iff hblank).mp h
  exact not_isRun_nil hmore

/-- Behind the skipped lines there is a run, unless the text ends. -/
theorem exists_paragraph {pos : Nat} {rest : Str} (hne : (skipBlankLines pos rest).2 ≠ []) :
    ∃ para, linesInclusive (skipBlankLines pos rest).2 = para ++ linesInclusive
        (findParagraphEnd (skipBlankLines pos rest).1 (skipBlankLines pos rest).2).2 ∧
      para ≠ [] ∧ (∀ l ∈ para, hasText l = true) ∧
      (∀ l ∈ (linesInclusive
        (findParagraphEnd (skipBlankLines pos rest).1 (skipBlankLines pos rest).2).2).head?,
          hasText l = false) ∧
      (findParagraphEnd (skipBlankLines pos rest).1 (skipBlankLines pos rest).2).1 =
        (skipBlankLines pos rest).1 + byteLen para.flatten := by
  obtain ⟨para, hlines, hpara, hstop, hpos⟩ :=
    findParagraphEnd_lines (skipBlankLines pos rest).1 (skipBlankLines pos rest).2
  refine ⟨para, hlines, ?_, hpara, hstop, hpos⟩
  rintro rfl
  rw [List.nil_append] at hlines
  rw [← hlines, linesInclusive_split hne] at hstop
  have hblank := hstop _ rfl
  rw [hasText, skipBlankLines_visible hne] at hblank
  cases hblank

theorem trim_flatten_ne_nil {para : List Str} (hne : para ≠ [])
    (h : ∀ l ∈ para, hasText l = true) : (trim para.flatten).isEmpty = false := by
  cases para with
  | nil => exact absurd rfl hne
  | cons line para =>
    have hline := h line List.mem_cons_self
    by_contra hempty
    have hblank := trim_eq_nil_iff.mp (List.isEmpty_iff.mp (Bool.eq_true_of_not_eq_false hempty))
    rw [List.flatten_cons, isBlank_append] at hblank
    rw [hasText, trim_eq_nil_iff.mpr hblank.1] at hline
    cases hline

theorem parseTextFrom_runs {src : Str} {pos : Nat} {rest : Str} (blocks : List Block)
    (hrest : RestAt src pos rest) : ∃ new, parseTextFrom src pos rest blocks = .ok (blocks ++ new) ∧
      ∀ b, b ∈ new ↔ RunBlock pos (linesInclusive rest) b := by
  induction hn : rest.length using Nat.strong_induction_on generalizing pos rest blocks with
  | _ n ih =>
    obtain ⟨blank, hblanks, hblank, hstart⟩ := skipBlankLines_lines pos rest
    have hend : (skipBlankLines pos rest).2 = [] → ∀ b, ¬ RunBlock pos (linesInclusive rest) b := by
      intro hnil b
      rw [hnil, show linesInclusive [] = [] from rfl, List.append_nil] at hblanks
      rw [hblanks]
      exact not_runBlock_blank hblank
    rw [parseTextFrom]
    split
    · next hnil =>
      refine ⟨[], by rw [List.append_nil], ?_⟩
      intro b
      rw [hnil]
      exact iff_of_false List.not_mem_nil (not_runBlock_blank (List.forall_mem_nil _))
    · split
      · next hnil =>
        refine ⟨[], by rw [List.append_nil], ?_⟩
        intro b
        exact iff_of_false List.not_mem_nil (hend hnil b)
      · next hne =>
        obtain ⟨para, hlines, hpara, htext, hstop, hpos⟩ := exists_paragraph hne
        have hat := hrest.advance (eq_flatten_append hblanks)
        rw [← hstart] at hat
        have hraw := hat.slice (eq_flatten_append hlines)
        have hafter := hat.advance (eq_flatten_append hlines)
        rw [← hpos] at hraw hafter
        have hlen := Nat.lt_of_lt_of_le
          (findParagraphEnd_length_lt (skipBlankLines pos rest).1 hne (skipBlankLines_visible hne))
          (skipBlankLines_length_le pos rest)
        simp only [sliceBytes_of_slice hraw]
        have hink :
            (SubStr.trim ⟨(skipBlankLines pos rest).1, para.flatten⟩).text.isEmpty = false :=
          trim_flatten_ne_nil hpara htext
        rw [hink, if_neg Bool.false_ne_true]
        obtain ⟨new, hok, hnew⟩ := ih _ (by omega)
          (blocks ++ [paragraphAt (skipBlankLines pos rest).1 para.flatten]) hafter rfl
        refine ⟨paragraphAt (skipBlankLines pos rest).1 para.flatten :: new, ?_, ?_⟩
        · apply hok.trans
          rw [List.append_assoc]
          rfl
        · intro b
          rw [List.mem_cons, hnew, hblanks, hlines, runBlock_append_iff hblank hpara htext hstop,
            hpos, hstart]

theorem place_flatten {ls : List Str} {p q : Str} {c : Char} (h : ls.flatten = p ++ c :: q) :
    ∃ l₁ line l₂ a d, ls = l₁ ++ line :: l₂ ∧ line = a ++ c :: d ∧ p = l₁.flatten ++ a := by
  induction ls generalizing p with
  | nil => simp at h
  | cons line ls ih =>
    rcases place_append h with ⟨d, hline, -⟩ | ⟨m, hls, hp⟩
    · exact ⟨[], line, ls, p, d, rfl, hline, rfl⟩
    · obtain ⟨l₁, next, l₂, a, d, rfl, hnext, rfl⟩ := ih hls
      refine ⟨line :: l₁, next, l₂, a, d, rfl, hnext, ?_⟩
      rw [hp, List.flatten_cons, List.append_assoc]

/-- A visible character is within the block of its run. -/
theorem exists_runBlock {src p q : Str} {c : Char} (h : src = p ++ c :: q)
    (hc : isWhitespace c = false) :
    ∃ b, RunBlock 0 (linesInclusive src) b ∧ b.span.Has (byteLen p) := by
  rw [← flatten_linesInclusive src] at h
  obtain ⟨l₁, line, l₂, a, d, hlines, hline, hp⟩ := place_flatten h
  have htext : hasText line = true := by
    by_contra hno
    have hempty : (trim line).isEmpty = true := by simpa [hasText] using hno
    have hwhite := trim_eq_nil_iff.mp (List.isEmpty_iff.mp hempty) c (by simp [hline])
    rw [hc] at hwhite
    cases hwhite
  obtain ⟨before, run, after, r₁, r₂, hrun, hsplit, hleft⟩ := exists_isRun hlines htext
  refine ⟨paragraphAt (byteLen before.flatten) run.flatten,
    ⟨before, run, after, hrun, by rw [Nat.zero_add]⟩, ?_⟩
  have hflat : run.flatten = (r₁.flatten ++ a) ++ c :: (d ++ r₂.flatten) := by
    simp [hsplit, hline]
  obtain ⟨m, r, htrim, hlead, -⟩ := place_trim hflat hc
  have hplace : byteLen p =
      byteLen before.flatten + byteLen (leadingBlank run.flatten) + byteLen m := by
    rw [hp, hleft, List.flatten_append, List.append_assoc, hlead]
    simp only [byteLen_append]
    omega
  have hsize := Char.utf8Size_pos c
  show byteLen before.flatten + byteLen (leadingBlank run.flatten) ≤ byteLen p ∧
    byteLen p < byteLen before.flatten + byteLen (leadingBlank run.flatten) +
      byteLen (trim run.flatten)
  rw [hplace, htrim, byteLen_append, byteLen_cons]
  omega

/-- The blocks of a text are its runs of lines with text, and a visible character is in exactly one
of them. -/
theorem parseText_runs (src : Str) : ∃ bs : BlockList src, parseText src = .ok bs.blocks ∧
    (∀ b, b ∈ bs.blocks ↔ RunBlock 0 (linesInclusive src) b) ∧
    ∀ p c q, src = p ++ c :: q → isWhitespace c = false →
      ∃! b, b ∈ bs.blocks ∧ b.span.Has (byteLen p) := by
  obtain ⟨bs, hok⟩ := parseText_blockList src
  obtain ⟨new, hnew, hruns⟩ := parseTextFrom_runs [] (⟨[], rfl, rfl⟩ : RestAt src 0 src)
  have hblocks : bs.blocks = new := by
    have heq := hok.symm.trans hnew
    exact Except.ok.inj heq
  rw [← hblocks] at hruns
  refine ⟨bs, hok, hruns, ?_⟩
  intro p c q hsrc hc
  obtain ⟨b, hb, hhas⟩ := exists_runBlock hsrc hc
  refine ⟨b, ⟨(hruns b).mpr hb, hhas⟩, ?_⟩
  intro b' ⟨hb', hhas'⟩
  have hsep : Spans.Separated (bs.blocks.map Block.span) := List.pairwise_map.mpr bs.disjoint
  exact hsep.unique hb' ((hruns b).mpr hb) hhas' hhas

end Blocks

end LensLM
