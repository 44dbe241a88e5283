import LensLM.MarkdownBlocks

/-!
# The texts of a Markdown document

Which text and code ranges of an event tree show in a block: those inside paragraphs, code
blocks, HTML blocks and tables, those of a list item before its first clamping child, and those
of a heading's title.
-/

namespace LensLM

open ByteText Spans Outcome

set_option autoImplicit false

section Titles

/-- The `#` at this place opens the heading, or closes it behind a blank. -/
def InHashRun (p : Str) (c : Char) (q : Str) : Prop :=
  c = '#' ∧ ((∀ x ∈ p, x = '#') ∨ ∃ u w v r t, p = u ++ w :: v ∧ isWhitespace w = true ∧
    (∀ x ∈ v, x = '#') ∧ q = r ++ t ∧ (∀ x ∈ r, x = '#') ∧ ∀ x ∈ t, isWhitespace x = true)

theorem inHashRun_open {p q r : Str} {c : Char}
    (h : (p ++ c :: r) = (p ++ c :: q).takeWhile (· == '#')) : InHashRun p c q := by
  have hash : ∀ x ∈ p ++ c :: r, x = '#' := by
    intro x hx
    rw [h] at hx
    simpa using List.mem_takeWhile_imp hx
  exact ⟨hash c (by simp), Or.inl fun x hx => hash x (by simp [hx])⟩

/-- The title of an ATX heading keeps its visible characters but for the runs of `#`. -/
theorem extractHeadingText_keeps {raw : SubStr} {p q : Str} {c : Char}
    (hset : setextTitle raw = none) (h : raw.text = p ++ c :: q) (hc : isWhitespace c = false)
    (hrun : ¬InHashRun p c q) :
    ∃ m r, (extractHeadingText raw).text = m ++ c :: r ∧
      (extractHeadingText raw).offset + byteLen m = raw.offset + byteLen p := by
  unfold extractHeadingText
  rw [hset]
  simp only
  split
  · obtain ⟨m, r, hm, hp, _⟩ := place_trim h hc
    refine ⟨m, r, hm, ?_⟩
    rw [hp, byteLen_append]
    exact Nat.add_assoc _ _ _
  · rename_i hne
    have hsplit : raw.text.takeWhile (· == '#') ++ raw.text.dropWhile (· == '#') = p ++ c :: q :=
      List.takeWhile_append_dropWhile.trans h
    rcases place_append hsplit with ⟨r, hr, _⟩ | ⟨m, hm, hp⟩
    · rw [h] at hr
      exact absurd (inHashRun_open hr.symm) hrun
    · obtain ⟨i, j, hi, hmi, hq⟩ := place_trim hm hc
      have hoff : raw.trimStartHashes.trim.offset + byteLen i = raw.offset + byteLen p := by
        rw [hp, hmi]
        simp only [byteLen_append, SubStr.trim, SubStr.trimStartHashes]
        omega
      have htext : raw.trimStartHashes.trim.text = i ++ c :: j := hi
      rcases stripAtxClosing_cases raw.trimStartHashes.trim with heq | ⟨heq, hlast⟩
      · rw [heq] at hne ⊢
        obtain ⟨r, hr⟩ := place_trimEnd htext hc
        exact ⟨i, r, hr, hoff⟩
      · rw [heq] at hne ⊢
        have hdec : raw.trimStartHashes.trim.trimEndHashes.text ++
            raw.trimStartHashes.trim.text.rtakeWhile (· == '#') = i ++ c :: j :=
          List.rdropWhile_append_rtakeWhile.trans htext
        rcases place_append hdec with ⟨r, hr, _⟩ | ⟨k, hk, hik⟩
        · obtain ⟨r', hr'⟩ := place_trimEnd hr hc
          exact ⟨i, r', hr', hoff⟩
        · have hash : ∀ x ∈ k ++ c :: j, x = '#' := by
            intro x hx
            rw [← hk] at hx
            simpa using List.mem_rtakeWhile_imp hx
          rcases hlast with hnil | ⟨u, w, hu, hw⟩
          · exact absurd (by simp [SubStr.trimEnd, hnil, ByteText.trimEnd]) hne
          · apply absurd _ hrun
            refine ⟨hash c (by simp), Or.inr ⟨raw.text.takeWhile (· == '#') ++
              (leadingBlank (raw.text.dropWhile (· == '#')) ++ u), w, k, j, _, ?_, hw,
              fun x hx => hash x (by simp [hx]), hq, fun x hx => hash x (by simp [hx]),
              trailingBlank_blank _⟩⟩
            rw [hp, hmi, hik, hu]
            simp

def inkedLines (raw : SubStr) : List SubStr := raw.lines.filter fun l => !(trim l.text).isEmpty

theorem setextTitle_eq_some {raw title : SubStr} (h : setextTitle raw = some title) :
    ∃ l ∈ raw.lines, (inkedLines raw).head? = some l ∧ title = l.trim := by
  unfold setextTitle at h
  split at h
  · rename_i first second rest hlines
    have hmem : first ∈ raw.lines := List.mem_of_mem_filter (hlines ▸ List.mem_cons_self)
    refine ⟨first, hmem, by simp [inkedLines, hlines], ?_⟩
    simp only at h
    split at h
    · cases h
    · split at h
      · split at h
        · cases h
        · exact (Option.some.inj h).symm
      · cases h
  · cases h

/-- The range lies on the first line of an underlined heading, or is clear of the runs of `#`. -/
def HeadingKeeps (src : Str) (a b : Nat) (r : Nat × Nat) : Prop :=
  ∃ raw, slice src a b = some raw ∧
    match setextTitle ⟨a, raw⟩ with
    | none => ∀ p c q, raw = p ++ c :: q → r.1 ≤ a + byteLen p → a + byteLen p < r.2 →
        ¬InHashRun p c q
    | some _ => ∀ l, (inkedLines ⟨a, raw⟩).head? = some l →
        l.offset ≤ r.1 ∧ r.2 ≤ l.offset + byteLen l.text

theorem titleSpan_has {src raw : Str} {a b n : Nat} {m r : Str} {c : Char}
    (hraw : slice src a b = some raw)
    (htext : (extractHeadingText ⟨a, raw⟩).text = m ++ c :: r)
    (hoff : (extractHeadingText ⟨a, raw⟩).offset + byteLen m = n) :
    ∃ τ, titleSpan src a b = some τ ∧ τ.Has n := by
  have hne : (extractHeadingText ⟨a, raw⟩).text ≠ [] := by simp [htext]
  have hlen := congrArg byteLen htext
  have hpos := c.utf8Size_pos
  simp only [byteLen_append, byteLen_cons] at hlen
  refine ⟨⟨(extractHeadingText ⟨a, raw⟩).offset,
    (extractHeadingText ⟨a, raw⟩).offset + byteLen (extractHeadingText ⟨a, raw⟩).text⟩, ?_, ?_, ?_⟩
  · simp [titleSpan, hraw, hne]
  · simp only
    omega
  · simp only
    omega

theorem titleSpan_covers {src : Str} {a b n : Nat} {r : Nat × Nat} (h : HeadingKeeps src a b r)
    (hlo : a ≤ r.1) (hhi : r.2 ≤ b) (hn : InkAt src n) (han : r.1 ≤ n) (hnb : n < r.2) :
    ∃ τ, titleSpan src a b = some τ ∧ τ.Has n := by
  obtain ⟨raw, hraw, hkeep⟩ := h
  cases hset : setextTitle ⟨a, raw⟩ with
  | none =>
    rw [hset] at hkeep
    obtain ⟨p, c, q, hr, hp, hc⟩ := hn.in_slice hraw (by omega) (by omega)
    have hrun := hkeep p c q hr (by omega) (by omega)
    obtain ⟨m, t, htext, hoff⟩ := extractHeadingText_keeps hset hr hc hrun
    exact titleSpan_has hraw htext (hoff.trans hp)
  | some title =>
    rw [hset] at hkeep
    obtain ⟨l, hl, hhead, htitle⟩ := setextTitle_eq_some hset
    obtain ⟨hlo', hhi'⟩ := hkeep l hhead
    have hline := subslice_of_in hraw (SubStr.linesFrom_in hl)
    obtain ⟨p, c, q, hr, hp, hc⟩ := hn.in_slice hline (by omega) (by omega)
    obtain ⟨i, j, htrim, hpi, _⟩ := place_trim hr hc
    have heq : extractHeadingText ⟨a, raw⟩ = l.trim := by
      unfold extractHeadingText
      rw [hset, htitle]
    apply titleSpan_has (m := i) (c := c) (r := j) hraw
    · rw [heq]
      exact htrim
    · rw [heq, ← hp, hpi, byteLen_append]
      exact Nat.add_assoc _ _ _

end Titles

section Texts

/-- The ranges of the text and code events of a forest. -/
def Doc.texts : Doc → List (Nat × Nat)
  | .nil => []
  | .leaf kind a b rest =>
    if kind = .text ∨ kind = .code then (a, b) :: rest.texts else rest.texts
  | .node _ _ _ inner rest => inner.texts ++ rest.texts

/-- Whether a node keeps the text range `r`, given whether its content does. -/
def nodeKeeps (src : Str) (r : Nat × Nat) (tag : Tag) (a b : Nat) (inner : Doc)
    (keeps : Prop) : Prop :=
  match tag with
  | .paragraph | .codeBlock | .htmlBlock | .table => r ∈ inner.texts
  | .heading _ => r ∈ inner.texts ∧ HeadingKeeps src a b r
  | .item => keeps ∨ r ∈ inner.beforeClamp.texts ∧
      ∃ raw, slice src a (inner.clampStart.getD b) = some raw ∧ isBlankOrMarker (trim raw) = false
  | _ => keeps

/-- The text ranges that the blocks of a forest keep by design. -/
def Doc.Keeps (src : Str) (r : Nat × Nat) : Doc → Prop
  | .nil => False
  | .leaf _ _ _ rest => rest.Keeps src r
  | .node tag a b inner rest =>
    nodeKeeps src r tag a b inner (inner.Keeps src r) ∨ rest.Keeps src r

/-- One of the spans holds all visible characters of the range. -/
def Shows (src : Str) (l : List Span) (r : Nat × Nat) : Prop :=
  ∃ s ∈ l, ∀ n, r.1 ≤ n → n < r.2 → InkAt src n → s.Has n

variable {src : Str} {lo hi : Nat} {r : Nat × Nat}

theorem texts_in {d : Doc} (h : d.WellNested src lo hi) (hr : r ∈ d.texts) :
    lo ≤ r.1 ∧ r.2 ≤ hi := by
  induction d generalizing lo hi with
  | nil => cases hr
  | leaf kind a b rest ih =>
    obtain ⟨hlo, ⟨raw, hraw⟩, hhi, hrest⟩ := h
    have hab := slice_stop hraw
    have hin : r ∈ (a, b) :: rest.texts := by
      unfold Doc.texts at hr
      split at hr
      · exact hr
      · exact List.mem_cons_of_mem _ hr
    rcases List.mem_cons.mp hin with heq | hin
    · rw [heq]
      exact ⟨hlo, hhi⟩
    · have := ih hrest hin
      omega
  | node tag a b inner rest ihi ihr =>
    obtain ⟨hlo, ⟨raw, hraw⟩, hhi, hinner, hrest⟩ := h
    have hab := slice_stop hraw
    rcases List.mem_append.mp hr with hr | hr
    · have := ihi hinner hr
      omega
    · have := ihr hrest hr
      omega

theorem clampStart_in {d : Doc} (h : d.WellNested src lo hi) :
    lo ≤ d.clampStart.getD hi ∧ d.clampStart.getD hi ≤ hi := by
  rw [← scan_clamp]
  exact (scan_on h).cut

/-- The texts in front of the clamping child end where it starts. -/
theorem beforeClamp_texts_in {d : Doc} (h : d.WellNested src lo hi)
    (hr : r ∈ d.beforeClamp.texts) : lo ≤ r.1 ∧ r.2 ≤ d.clampStart.getD hi := by
  induction d generalizing lo hi with
  | nil => cases hr
  | leaf kind a b rest ih =>
    have hcut := clampStart_in h.2.2.2
    obtain ⟨hlo, ⟨raw, hraw⟩, hhi, hrest⟩ := h
    have hab := slice_stop hraw
    have hin : r ∈ (a, b) :: rest.beforeClamp.texts := by
      unfold Doc.beforeClamp Doc.texts at hr
      split at hr
      · exact hr
      · exact List.mem_cons_of_mem _ hr
    show lo ≤ r.1 ∧ r.2 ≤ rest.clampStart.getD hi
    rcases List.mem_cons.mp hin with heq | hin
    · rw [heq]
      exact ⟨hlo, hcut.1⟩
    · have := ih hrest hin
      omega
  | node tag a b inner rest ihi ihr =>
    obtain ⟨hlo, ⟨raw, hraw⟩, hhi, hinner, hrest⟩ := h
    have hab := slice_stop hraw
    have hcut := clampStart_in hrest
    -- A heading or an item does not clamp: its texts all come before the cut.
    have unclamped : r ∈ inner.texts ++ rest.beforeClamp.texts →
        lo ≤ r.1 ∧ r.2 ≤ rest.clampStart.getD hi := by
      intro hr
      rcases List.mem_append.mp hr with hr | hr
      · have := texts_in hinner hr
        omega
      · have := ihr hrest hr
        omega
    have transparent : r ∈ inner.beforeClamp.texts ++
        (if inner.clampStart = none then rest.beforeClamp else .nil).texts →
        lo ≤ r.1 ∧ r.2 ≤ (inner.clampStart.or rest.clampStart).getD hi := by
      intro hr
      cases hc : inner.clampStart with
      | none =>
        rw [hc, if_pos rfl] at hr
        rw [Option.none_or]
        rcases List.mem_append.mp hr with hr | hr
        · have := ihi hinner hr
          rw [hc, Option.getD_none] at this
          omega
        · have := ihr hrest hr
          omega
      | some c =>
        rw [hc, if_neg (by simp)] at hr
        rcases List.mem_append.mp hr with hr | hr
        · have := ihi hinner hr
          rw [hc] at this
          exact ⟨Nat.le_trans hlo this.1, this.2⟩
        · cases hr
    cases tag with
    | heading level => exact unclamped hr
    | item => exact unclamped hr
    | paragraph => cases hr
    | codeBlock => cases hr
    | list => cases hr
    | table => cases hr
    | htmlBlock => cases hr
    | _ => exact transparent hr

/-- A node's text shows in its own block, or is left to its content. -/
theorem nodeKeeps_cases {tag : Tag} {a b : Nat} {inner : Doc} {keeps : Prop}
    (hn : inner.WellNested src a b) (h : nodeKeeps src r tag a b inner keeps)
    (hink : ∃ n, r.1 ≤ n ∧ n < r.2 ∧ InkAt src n) (hraw : ∃ raw, slice src a b = some raw) :
    Shows src (nodeSpan src tag a b inner).toList r ∨ tag ≠ .table ∧ keeps := by
  have shown {o : Option Span} (ho : ∀ n, r.1 ≤ n → n < r.2 → InkAt src n →
      ∃ τ, o = some τ ∧ τ.Has n) : Shows src o.toList r := by
    obtain ⟨n, hlo, hhi, hn⟩ := hink
    obtain ⟨τ, hτ, _⟩ := ho n hlo hhi hn
    refine ⟨τ, by simp [hτ], ?_⟩
    intro m hlo hhi hm
    obtain ⟨σ, hσ, hhas⟩ := ho m hlo hhi hm
    rw [hτ] at hσ
    cases hσ
    exact hhas
  obtain ⟨raw, hraw⟩ := hraw
  have whole (hr : r ∈ inner.texts) : Shows src (inkSpan src a b).toList r := by
    have hin := texts_in hn hr
    apply shown
    intro n hlo hhi hink
    exact inkSpan_covers hraw hink (by omega) (by omega)
  cases tag with
  | paragraph => exact Or.inl (whole h)
  | codeBlock => exact Or.inl (whole h)
  | htmlBlock => exact Or.inl (whole h)
  | table => exact Or.inl (whole h)
  | heading level =>
    obtain ⟨hr, hkeep⟩ := h
    have hin := texts_in hn hr
    apply Or.inl
    apply shown
    intro n hlo hhi hink
    exact titleSpan_covers hkeep hin.1 hin.2 hink hlo hhi
  | item =>
    rcases h with h | ⟨hr, own, hown, hmark⟩
    · exact Or.inr ⟨by simp, h⟩
    · have hin := beforeClamp_texts_in hn hr
      apply Or.inl
      apply shown
      intro n hlo hhi hink
      obtain ⟨τ, hτ, hhas⟩ := inkSpan_covers hown hink (by omega) (by omega)
      exact ⟨τ, by simp [nodeSpan, ownSpan, hown, hmark, hτ], hhas⟩
  | _ => exact Or.inr ⟨by simp, h⟩

theorem Shows.mono {l l' : List Span} (h : Shows src l r) (hl : ∀ s ∈ l, s ∈ l') :
    Shows src l' r := by
  obtain ⟨s, hs, hhas⟩ := h
  exact ⟨s, hl s hs, hhas⟩

theorem scan_shows {d : Doc} (h : d.WellNested src lo hi) (hr : d.Keeps src r)
    (hink : ∃ n, r.1 ≤ n ∧ n < r.2 ∧ InkAt src n) :
    Shows src (emittedSpans src (scan d).all) r := by
  induction d generalizing lo hi with
  | nil => cases hr
  | leaf kind a b rest ih =>
    obtain ⟨_, _, _, hrest⟩ := h
    exact ih hrest hr
  | node tag a b inner rest ihi ihr =>
    obtain ⟨_, hraw, _, hinner, hrest⟩ := h
    rw [scan, Scan.all_seq, emittedSpans_append]
    rcases hr with hr | hr
    · rcases nodeKeeps_cases hinner hr hink hraw with hs | ⟨ht, hr⟩
      · apply hs.mono
        intro s hs
        exact List.mem_append_left _ (mem_node_all.mpr (Or.inl (Option.mem_toList.mp hs)))
      · apply (ihi hinner hr).mono
        intro s hs
        exact List.mem_append_left _ (mem_node_all.mpr (Or.inr ⟨ht, hs⟩))
    · apply (ihr hrest hr).mono
      intro s hs
      exact List.mem_append_right _ hs

/-- All visible characters of a kept text range lie in the span of one block. -/
theorem parseMarkdown_keeps (src : Str) (d : Doc) (h : d.WellNested src 0 (byteLen src)) :
    ∃ blocks, parseMarkdown src d.events = .ok blocks ∧
      ∀ r, d.Keeps src r → (∃ n, r.1 ≤ n ∧ n < r.2 ∧ InkAt src n) →
        ∃ b ∈ blocks, ∀ n, r.1 ≤ n → n < r.2 → InkAt src n → b.span.Has n := by
  obtain ⟨blocks, hok, _, hspans⟩ := parseMarkdown_spans d h
  refine ⟨blocks, hok, ?_⟩
  intro r hr hink
  obtain ⟨s, hs, hhas⟩ := scan_shows h hr hink
  rw [← hspans] at hs
  obtain ⟨b, hb, rfl⟩ := List.mem_map.mp hs
  exact ⟨b, hb, hhas⟩

/-- "- a\n": the item's own text. -/
theorem parseMarkdown_keeps_item :
    let src : Str := ['-', ' ', 'a', '\n']
    let d : Doc := .node .list 0 4 (.node .item 0 4 (.leaf .text 2 3 .nil) .nil) .nil
    ∃ blocks, parseMarkdown src d.events = .ok blocks ∧ ∃ b ∈ blocks, b.span.Has 2 := by
  intro src d
  have hink : InkAt src 2 := ⟨['-', ' '], 'a', ['\n'], rfl, rfl, by decide⟩
  have hkeeps : d.Keeps src (2, 3) := by
    refine Or.inl (Or.inl (Or.inr ⟨?_, ?_⟩))
    · exact List.mem_singleton.mpr rfl
    · exact ⟨['-', ' ', 'a', '\n'], rfl, by decide +kernel⟩
  obtain ⟨blocks, hok, h⟩ := parseMarkdown_keeps src d (by decide +kernel)
  obtain ⟨b, hb, hhas⟩ := h (2, 3) hkeeps ⟨2, by decide, by decide, hink⟩
  exact ⟨blocks, hok, b, hb, hhas 2 (by decide) (by decide) hink⟩

/-- "    x\n": the code text ends with the line end, which the block leaves out. -/
def indentedCode : Doc := .node .codeBlock 4 6 (.leaf .text 4 6 .nil) .nil

def indentedCodeSrc : Str := [' ', ' ', ' ', ' ', 'x', '\n']

/-- "T\n: d\n": no block holds the text of a definition list. -/
def definitionList : Doc :=
  .node .definitionList 0 6
    (.node .definitionListTitle 0 1 (.leaf .text 0 1 .nil)
      (.node .definitionListDefinition 2 6 (.leaf .text 4 5 .nil) .nil)) .nil

def definitionListSrc : Str := ['T', '\n', ':', ' ', 'd', '\n']

theorem parseMarkdown_texts_not_contained :
    (indentedCode.WellNested indentedCodeSrc 0 (byteLen indentedCodeSrc) ∧
      (4, 6) ∈ indentedCode.texts ∧ InkAt indentedCodeSrc 4 ∧
      ∃ blocks, parseMarkdown indentedCodeSrc indentedCode.events = .ok blocks ∧
        ∀ b ∈ blocks, ¬(b.charStart ≤ 4 ∧ 6 ≤ b.charEnd)) ∧
    definitionList.WellNested definitionListSrc 0 (byteLen definitionListSrc) ∧
      (0, 1) ∈ definitionList.texts ∧ InkAt definitionListSrc 0 ∧
      parseMarkdown definitionListSrc definitionList.events = .ok [] := by
  refine ⟨⟨by decide +kernel, by decide, ?_, [⟨.code, [], ['x'], 4, 5⟩], by decide +kernel, ?_⟩,
    by decide +kernel, by decide, ?_, by decide +kernel⟩
  · exact ⟨[' ', ' ', ' ', ' '], 'x', ['\n'], rfl, rfl, by decide⟩
  · intro b hb
    rw [List.mem_singleton.mp hb]
    decide
  · exact ⟨[], 'T', ['\n', ':', ' ', 'd', '\n'], rfl, rfl, by decide⟩

end Texts

end LensLM
