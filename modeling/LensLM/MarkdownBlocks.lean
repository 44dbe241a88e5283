import LensLM.Lib.Slots
import LensLM.MarkdownDoc

/-!
# The order of the blocks of a Markdown document

The blocks are verbatim, and they come in document order exactly when no node that emits its
whole text holds a node that emits, and no list item emits before its own text is cut off.
-/

namespace LensLM

open ByteText Spans Outcome

set_option autoImplicit false

section Clear

/-- Where the first child starts that clamps the item around the forest. -/
def Doc.clampStart : Doc → Option Nat
  | .nil => none
  | .leaf _ _ _ rest => rest.clampStart
  | .node tag a _ inner rest =>
    if tag.clamps then some a
    else
      match tag with
      | .heading _ | .item => rest.clampStart
      | _ => inner.clampStart.or rest.clampStart

/-- The forest in front of its first clamping child. -/
def Doc.beforeClamp : Doc → Doc
  | .nil => .nil
  | .leaf kind a b rest => .leaf kind a b rest.beforeClamp
  | .node tag a b inner rest =>
    if tag.clamps then .nil
    else
      match tag with
      | .heading _ | .item => .node tag a b inner rest.beforeClamp
      | _ => .node tag a b inner.beforeClamp
          (if inner.clampStart = none then rest.beforeClamp else .nil)

/-- The span of a node's own text. -/
def nodeSpan (src : Str) (tag : Tag) (a b : Nat) (inner : Doc) : Option Span :=
  match tag with
  | .paragraph | .codeBlock | .htmlBlock | .table => inkSpan src a b
  | .heading _ => titleSpan src a b
  | .item => ownSpan src a (inner.clampStart.getD b)
  | _ => none

/-- The content that a node's own text runs over. -/
def heldBy (tag : Tag) (inner : Doc) : Doc :=
  match tag with
  | .item => inner.beforeClamp
  | .table => .nil
  | _ => inner

/-- No node of the forest has text of its own past the position `n`. -/
def Doc.SilentFrom (src : Str) (n : Nat) : Doc → Prop
  | .nil => True
  | .leaf _ _ _ rest => rest.SilentFrom src n
  | .node tag a b inner rest =>
    (∀ s ∈ nodeSpan src tag a b inner, s.stop ≤ n) ∧ (tag ≠ .table → inner.SilentFrom src n) ∧
      rest.SilentFrom src n

/-- No node runs over text of other nodes past the start of its own. -/
def Doc.Clear (src : Str) : Doc → Prop
  | .nil => True
  | .leaf _ _ _ rest => rest.Clear src
  | .node tag a b inner rest =>
    (∀ s ∈ nodeSpan src tag a b inner, (heldBy tag inner).SilentFrom src s.start) ∧
      (tag ≠ .table → inner.Clear src) ∧ rest.Clear src

end Clear

section Spans

variable {src : Str} {a b : Nat} {raw : Str}

/-- The source position `n` holds a visible character. -/
def InkAt (src : Str) (n : Nat) : Prop :=
  ∃ p c q, src = p ++ c :: q ∧ byteLen p = n ∧ isWhitespace c = false

theorem inkAt_of_inked {m n : Nat} {t : Str} (h : slice src m n = some t) (ht : Inked t)
    (hne : t ≠ []) : InkAt src m := by
  obtain ⟨p, q, hsrc, hp, _⟩ := slice_eq_some.mp h
  cases t with
  | nil => exact absurd rfl hne
  | cons c t => exact ⟨p, c, t ++ q, by simpa using hsrc, hp, ht c t rfl⟩

theorem inkSpan_eq_some {τ : Span} (hraw : slice src a b = some raw)
    (h : inkSpan src a b = some τ) : trim raw ≠ [] ∧
      τ = ⟨a + byteLen (leadingBlank raw), a + byteLen (leadingBlank raw) + byteLen (trim raw)⟩ := by
  unfold inkSpan at h
  rw [hraw] at h
  simp only [Option.bind_some] at h
  split at h
  · cases h
  · rename_i hne
    exact ⟨hne, (Option.some.inj h).symm⟩

theorem inkSpan_in {τ : Span} (hraw : slice src a b = some raw)
    (h : inkSpan src a b = some τ) : a ≤ τ.start ∧ τ.start < τ.stop ∧ τ.stop ≤ b := by
  obtain ⟨hne, rfl⟩ := inkSpan_eq_some hraw h
  have hlen := congrArg byteLen (trim_decomposition raw)
  have := slice_stop hraw
  have := byteLen_pos hne
  simp only [byteLen_append] at hlen
  simp only
  omega

theorem ownSpan_eq_some {τ : Span} (h : ownSpan src a b = some τ) : inkSpan src a b = some τ := by
  unfold ownSpan at h
  obtain ⟨raw, _, h⟩ := Option.bind_eq_some_iff.mp h
  split at h
  · cases h
  · exact h

theorem titleSpan_eq_some {τ : Span} (hraw : slice src a b = some raw)
    (h : titleSpan src a b = some τ) : (extractHeadingText ⟨a, raw⟩).text ≠ [] ∧
      τ = ⟨(extractHeadingText ⟨a, raw⟩).offset,
        (extractHeadingText ⟨a, raw⟩).offset + byteLen (extractHeadingText ⟨a, raw⟩).text⟩ := by
  unfold titleSpan at h
  rw [hraw] at h
  simp only [Option.bind_some] at h
  split at h
  · cases h
  · rename_i hne
    exact ⟨hne, (Option.some.inj h).symm⟩

theorem titleSpan_in {τ : Span} (hraw : slice src a b = some raw)
    (h : titleSpan src a b = some τ) : a ≤ τ.start ∧ τ.start < τ.stop ∧ τ.stop ≤ b := by
  obtain ⟨hne, rfl⟩ := titleSpan_eq_some hraw h
  obtain ⟨⟨p, q, htext, hoff⟩, _⟩ := extractHeadingText_in ⟨a, raw⟩
  have hlen := congrArg byteLen htext
  have := slice_stop hraw
  have := byteLen_pos hne
  simp only [byteLen_append] at hlen hoff
  simp only
  omega

theorem titleSpan_ink {τ : Span} (hraw : slice src a b = some raw)
    (h : titleSpan src a b = some τ) : InkAt src τ.start := by
  obtain ⟨hne, rfl⟩ := titleSpan_eq_some hraw h
  obtain ⟨hin, hink⟩ := extractHeadingText_in ⟨a, raw⟩
  exact inkAt_of_inked (subslice_of_in hraw hin) hink hne

theorem inkSpan_ink {τ : Span} (hraw : slice src a b = some raw)
    (h : inkSpan src a b = some τ) : InkAt src τ.start := by
  obtain ⟨hne, rfl⟩ := inkSpan_eq_some hraw h
  exact inkAt_of_inked (subslice_of_in hraw (SubStr.trim_in ⟨a, raw⟩)) (inked_trim raw) hne

/-- A visible character of a source range, seen in the range's text. -/
theorem InkAt.in_slice {n : Nat} (hn : InkAt src n) (hraw : slice src a b = some raw)
    (han : a ≤ n) (hnb : n < b) :
    ∃ p c q, raw = p ++ c :: q ∧ a + byteLen p = n ∧ isWhitespace c = false := by
  obtain ⟨p, c, q, hsrc, rfl, hc⟩ := hn
  obtain ⟨u, v, hsrc', rfl, rfl⟩ := slice_eq_some.mp hraw
  have heq : u ++ (raw ++ v) = p ++ c :: q := hsrc'.symm.trans hsrc
  have hpos := c.utf8Size_pos
  rcases place_append heq with ⟨r, hu, _⟩ | ⟨m, hm, rfl⟩
  · have := congrArg byteLen hu
    simp only [byteLen_append, byteLen_cons] at this
    omega
  · rcases place_append hm with ⟨r, hr, _⟩ | ⟨k, hk, rfl⟩
    · exact ⟨m, c, r, hr, by simp, hc⟩
    · simp only [byteLen_append] at hnb
      omega

/-- The trimmed span of a range holds every visible character of the range. -/
theorem inkSpan_covers {n : Nat} (hraw : slice src a b = some raw) (hn : InkAt src n)
    (han : a ≤ n) (hnb : n < b) : ∃ τ, inkSpan src a b = some τ ∧ τ.Has n := by
  obtain ⟨p, c, q, hr, rfl, hc⟩ := hn.in_slice hraw han hnb
  obtain ⟨i, j, htrim, rfl, _⟩ := place_trim hr hc
  have hne : trim raw ≠ [] := by simp [htrim]
  have hlen := congrArg byteLen htrim
  have hpos := c.utf8Size_pos
  simp only [byteLen_append, byteLen_cons] at hlen
  refine ⟨⟨a + byteLen (leadingBlank raw),
    a + byteLen (leadingBlank raw) + byteLen (trim raw)⟩, ?_, ?_, ?_⟩
  · simp [inkSpan, hraw, hne]
  · simp only [byteLen_append]
    omega
  · simp only [byteLen_append]
    omega

theorem inkSpan_has {τ : Span} {n : Nat} (h : inkSpan src a b = some τ) (hn : InkAt src n)
    (han : a ≤ n) (hnb : n < b) : τ.Has n := by
  obtain ⟨raw, hraw, _⟩ := Option.bind_eq_some_iff.mp h
  obtain ⟨σ, hσ, hhas⟩ := inkSpan_covers hraw hn han hnb
  obtain rfl := Option.some.inj (h.symm.trans hσ)
  exact hhas

/-- Spans inside a range, each starting with a visible character. -/
def SpansIn (src : Str) (lo hi : Nat) (l : List Span) : Prop :=
  ∀ s ∈ l, lo ≤ s.start ∧ s.start < s.stop ∧ s.stop ≤ hi ∧ InkAt src s.start

/-- Spans on the two sides of a cut are separated exactly when both sides are. -/
theorem separated_append_iff {lo m hi : Nat} {l r : List Span} (hl : SpansIn src lo m l)
    (hr : SpansIn src m hi r) : Separated (l ++ r) ↔ Separated l ∧ Separated r := by
  constructor
  · intro h
    have := List.pairwise_append.mp h
    exact ⟨this.1, this.2.1⟩
  · intro h
    exact h.1.append h.2 (fun s hs => (hl s hs).2.2.1) fun s hs => (hr s hs).1

theorem separated_concat_iff {l : List Span} {o : Option Span} :
    Separated (l ++ o.toList) ↔ (∀ τ ∈ o, ∀ s ∈ l, s.stop ≤ τ.start) ∧ Separated l := by
  unfold Separated
  rw [List.pairwise_append, and_comm (b := _ ∧ _)]
  cases o <;> simp

/-- Behind the text of a range nothing of the range is left to emit. -/
theorem separated_ink_cons_iff {l : List Span} (hl : SpansIn src a b l) :
    Separated ((inkSpan src a b).toList ++ l) ↔
      (∀ τ ∈ inkSpan src a b, ∀ s ∈ l, s.stop ≤ τ.start) ∧ Separated l := by
  cases hink : inkSpan src a b with
  | none => simp
  | some τ =>
    have hhas : ∀ s ∈ l, τ.Has s.start := by
      intro s hs
      obtain ⟨hlo, hlt, hhi, hs⟩ := hl s hs
      exact inkSpan_has hink hs hlo (by omega)
    unfold Span.Has at hhas
    have hpair : Separated ((some τ).toList ++ l) ↔
        (∀ s ∈ l, τ.stop ≤ s.start) ∧ Separated l := List.pairwise_cons
    rw [hpair]
    apply and_congr_left'
    constructor
    · intro h σ hσ s hs
      have := h s hs
      have := hhas s hs
      omega
    · intro h s hs
      have := h τ rfl s hs
      have := hhas s hs
      have := (hl s hs).2.1
      omega

end Spans

section Ranges

variable {src : Str} {lo m hi : Nat}

def Emission.In (lo hi : Nat) : Emission → Prop
  | .whole a b | .own a b | .heading a b => lo ≤ a ∧ b ≤ hi

theorem Emission.In.mono {em : Emission} {lo' hi' : Nat} (h : em.In lo hi) (hlo : lo' ≤ lo)
    (hhi : hi ≤ hi') : em.In lo' hi' := by
  cases em with
  | whole a b => exact ⟨Nat.le_trans hlo h.1, Nat.le_trans h.2 hhi⟩
  | own a b => exact ⟨Nat.le_trans hlo h.1, Nat.le_trans h.2 hhi⟩
  | heading a b => exact ⟨Nat.le_trans hlo h.1, Nat.le_trans h.2 hhi⟩

theorem inkSpan_bounds {a b : Nat} {τ : Span} (h : inkSpan src a b = some τ) :
    a ≤ τ.start ∧ τ.start < τ.stop ∧ τ.stop ≤ b ∧ InkAt src τ.start := by
  obtain ⟨raw, hraw, _⟩ := Option.bind_eq_some_iff.mp h
  obtain ⟨hlo, hlt, hhi⟩ := inkSpan_in hraw h
  exact ⟨hlo, hlt, hhi, inkSpan_ink hraw h⟩

theorem titleSpan_bounds {a b : Nat} {τ : Span} (h : titleSpan src a b = some τ) :
    a ≤ τ.start ∧ τ.start < τ.stop ∧ τ.stop ≤ b ∧ InkAt src τ.start := by
  obtain ⟨raw, hraw, _⟩ := Option.bind_eq_some_iff.mp h
  obtain ⟨hlo, hlt, hhi⟩ := titleSpan_in hraw h
  exact ⟨hlo, hlt, hhi, titleSpan_ink hraw h⟩

theorem spansIn_emitted (src : Str) {l : List Emission} (h : ∀ em ∈ l, em.In lo hi) :
    SpansIn src lo hi (emittedSpans src l) := by
  intro s hs
  obtain ⟨em, hem, hspan⟩ := List.mem_filterMap.mp hs
  have hin := h em hem
  have widen {a b : Nat} (hab : lo ≤ a ∧ b ≤ hi)
      (hs : a ≤ s.start ∧ s.start < s.stop ∧ s.stop ≤ b ∧ InkAt src s.start) :
      lo ≤ s.start ∧ s.start < s.stop ∧ s.stop ≤ hi ∧ InkAt src s.start :=
    ⟨by omega, hs.2.1, by omega, hs.2.2.2⟩
  cases em with
  | whole a b => exact widen hin (inkSpan_bounds hspan)
  | own a b => exact widen hin (inkSpan_bounds (ownSpan_eq_some hspan))
  | heading a b => exact widen hin (titleSpan_bounds hspan)

/-- The emissions before the clamping child end there, the others begin there. -/
structure Scan.On (x : Scan) (lo hi : Nat) : Prop where
  le : lo ≤ hi
  clamp : ∀ c ∈ x.clamp, lo ≤ c ∧ c ≤ hi
  before : ∀ em ∈ x.before, em.In lo (x.clamp.getD hi)
  after : ∀ em ∈ x.after, em.In (x.clamp.getD hi) hi

theorem Scan.On.cut {x : Scan} (h : x.On lo hi) :
    lo ≤ x.clamp.getD hi ∧ x.clamp.getD hi ≤ hi := by
  cases hc : x.clamp with
  | none => exact ⟨h.le, Nat.le_refl _⟩
  | some c => exact h.clamp c hc

theorem Scan.On.all {x : Scan} (h : x.On lo hi) : ∀ em ∈ x.all, em.In lo hi := by
  intro em hem
  obtain ⟨hlo, hhi⟩ := h.cut
  rcases List.mem_append.mp hem with hem | hem
  · exact (h.before em hem).mono (Nat.le_refl _) hhi
  · exact (h.after em hem).mono hlo (Nat.le_refl _)

/-- A scan without a clamping child. -/
theorem Scan.on_open {x : Scan} (hle : lo ≤ hi) (hc : x.clamp = none)
    (hb : ∀ em ∈ x.before, em.In lo hi) : x.On lo hi := by
  refine ⟨hle, by simp [hc], by simpa [hc] using hb, ?_⟩
  simp [x.settled hc]

/-- A scan that clamps at its start. -/
theorem Scan.on_start {x : Scan} (hle : lo ≤ hi) (hc : x.clamp = some lo) (hb : x.before = [])
    (ha : ∀ em ∈ x.after, em.In lo hi) : x.On lo hi := by
  refine ⟨hle, ?_, by simp [hb], by simpa [hc] using ha⟩
  intro c hc'
  rw [hc] at hc'
  cases hc'
  exact ⟨Nat.le_refl _, hle⟩

theorem Scan.On.widen {x : Scan} {lo' : Nat} (h : x.On lo hi) (hlo : lo' ≤ lo) :
    x.On lo' hi := by
  refine ⟨Nat.le_trans hlo h.le, ?_, ?_, h.after⟩
  · intro c hc
    have := h.clamp c hc
    omega
  · intro em hem
    exact (h.before em hem).mono hlo (Nat.le_refl _)

theorem Scan.On.seq {x y : Scan} (hx : x.On lo m) (hy : y.On m hi) : (x.seq y).On lo hi := by
  have hle := hx.le
  have hle' := hy.le
  unfold Scan.seq
  split
  · rename_i hc
    obtain ⟨hlo, hhi⟩ := hy.cut
    refine ⟨Nat.le_trans hle hle', ?_, ?_, hy.after⟩
    · intro c hc'
      have := hy.clamp c hc'
      omega
    · intro em hem
      rcases List.mem_append.mp hem with hem | hem
      · have := hx.before em hem
        rw [hc] at this
        exact this.mono (Nat.le_refl _) hlo
      · exact (hy.before em hem).mono hle (Nat.le_refl _)
  · rename_i c hc
    have hcut := hx.clamp c hc
    refine ⟨Nat.le_trans hle hle', ?_, ?_, ?_⟩
    · intro c' hc'
      cases hc'
      omega
    · intro em hem
      have := hx.before em hem
      rwa [hc] at this
    · intro em hem
      have hem' : em ∈ x.after ++ y.all := by simpa [Scan.all] using hem
      rcases List.mem_append.mp hem' with hem | hem
      · have := hx.after em hem
        rw [hc] at this
        exact this.mono (Nat.le_refl _) hle'
      · exact (hy.all em hem).mono hcut.2 (Nat.le_refl _)

theorem nodeScan_on (tag : Tag) {a b : Nat} {x : Scan} (h : x.On a b) :
    (nodeScan tag a b x).On a b := by
  have hself : a ≤ a ∧ b ≤ b := ⟨Nat.le_refl _, Nat.le_refl _⟩
  cases tag with
  | paragraph =>
    apply Scan.on_start h.le rfl rfl
    exact Slots.forall_mem_push h.all hself
  | codeBlock =>
    apply Scan.on_start h.le rfl rfl
    exact Slots.forall_mem_push h.all hself
  | list => exact Scan.on_start h.le rfl rfl h.all
  | table =>
    apply Scan.on_start h.le rfl rfl
    intro em hem
    rw [List.mem_singleton.mp hem]
    exact hself
  | htmlBlock =>
    apply Scan.on_start h.le rfl rfl
    intro em hem
    rcases List.mem_cons.mp hem with hem | hem
    · rw [hem]
      exact hself
    · exact h.all em hem
  | heading level =>
    apply Scan.on_open h.le rfl
    exact Slots.forall_mem_push h.all hself
  | item =>
    obtain ⟨hlo, hhi⟩ := h.cut
    apply Scan.on_open h.le rfl
    intro em hem
    rcases List.mem_append.mp hem with hem | hem
    · exact (h.before em hem).mono (Nat.le_refl _) hhi
    · rcases List.mem_cons.mp hem with hem | hem
      · rw [hem]
        exact ⟨Nat.le_refl _, hhi⟩
      · exact (h.after em hem).mono hlo (Nat.le_refl _)
  | _ => exact h

theorem scan_on {d : Doc} (h : d.WellNested src lo hi) : (scan d).On lo hi := by
  induction d generalizing lo hi with
  | nil => exact Scan.on_open h rfl (by simp [scan, Scan.nil])
  | leaf kind a b rest ih =>
    obtain ⟨hlo, ⟨raw, hraw⟩, _, hrest⟩ := h
    have := slice_stop hraw
    exact (ih hrest).widen (by omega)
  | node tag a b inner rest ihi ihr =>
    obtain ⟨hlo, _, _, hinner, hrest⟩ := h
    exact ((nodeScan_on tag (ihi hinner)).seq (ihr hrest)).widen hlo

end Ranges

section Order

variable {src : Str} {lo hi : Nat}

theorem scan_clamp (d : Doc) : (scan d).clamp = d.clampStart := by
  induction d with
  | nil => rfl
  | leaf kind a b rest ih => exact ih
  | node tag a b inner rest ihi ihr =>
    rw [scan, Scan.seq_clamp, ihr]
    cases tag <;> simp [nodeScan, Doc.clampStart, Tag.clamps, ihi]

theorem Scan.seq_before (x y : Scan) :
    (x.seq y).before = x.before ++ if x.clamp = none then y.before else [] := by
  unfold Scan.seq
  split
  · rename_i hx
    simp [hx]
  · rename_i c hx
    simp [hx]

/-- The forest in front of the clamping child emits what the scan says is before it. -/
theorem scan_beforeClamp (d : Doc) : (scan d.beforeClamp).all = (scan d).before := by
  induction d with
  | nil => rfl
  | leaf kind a b rest ih => exact ih
  | node tag a b inner rest ihi ihr =>
    have closed : ∀ t : Tag, (nodeScan t a b (scan inner)).before = [] →
        (nodeScan t a b (scan inner)).clamp = some a →
        (scan .nil).all = (scan (.node t a b inner rest)).before := by
      intro t hbefore hclamp
      rw [scan, scan, Scan.seq_before, hbefore, hclamp]
      rfl
    have unclamped : ∀ t : Tag, (nodeScan t a b (scan inner)).clamp = none →
        (scan (.node t a b inner rest.beforeClamp)).all =
          (scan (.node t a b inner rest)).before := by
      intro t hnone
      rw [scan, scan, Scan.all_seq, Scan.seq_before, hnone, if_pos rfl, ihr, Scan.all,
        (nodeScan t a b (scan inner)).settled hnone, List.append_nil]
    have transparent : ∀ t : Tag, (∀ x, nodeScan t a b x = x) →
        (scan (.node t a b inner.beforeClamp
          (if inner.clampStart = none then rest.beforeClamp else .nil))).all =
          (scan (.node t a b inner rest)).before := by
      intro t hid
      rw [scan, scan, Scan.all_seq, Scan.seq_before, hid, hid, ihi, scan_clamp]
      split
      · rw [ihr]
      · rfl
    cases tag with
    | heading level => exact unclamped (.heading level) rfl
    | item => exact unclamped .item rfl
    | paragraph => exact closed .paragraph rfl rfl
    | codeBlock => exact closed .codeBlock rfl rfl
    | list => exact closed .list rfl rfl
    | table => exact closed .table rfl rfl
    | htmlBlock => exact closed .htmlBlock rfl rfl
    | _ => exact transparent _ fun x => rfl

theorem emittedSpans_nil : emittedSpans src [] = [] := rfl

theorem emittedSpans_cons (em : Emission) (l : List Emission) :
    emittedSpans src (em :: l) = (em.span? src).toList ++ emittedSpans src l := by
  rw [← List.singleton_append, emittedSpans_append, emittedSpans_single]

/-- The emissions of an item's content, its own text apart, are those of its forest. -/
theorem item_all (a b : Nat) (inner : Doc) :
    emittedSpans src (nodeScan .item a b (scan inner)).all =
      emittedSpans src (scan inner).before ++
        ((ownSpan src a (inner.clampStart.getD b)).toList ++
          emittedSpans src (scan inner).after) := by
  show emittedSpans src (((scan inner).before ++
    .own a ((scan inner).clamp.getD b) :: (scan inner).after) ++ []) = _
  rw [List.append_nil, emittedSpans_append, emittedSpans_cons, scan_clamp]
  rfl

/-- A node emits its own text and, unless it is a table, what its content emits. -/
theorem mem_node_all {tag : Tag} {a b : Nat} {inner : Doc} {s : Span} :
    s ∈ emittedSpans src (nodeScan tag a b (scan inner)).all ↔
      s ∈ nodeSpan src tag a b inner ∨ tag ≠ .table ∧ s ∈ emittedSpans src (scan inner).all := by
  cases tag with
  | item =>
    rw [item_all]
    simp [nodeSpan, Scan.all, emittedSpans_append, or_left_comm]
  | _ =>
    simp [nodeScan, nodeSpan, Scan.all, emittedSpans_append, emittedSpans_cons,
      emittedSpans_nil, Emission.span?, or_comm, or_assoc]

theorem silentFrom_iff {n : Nat} (d : Doc) :
    d.SilentFrom src n ↔ ∀ s ∈ emittedSpans src (scan d).all, s.stop ≤ n := by
  induction d with
  | nil => simp [Doc.SilentFrom, scan, Scan.nil, Scan.all, emittedSpans]
  | leaf kind a b rest ih => exact ih
  | node tag a b inner rest ihi ihr =>
    rw [scan, Scan.all_seq, emittedSpans_append, List.forall_mem_append, Doc.SilentFrom, ihi,
      ihr, ← and_assoc]
    apply and_congr_left'
    simp only [mem_node_all]
    constructor
    · intro h s hs
      rcases hs with hs | ⟨ht, hs⟩
      · exact h.1 s hs
      · exact h.2 ht s hs
    · intro h
      exact ⟨fun s hs => h s (Or.inl hs), fun ht s hs => h s (Or.inr ⟨ht, hs⟩)⟩

/-- An item's own text lies between what its content emits before and after the cut. -/
theorem item_separated_iff {a b : Nat} {inner : Doc} (h : (scan inner).On a b) :
    Separated (emittedSpans src (nodeScan .item a b (scan inner)).all) ↔
      (∀ τ ∈ ownSpan src a (inner.clampStart.getD b),
        ∀ s ∈ emittedSpans src (scan inner).before, s.stop ≤ τ.start) ∧
        Separated (emittedSpans src (scan inner).all) := by
  have hbefore := spansIn_emitted src h.before
  have hafter := spansIn_emitted src h.after
  rw [scan_clamp] at hbefore hafter
  have hown : SpansIn src a (inner.clampStart.getD b)
      (emittedSpans src (scan inner).before ++
        (ownSpan src a (inner.clampStart.getD b)).toList) := by
    intro s hs
    rcases List.mem_append.mp hs with hs | hs
    · exact hbefore s hs
    · exact inkSpan_bounds (ownSpan_eq_some (Option.mem_toList.mp hs))
  rw [item_all, ← List.append_assoc, separated_append_iff hown hafter, separated_concat_iff,
    and_assoc, Scan.all, emittedSpans_append, separated_append_iff hbefore hafter]

/-- A node's emissions are in order if its content's are and its own text runs over none. -/
theorem node_separated_iff {tag : Tag} {a b : Nat} {inner : Doc} (h : (scan inner).On a b) :
    Separated (emittedSpans src (nodeScan tag a b (scan inner)).all) ↔
      (∀ s ∈ nodeSpan src tag a b inner, (heldBy tag inner).SilentFrom src s.start) ∧
        (tag ≠ .table → Separated (emittedSpans src (scan inner).all)) := by
  simp only [silentFrom_iff]
  have own_last : ∀ em : Emission, Separated (emittedSpans src ((scan inner).all ++ [em])) ↔
      (∀ τ ∈ em.span? src, ∀ s ∈ emittedSpans src (scan inner).all, s.stop ≤ τ.start) ∧
        Separated (emittedSpans src (scan inner).all) := by
    intro em
    rw [emittedSpans_append, emittedSpans_single, separated_concat_iff]
  have silent : Separated (emittedSpans src (scan inner).all) ↔
      (∀ s ∈ (none : Option Span), ∀ t ∈ emittedSpans src (scan inner).all, t.stop ≤ s.start) ∧
        Separated (emittedSpans src (scan inner).all) := by
    simp
  cases tag with
  | table =>
    show Separated (emittedSpans src [.whole a b]) ↔ _
    rw [emittedSpans_single]
    constructor
    · intro _
      refine ⟨?_, fun ht => absurd rfl ht⟩
      intro s _ t ht
      cases ht
    · intro _
      show Separated ((inkSpan src a b).toList)
      cases inkSpan src a b with
      | none => exact separated_nil
      | some τ => exact List.pairwise_singleton _ τ
  | item =>
    rw [imp_iff_right (by simp), heldBy, scan_beforeClamp]
    exact item_separated_iff h
  | paragraph =>
    rw [imp_iff_right (by simp)]
    exact own_last (.whole a b)
  | codeBlock =>
    rw [imp_iff_right (by simp)]
    exact own_last (.whole a b)
  | heading level =>
    rw [imp_iff_right (by simp)]
    show Separated (emittedSpans src ((scan inner).all ++ [.heading a b] ++ [])) ↔ _
    rw [List.append_nil]
    exact own_last (.heading a b)
  | htmlBlock =>
    rw [imp_iff_right (by simp)]
    show Separated (emittedSpans src (.whole a b :: (scan inner).all)) ↔ _
    rw [emittedSpans_cons]
    exact separated_ink_cons_iff (spansIn_emitted src h.all)
  | _ =>
    rw [imp_iff_right (by simp)]
    exact silent

theorem scan_separated_iff {d : Doc} (h : d.WellNested src lo hi) :
    Separated (emittedSpans src (scan d).all) ↔ d.Clear src := by
  induction d generalizing lo hi with
  | nil => exact iff_of_true separated_nil trivial
  | leaf kind a b rest ih =>
    obtain ⟨_, _, _, hrest⟩ := h
    exact ih hrest
  | node tag a b inner rest ihi ihr =>
    obtain ⟨_, _, _, hinner, hrest⟩ := h
    have hnode := spansIn_emitted src (nodeScan_on tag (scan_on hinner)).all
    have hafter := spansIn_emitted src (scan_on hrest).all
    rw [scan, Scan.all_seq, emittedSpans_append, separated_append_iff hnode hafter,
      node_separated_iff (scan_on hinner), ihi hinner, ihr hrest, and_assoc]
    rfl

/-- On every well-nested event stream the blocks are verbatim, and they are pairwise disjoint
in document order exactly when no node runs over other text past the start of its own. -/
theorem parseMarkdown_disjoint_iff (src : Str) (d : Doc)
    (h : d.WellNested src 0 (byteLen src)) :
    ∃ blocks, parseMarkdown src d.events = .ok blocks ∧ (∀ b ∈ blocks, b.Verbatim src) ∧
      (Separated (blocks.map Block.span) ↔ d.Clear src) := by
  obtain ⟨blocks, hok, hverb, hspans⟩ := parseMarkdown_spans d h
  refine ⟨blocks, hok, hverb, ?_⟩
  rw [hspans]
  exact scan_separated_iff h

/-- "- # H\n": the heading's title is emitted by the heading and by the item around it. -/
def headedItem : Doc :=
  .node .list 0 6 (.node .item 0 6 (.node (.heading 1) 2 6 (.leaf .text 4 5 .nil) .nil) .nil) .nil

def headedItemSrc : Str := ['-', ' ', '#', ' ', 'H', '\n']

theorem parseMarkdown_headedItem :
    headedItem.WellNested headedItemSrc 0 (byteLen headedItemSrc) ∧
      ∃ blocks, parseMarkdown headedItemSrc headedItem.events = .ok blocks ∧
        blocks.map Block.span = [⟨4, 5⟩, ⟨0, 5⟩] ∧ ¬Separated (blocks.map Block.span) := by
  refine ⟨by decide +kernel, [⟨.heading, ['H'], ['H'], 4, 5⟩,
    ⟨.listItem, [], ['-', ' ', '#', ' ', 'H'], 0, 5⟩], by decide +kernel, rfl, ?_⟩
  intro h
  have := (List.pairwise_cons.mp h).1 ⟨0, 5⟩ List.mem_cons_self
  simp [Block.span] at this

theorem parseMarkdown_disjoint_iff_title :
    let src : Str := ['#', ' ', 'T', '\n', 'x']
    let d : Doc := .node (.heading 1) 0 4 (.leaf .text 2 3 .nil)
      (.node .paragraph 4 5 (.leaf .text 4 5 .nil) .nil)
    ∃ blocks, parseMarkdown src d.events = .ok blocks ∧ (∀ b ∈ blocks, b.Verbatim src) ∧
      (Separated (blocks.map Block.span) ↔ d.Clear src) := by
  exact parseMarkdown_disjoint_iff _ _ (by decide +kernel)

end Order

section Grammar

variable {src : Str} {lo hi : Nat}

def Tag.isInline : Tag → Bool
  | .emphasis | .strong | .strikethrough | .superscript | .subscript | .link | .image => true
  | _ => false

/-- The tags whose content is inline only. -/
def Tag.holdsInline : Tag → Bool
  | .paragraph | .heading _ | .codeBlock | .htmlBlock | .metadataBlock
  | .definitionListTitle | .tableCell => true
  | tag => tag.isInline

def Doc.Inline : Doc → Prop
  | .nil => True
  | .leaf _ _ _ rest => rest.Inline
  | .node tag _ _ inner rest => tag.isInline = true ∧ inner.Inline ∧ rest.Inline

/-- The nesting of the Markdown grammar: items stand in lists and only there, and the leaf
blocks hold inline content. -/
def Doc.Grammar (inList : Bool) : Doc → Prop
  | .nil => True
  | .leaf _ _ _ rest => rest.Grammar inList
  | .node tag _ _ inner rest =>
    (tag = .item ↔ inList = true) ∧ (tag.holdsInline = true → inner.Inline) ∧
      (tag.holdsInline = false → inner.Grammar (tag == .list)) ∧ rest.Grammar inList

/-- A document as the library delivers it. -/
structure MarkdownDoc (src : Str) where
  doc : Doc
  nested : doc.WellNested src 0 (byteLen src)
  grammar : doc.Grammar false

/-- The headings of the forest in front of its first clamping child. -/
def Doc.headingsBeforeClamp : Doc → List (Nat × Nat)
  | .nil => []
  | .leaf _ _ _ rest => rest.headingsBeforeClamp
  | .node tag a b inner rest =>
    if tag.clamps then []
    else
      match tag with
      | .heading _ => (a, b) :: rest.headingsBeforeClamp
      | .item => rest.headingsBeforeClamp
      | _ => inner.headingsBeforeClamp ++
          if inner.clampStart = none then rest.headingsBeforeClamp else []

/-- No heading with a title opens in the item before its first clamping child, or the item
has no own text up to there. -/
def ItemClear (src : Str) (a b : Nat) (inner : Doc) : Prop :=
  (∀ h ∈ inner.headingsBeforeClamp, titleSpan src h.1 h.2 = none) ∨
    ownSpan src a (inner.clampStart.getD b) = none

/-- Every list item outside tables is clear. -/
def Doc.ItemsClear (src : Str) : Doc → Prop
  | .nil => True
  | .leaf _ _ _ rest => rest.ItemsClear src
  | .node tag a b inner rest =>
    (tag = .item → ItemClear src a b inner) ∧ (tag ≠ .table → inner.ItemsClear src) ∧
      rest.ItemsClear src

theorem nodeScan_inline {tag : Tag} (h : tag.isInline = true) (a b : Nat) (x : Scan) :
    nodeScan tag a b x = x := by
  cases tag <;> first | rfl | cases h

theorem scan_inline {d : Doc} (h : d.Inline) : scan d = Scan.nil := by
  induction d with
  | nil => rfl
  | leaf kind a b rest ih => exact ih h
  | node tag a b inner rest ihi ihr =>
    obtain ⟨ht, hi, hr⟩ := h
    rw [scan, nodeScan_inline ht, ihi hi, ihr hr]
    rfl

theorem itemsClear_inline {src : Str} {d : Doc} (h : d.Inline) : d.ItemsClear src := by
  induction d with
  | nil => trivial
  | leaf kind a b rest ih => exact ih h
  | node tag a b inner rest ihi ihr =>
    obtain ⟨ht, hi, hr⟩ := h
    refine ⟨?_, fun _ => ihi hi, ihr hr⟩
    intro heq
    subst heq
    cases ht

theorem grammar_inline {d : Doc} (h : d.Inline) : d.Grammar false := by
  induction d with
  | nil => trivial
  | leaf kind a b rest ih => exact ih h
  | node tag a b inner rest ihi ihr =>
    obtain ⟨ht, hi, hr⟩ := h
    have hitem : tag ≠ .item := by
      intro heq
      subst heq
      cases ht
    have hlist : (tag == .list) = false := by
      rw [beq_eq_false_iff_ne]
      intro heq
      subst heq
      cases ht
    exact ⟨by simp [hitem], fun _ => hi, fun _ => hlist ▸ ihi hi, ihr hr⟩

theorem Doc.Grammar.inner {tag : Tag} {a b : Nat} {inner rest : Doc} {inList : Bool}
    (h : (Doc.node tag a b inner rest).Grammar inList) (ht : tag ≠ .list) :
    inner.Grammar false := by
  obtain ⟨_, hinl, hin, _⟩ := h
  cases hh : tag.holdsInline with
  | true => exact grammar_inline (hinl hh)
  | false =>
    have := hin hh
    rwa [beq_eq_false_iff_ne.mpr ht] at this

/-- Before its first clamping child a forest emits headings only. -/
theorem scan_before {d : Doc} (h : d.Grammar false) :
    (scan d).before = d.headingsBeforeClamp.map fun r => .heading r.1 r.2 := by
  induction d with
  | nil => rfl
  | leaf kind a b rest ih => exact ih h
  | node tag a b inner rest ihi ihr =>
    have hinner := h.inner
    obtain ⟨hitem, hinl, _, hrest⟩ := h
    rw [scan, Scan.seq_before, ihr hrest]
    have transparent : inner.Grammar false →
        (scan inner).before ++ (if (scan inner).clamp = none then
          rest.headingsBeforeClamp.map fun r => Emission.heading r.1 r.2 else []) =
        (inner.headingsBeforeClamp ++ if inner.clampStart = none then
          rest.headingsBeforeClamp else []).map fun r => Emission.heading r.1 r.2 := by
      intro hg
      rw [ihi hg, scan_clamp, List.map_append]
      split <;> simp
    cases tag with
    | item => exact absurd (hitem.mp rfl) (by simp)
    | heading level =>
      have hnil := scan_inline (hinl rfl)
      simp [nodeScan, hnil, Scan.nil, Scan.all, Doc.headingsBeforeClamp, Tag.clamps]
    | paragraph => rfl
    | codeBlock => rfl
    | list => rfl
    | table => rfl
    | htmlBlock => rfl
    | _ => exact transparent (hinner (by simp))

theorem clear_inline {d : Doc} (h : d.Inline) : d.Clear src := by
  induction d with
  | nil => trivial
  | leaf kind a b rest ih => exact ih h
  | node tag a b inner rest ihi ihr =>
    obtain ⟨ht, hi, hr⟩ := h
    refine ⟨?_, fun _ => ihi hi, ihr hr⟩
    intro s hs
    cases tag <;> first | cases hs | cases ht

theorem silentFrom_inline {n : Nat} {d : Doc} (h : d.Inline) : d.SilentFrom src n := by
  rw [silentFrom_iff, scan_inline h]
  simp [Scan.nil, Scan.all, emittedSpans_nil]

/-- A title in front of an item's clamping child lies in the item's own text. -/
theorem item_clear_iff {a b : Nat} {inner : Doc} (hg : inner.Grammar false)
    (hn : inner.WellNested src a b) :
    (∀ s ∈ nodeSpan src .item a b inner, (heldBy .item inner).SilentFrom src s.start) ↔
      ItemClear src a b inner := by
  have hbefore := spansIn_emitted src (scan_on hn).before
  simp only [silentFrom_iff, heldBy, scan_beforeClamp, nodeSpan]
  rw [scan_clamp] at hbefore
  have htitle {s : Span} : s ∈ emittedSpans src (scan inner).before ↔
      ∃ r ∈ inner.headingsBeforeClamp, titleSpan src r.1 r.2 = some s := by
    rw [scan_before hg]
    simp [emittedSpans, Emission.span?, List.mem_filterMap]
  unfold ItemClear
  constructor
  · intro h
    cases hown : ownSpan src a (inner.clampStart.getD b) with
    | none => exact Or.inr rfl
    | some τ =>
      apply Or.inl
      intro r hr
      cases ht : titleSpan src r.1 r.2 with
      | none => rfl
      | some s =>
        have hs := htitle.mpr ⟨r, hr, ht⟩
        obtain ⟨hlo, hlt, hhi, hink⟩ := hbefore s hs
        have hhas := inkSpan_has (ownSpan_eq_some hown) hink hlo (by omega)
        have hstop := h τ hown s hs
        unfold Span.Has at hhas
        omega
  · intro h τ hown s hs
    rcases h with h | h
    · obtain ⟨r, hr, ht⟩ := htitle.mp hs
      rw [h r hr] at ht
      cases ht
    · rw [h] at hown
      cases hown

/-- The text of every node but a list item runs over inline content only. -/
theorem node_clear_of_inline {tag : Tag} {a b : Nat} {inner : Doc} (ht : tag ≠ .item)
    (hinl : tag.holdsInline = true → inner.Inline) :
    ∀ s ∈ nodeSpan src tag a b inner, (heldBy tag inner).SilentFrom src s.start := by
  intro s hs
  cases tag with
  | item => exact absurd rfl ht
  | paragraph => exact silentFrom_inline (hinl rfl)
  | heading level => exact silentFrom_inline (hinl rfl)
  | codeBlock => exact silentFrom_inline (hinl rfl)
  | htmlBlock => exact silentFrom_inline (hinl rfl)
  | table => trivial
  | _ => cases hs

/-- In the library's documents a node runs over other text only where a titled heading opens
in a list item before its own text is cut off. -/
theorem clear_iff_itemsClear {inList : Bool} {d : Doc} (hg : d.Grammar inList)
    (hn : d.WellNested src lo hi) : d.Clear src ↔ d.ItemsClear src := by
  induction d generalizing inList lo hi with
  | nil => exact Iff.rfl
  | leaf kind a b rest ih =>
    obtain ⟨_, _, _, hrest⟩ := hn
    exact ih hg hrest
  | node tag a b inner rest ihi ihr =>
    have hitem := hg.inner
    obtain ⟨_, hinl, hblocks, hgrest⟩ := hg
    obtain ⟨_, _, _, hinner, hrest⟩ := hn
    have hi : inner.Clear src ↔ inner.ItemsClear src := by
      cases hh : tag.holdsInline with
      | true => exact iff_of_true (clear_inline (hinl hh)) (itemsClear_inline (hinl hh))
      | false => exact ihi (hblocks hh) hinner
    have hnode : (∀ s ∈ nodeSpan src tag a b inner,
        (heldBy tag inner).SilentFrom src s.start) ↔ (tag = .item → ItemClear src a b inner) := by
      by_cases ht : tag = .item
      · subst ht
        rw [imp_iff_right rfl]
        exact item_clear_iff (hitem (by simp)) hinner
      · exact iff_of_true (node_clear_of_inline ht hinl) fun h => absurd h ht
    rw [Doc.Clear, Doc.ItemsClear, hnode, hi, ihr hgrest hrest]

end Grammar

end LensLM
