import LensLM.Markdown

/-!
# Event trees

A well-nested event stream is the traversal of a tree. `scan` says which source ranges the
state machine emits, in order, and `run_doc` that the machine emits exactly these.
-/

namespace LensLM

open ByteText Spans Outcome

set_option autoImplicit false

section SubSlices

/-- `s` is a subslice of `raw`, at its offset. -/
def SubStr.In (s raw : SubStr) : Prop :=
  ∃ p q, raw.text = p ++ (s.text ++ q) ∧ s.offset = raw.offset + byteLen p

/-- Empty, or starting with a visible character. -/
def Inked (s : Str) : Prop := ∀ c t, s = c :: t → isWhitespace c = false

theorem Inked.of_prefix {s t : Str} (h : Inked s) (hp : t <+: s) : Inked t := by
  intro c u hc
  obtain ⟨v, hv⟩ := hp
  exact h c (u ++ v) (by rw [← hv, hc]; rfl)

theorem inked_trim (s : Str) : Inked (trim s) := by
  have hstart : Inked (trimStart s) := by
    intro c t hc
    have := List.head?_dropWhile_not isWhitespace s
    rw [show s.dropWhile isWhitespace = c :: t from hc] at this
    simpa using this
  exact hstart.of_prefix (List.rdropWhile_prefix _ _)

namespace SubStr

variable {s t raw : SubStr}

theorem In.refl (s : SubStr) : s.In s := ⟨[], [], by simp, by simp⟩

theorem In.trans (h : s.In t) (h' : t.In raw) : s.In raw := by
  obtain ⟨p, q, htext, hoff⟩ := h
  obtain ⟨p', q', htext', hoff'⟩ := h'
  refine ⟨p' ++ p, q ++ q', ?_, ?_⟩
  · simp [htext', htext]
  · simp [hoff, hoff', Nat.add_assoc]

theorem in_of_prefix (h : s.text <+: raw.text) (ho : s.offset = raw.offset) : s.In raw := by
  obtain ⟨q, hq⟩ := h
  exact ⟨[], q, by simp [hq], by simp [ho]⟩

theorem trim_in (s : SubStr) : s.trim.In s :=
  ⟨leadingBlank s.text, _, trim_decomposition s.text, rfl⟩

theorem trimEnd_in (s : SubStr) : s.trimEnd.In s :=
  in_of_prefix (List.rdropWhile_prefix _ _) rfl

theorem trimEndHashes_in (s : SubStr) : s.trimEndHashes.In s :=
  in_of_prefix (List.rdropWhile_prefix _ _) rfl

theorem trimStartHashes_in (s : SubStr) : s.trimStartHashes.In s :=
  ⟨s.text.takeWhile (· == '#'), [], by simp [trimStartHashes], rfl⟩

theorem linesFrom_head {offset : Nat} {s : Str} {l : SubStr} {ls : List SubStr}
    (h : linesFrom offset s = l :: ls) : l.offset = offset := by
  fun_cases linesFrom offset s with
  | case1 => simp [linesFrom] at h
  | case2 s =>
    simp only [linesFrom, List.cons.injEq] at h
    rw [← h.1]
  | case3 s =>
    simp only [linesFrom, List.cons.injEq] at h
    rw [← h.1]
  | case4 c s h1 h2 hnil =>
    rw [linesFrom.eq_4 offset c s h1 h2, hnil] at h
    simp only [List.cons.injEq] at h
    rw [← h.1]
  | case5 c s h1 h2 line ls' hcons =>
    rw [linesFrom.eq_4 offset c s h1 h2, hcons] at h
    simp only [List.cons.injEq] at h
    rw [← h.1]

theorem linesFrom_in {offset : Nat} {s : Str} {l : SubStr} (h : l ∈ linesFrom offset s) :
    l.In ⟨offset, s⟩ := by
  fun_induction linesFrom offset s generalizing l with
  | case1 => simp at h
  | case2 offset s ih =>
    rcases List.mem_cons.mp h with rfl | h
    · exact ⟨[], '\n' :: s, rfl, rfl⟩
    · obtain ⟨p, q, htext, hoff⟩ := ih h
      refine ⟨'\n' :: p, q, by simpa using htext, ?_⟩
      rw [hoff]
      exact Nat.add_assoc _ _ _
  | case3 offset s ih =>
    rcases List.mem_cons.mp h with rfl | h
    · exact ⟨[], '\r' :: '\n' :: s, rfl, rfl⟩
    · obtain ⟨p, q, htext, hoff⟩ := ih h
      refine ⟨'\r' :: '\n' :: p, q, by simpa using htext, ?_⟩
      rw [hoff]
      exact (Nat.add_assoc offset 2 (byteLen p)).trans
        (congrArg (offset + ·) (Nat.add_assoc 1 1 (byteLen p)))
  | case4 offset c s h1 h2 hnil ih =>
    rw [List.mem_singleton.mp h]
    exact ⟨[], s, rfl, rfl⟩
  | case5 offset c s h1 h2 line ls hcons ih =>
    rw [hcons] at ih
    rcases List.mem_cons.mp h with rfl | h
    · obtain ⟨p, q, htext, hoff⟩ := ih List.mem_cons_self
      have hhead := linesFrom_head hcons
      have hp : p = [] := by
        rw [← byteLen_eq_zero]
        simp only at hoff
        omega
      subst hp
      exact ⟨[], q, by simpa using htext, rfl⟩
    · obtain ⟨p, q, htext, hoff⟩ := ih (List.mem_cons_of_mem line h)
      refine ⟨c :: p, q, by simpa using htext, ?_⟩
      rw [hoff]
      exact Nat.add_assoc _ _ _

end SubStr

theorem setextTitle_in {raw title : SubStr} (h : setextTitle raw = some title) :
    title.In raw ∧ Inked title.text := by
  unfold setextTitle at h
  split at h
  · rename_i first second rest hlines
    have hmem : first ∈ raw.lines :=
      List.mem_of_mem_filter (hlines ▸ List.mem_cons_self)
    have hin := (SubStr.trim_in first).trans (SubStr.linesFrom_in hmem)
    simp only at h
    split at h
    · cases h
    · split at h
      · split at h
        · cases h
        · obtain rfl := Option.some.inj h
          exact ⟨hin, inked_trim _⟩
      · cases h
  · cases h

/-- A closing run of `#` is stripped behind a blank, or when nothing else is left. -/
theorem stripAtxClosing_cases (s : SubStr) :
    stripAtxClosing s = s ∨ stripAtxClosing s = s.trimEndHashes ∧
      (s.trimEndHashes.text = [] ∨
        ∃ u w, s.trimEndHashes.text = u ++ [w] ∧ isWhitespace w = true) := by
  unfold stripAtxClosing
  dsimp only
  split
  · exact Or.inl rfl
  · split
    · rename_i hlast
      exact Or.inr ⟨rfl, Or.inl (List.getLast?_eq_none_iff.mp hlast)⟩
    · rename_i w hlast
      split
      · rename_i hw
        obtain ⟨u, hu⟩ := List.getLast?_eq_some_iff.mp hlast
        exact Or.inr ⟨rfl, Or.inr ⟨u, w, hu, hw⟩⟩
      · exact Or.inl rfl

/-- The heading text is a subslice that starts with a visible character. -/
theorem extractHeadingText_in (raw : SubStr) :
    (extractHeadingText raw).In raw ∧ Inked (extractHeadingText raw).text := by
  unfold extractHeadingText
  cases hs : setextTitle raw with
  | some title => exact setextTitle_in hs
  | none =>
    simp only
    split
    · exact ⟨SubStr.trim_in raw, inked_trim _⟩
    · have htrim : raw.trimStartHashes.trim.In raw :=
        (SubStr.trim_in _).trans (SubStr.trimStartHashes_in raw)
      have hink : Inked raw.trimStartHashes.trim.text := inked_trim _
      have hend : ∀ s : SubStr, Inked s.text → Inked s.trimEnd.text :=
        fun s hs => hs.of_prefix (List.rdropWhile_prefix _ _)
      rcases stripAtxClosing_cases raw.trimStartHashes.trim with heq | ⟨heq, _⟩
      · rw [heq]
        exact ⟨(SubStr.trimEnd_in _).trans htrim, hend _ hink⟩
      · rw [heq]
        exact ⟨((SubStr.trimEnd_in _).trans (SubStr.trimEndHashes_in _)).trans htrim,
          hend _ (hink.of_prefix (List.rdropWhile_prefix _ _))⟩

end SubSlices

section Emit

variable {src : Str}

/-- The trimmed span of a source range, unless the range is blank. -/
def inkSpan (src : Str) (a b : Nat) : Option Span :=
  (slice src a b).bind fun raw =>
    if trim raw = [] then none
    else some ⟨a + byteLen (leadingBlank raw), a + byteLen (leadingBlank raw) + byteLen (trim raw)⟩

/-- The span of a heading's text, unless that is empty. -/
def titleSpan (src : Str) (a b : Nat) : Option Span :=
  (slice src a b).bind fun raw =>
    let title := extractHeadingText ⟨a, raw⟩
    if title.text = [] then none else some ⟨title.offset, title.offset + byteLen title.text⟩

/-- The trimmed span of a list item's own text, unless that is blank or a bare marker. -/
def ownSpan (src : Str) (a b : Nat) : Option Span :=
  (slice src a b).bind fun raw => if isBlankOrMarker (trim raw) then none else inkSpan src a b

/-- The computation appends verbatim blocks with the given spans. -/
def Appends (src : Str) (x : Except Fault (List Block)) (blocks : List Block)
    (spans : List Span) : Prop :=
  ∃ new, x = .ok (blocks ++ new) ∧ new.map Block.span = spans ∧ ∀ b ∈ new, b.Verbatim src

theorem appends_nothing {blocks : List Block} : Appends src (.ok blocks) blocks [] :=
  ⟨[], by simp, rfl, by simp⟩

theorem subslice_of_in {a b : Nat} {raw : Str} {s : SubStr} (h : slice src a b = some raw)
    (hin : s.In ⟨a, raw⟩) : slice src s.offset (s.offset + byteLen s.text) = some s.text := by
  obtain ⟨p, q, htext, hoff⟩ := hin
  have hsub : slice raw (byteLen p) (byteLen p + byteLen s.text) = some s.text :=
    slice_eq_some.mpr ⟨p, q, htext, rfl, rfl⟩
  have := slice_of_slice h hsub
  simp only at hoff
  rw [hoff, Nat.add_assoc]
  exact this

theorem locateInSrc_of_in {a b : Nat} {raw : Str} {s : SubStr} (h : slice src a b = some raw)
    (hin : s.In ⟨a, raw⟩) (hne : s.text ≠ []) :
    locateInSrc src s a b = .ok (s.offset, s.offset + byteLen s.text) := by
  obtain ⟨p, q, htext, hoff⟩ := hin
  have hlen := congrArg byteLen htext
  simp only [byteLen_append] at hlen hoff
  unfold locateInSrc
  rw [if_neg (by simpa using hne), Nat.min_eq_left (slice_right_boundary h).le,
    sliceBytes_of_slice h]
  show (if _ then _ else _) = _
  rw [if_pos (by omega)]
  rfl

theorem emitBlock_appends {a b : Nat} {raw : Str} (h : slice src a b = some raw)
    (ty : BlockType) (path : Str) (blocks : List Block) :
    Appends src (emitBlock src ty path a b blocks) blocks (inkSpan src a b).toList := by
  have hle := (slice_right_boundary h).le
  have hstop := slice_stop h
  unfold emitBlock inkSpan
  rw [h]
  simp only [Option.bind_some]
  by_cases hab : b ≤ a ∨ byteLen src < b
  · have hraw : raw = [] := by
      rw [← byteLen_eq_zero]
      omega
    rw [if_pos hab, hraw]
    exact appends_nothing
  · rw [if_neg hab, sliceBytes_of_slice h]
    simp only [Bind.bind, Except.bind]
    by_cases hblank : trim raw = []
    · have htext : (SubStr.trim ⟨a, raw⟩).text = [] := hblank
      rw [if_pos hblank, htext]
      exact appends_nothing
    · have hin := SubStr.trim_in ⟨a, raw⟩
      have htext : (SubStr.trim ⟨a, raw⟩).text ≠ [] := hblank
      have hpos := byteLen_pos htext
      rw [if_neg hblank, if_neg (by simpa using htext), locateInSrc_of_in h hin htext]
      simp only
      rw [if_neg (by omega)]
      exact ⟨_, rfl, rfl, by simpa [Block.Verbatim] using subslice_of_in h hin⟩

theorem emitOwnText_appends {a b : Nat} {raw : Str} (h : slice src a b = some raw) (path : Str)
    (blocks : List Block) :
    Appends src (emitOwnText src path a b blocks) blocks (ownSpan src a b).toList := by
  unfold emitOwnText ownSpan
  rw [h]
  simp only [Option.bind_some]
  by_cases hab : a < b
  · rw [if_pos hab, sliceBytes_of_slice h]
    simp only [Bind.bind, Except.bind]
    split
    · exact appends_nothing
    · exact emitBlock_appends h _ _ _
  · have hraw : raw = [] := by
      rw [← byteLen_eq_zero]
      have := slice_stop h
      omega
    rw [if_neg hab, hraw]
    exact appends_nothing

end Emit

section Trees

/-- A forest of events: a leaf or a tagged node, followed by its later siblings. -/
inductive Doc where
  | nil
  | leaf (kind : Leaf) (start stop : Nat) (rest : Doc)
  | node (tag : Tag) (start stop : Nat) (inner rest : Doc)

def Doc.events : Doc → List RangedEvent
  | .nil => []
  | .leaf kind a b rest => ⟨.leaf kind, a, b⟩ :: rest.events
  | .node tag a b inner rest =>
    ⟨.start tag, a, b⟩ :: (inner.events ++ ⟨.stop tag, a, b⟩ :: rest.events)

/-- Ranges lie inside the enclosing range, siblings are disjoint and in order. -/
def Doc.WellNested (src : Str) (lo hi : Nat) : Doc → Prop
  | .nil => lo ≤ hi
  | .leaf _ a b rest =>
    lo ≤ a ∧ (∃ raw, slice src a b = some raw) ∧ b ≤ hi ∧ rest.WellNested src b hi
  | .node _ a b inner rest =>
    lo ≤ a ∧ (∃ raw, slice src a b = some raw) ∧ b ≤ hi ∧ inner.WellNested src a b ∧
      rest.WellNested src b hi

instance (src : Str) (a b : Nat) : Decidable (∃ raw, slice src a b = some raw) :=
  decidable_of_iff ((slice src a b).isSome = true) Option.isSome_iff_exists

instance Doc.decidableWellNested (src : Str) :
    (d : Doc) → (lo hi : Nat) → Decidable (d.WellNested src lo hi)
  | .nil, lo, hi => inferInstanceAs (Decidable (lo ≤ hi))
  | .leaf _ _ b rest, _, hi =>
    have := Doc.decidableWellNested src rest b hi
    inferInstanceAs (Decidable (_ ∧ _ ∧ _ ∧ _))
  | .node _ a b inner rest, _, hi =>
    have := Doc.decidableWellNested src inner a b
    have := Doc.decidableWellNested src rest b hi
    inferInstanceAs (Decidable (_ ∧ _ ∧ _ ∧ _ ∧ _))

theorem Doc.WellNested.le {src : Str} {lo hi : Nat} {d : Doc} (h : d.WellNested src lo hi) :
    lo ≤ hi := by
  cases d with
  | nil => exact h
  | leaf kind a b rest =>
    obtain ⟨hlo, ⟨raw, hraw⟩, hhi, _⟩ := h
    have := slice_stop hraw
    omega
  | node tag a b inner rest =>
    obtain ⟨hlo, ⟨raw, hraw⟩, hhi, _⟩ := h
    have := slice_stop hraw
    omega

/-- A source range that is emitted as a block. -/
inductive Emission where
  | whole (start stop : Nat)
  | own (start stop : Nat)
  | heading (start stop : Nat)

def Emission.span? (src : Str) : Emission → Option Span
  | .whole a b => inkSpan src a b
  | .own a b => ownSpan src a b
  | .heading a b => titleSpan src a b

def emittedSpans (src : Str) (l : List Emission) : List Span := l.filterMap (Emission.span? src)

theorem emittedSpans_append (src : Str) (l l' : List Emission) :
    emittedSpans src (l ++ l') = emittedSpans src l ++ emittedSpans src l' :=
  List.filterMap_append

theorem emittedSpans_single (src : Str) (em : Emission) :
    emittedSpans src [em] = (em.span? src).toList := by
  unfold emittedSpans
  cases h : em.span? src <;> simp [h]

/-- What a forest emits before and after its first child that clamps an open list item, and
where that child starts. -/
structure Scan where
  before : List Emission
  clamp : Option Nat
  after : List Emission
  settled : clamp = none → after = []

namespace Scan

def nil : Scan := ⟨[], none, [], fun _ => rfl⟩

def seq (x y : Scan) : Scan :=
  match hx : x.clamp with
  | none => ⟨x.before ++ y.before, y.clamp, y.after, y.settled⟩
  | some c => ⟨x.before, some c, x.after ++ y.before ++ y.after, by simp⟩

def all (x : Scan) : List Emission := x.before ++ x.after

/-- The own text of the item opened at `p`, if the forest clamps it. -/
def own (x : Scan) (p : Option Nat) : List Emission :=
  match x.clamp, p with
  | some c, some a => [.own a c]
  | _, _ => []

/-- All emissions of the forest when the innermost open item, if any, starts at `p`. -/
def emit (x : Scan) (p : Option Nat) : List Emission := x.before ++ (x.own p ++ x.after)

/-- The item that is still open after the forest. -/
def pending (x : Scan) (p : Option Nat) : Option Nat := if x.clamp = none then p else none

@[simp] theorem emit_none (x : Scan) : x.emit none = x.all := by
  unfold emit all own
  cases x.clamp <;> rfl

@[simp] theorem pending_none (x : Scan) : x.pending none = none := by simp [pending]

theorem all_seq (x y : Scan) : (x.seq y).all = x.all ++ y.all := by
  unfold seq all
  split
  · rename_i hx
    simp [x.settled hx]
  · simp

theorem seq_clamp (x y : Scan) : (x.seq y).clamp = x.clamp.or y.clamp := by
  unfold seq
  split
  · rename_i hx
    simp [hx]
  · rename_i c hx
    simp [hx]

theorem emit_seq (x y : Scan) (p : Option Nat) :
    (x.seq y).emit p = x.emit p ++ y.emit (x.pending p) := by
  unfold seq
  split
  · rename_i hx
    simp [emit, own, pending, hx, x.settled hx]
  · rename_i c hx
    cases p <;> simp [emit, own, pending, hx]

end Scan

/-- The emissions of a tagged node, given those of its content. -/
def nodeScan (tag : Tag) (a b : Nat) (inner : Scan) : Scan :=
  match tag with
  | .paragraph | .codeBlock => ⟨[], some a, inner.all ++ [.whole a b], by simp⟩
  | .list => ⟨[], some a, inner.all, by simp⟩
  | .table => ⟨[], some a, [.whole a b], by simp⟩
  | .htmlBlock => ⟨[], some a, .whole a b :: inner.all, by simp⟩
  | .heading _ => ⟨inner.all ++ [.heading a b], none, [], fun _ => rfl⟩
  | .item =>
    ⟨inner.before ++ .own a (inner.clamp.getD b) :: inner.after, none, [], fun _ => rfl⟩
  | _ => inner

def scan : Doc → Scan
  | .nil => Scan.nil
  | .leaf _ _ _ rest => scan rest
  | .node tag a b inner rest => (nodeScan tag a b (scan inner)).seq (scan rest)

end Trees

section Run

variable {src : Str}

/-- The start of the innermost context when that is a list item not yet emitted. -/
def pendingItem : List OpenContext → Option Nat
  | ⟨.listItem false, a, _⟩ :: _ => some a
  | _ => none

/-- The contexts once the pending item is emitted. -/
def settle : List OpenContext → List OpenContext
  | ⟨.listItem false, a, path⟩ :: outer => ⟨.listItem true, a, path⟩ :: outer
  | ctxs => ctxs

theorem pendingItem_settle (ctxs : List OpenContext) : pendingItem (settle ctxs) = none := by
  fun_cases settle ctxs with
  | case1 a path outer => rfl
  | case2 ctxs h =>
    unfold pendingItem
    split
    · rename_i a path outer
      exact absurd rfl (h a path outer)
    · rfl

theorem settle_settle (ctxs : List OpenContext) : settle (settle ctxs) = settle ctxs := by
  fun_cases settle ctxs with
  | case1 a path outer => rfl
  | case2 ctxs h => exact settle.eq_2 ctxs h

/-- The contexts after a forest. -/
def settleIf (clamp : Option Nat) (ctxs : List OpenContext) : List OpenContext :=
  if clamp = none then ctxs else settle ctxs

theorem pendingItem_settleIf (x : Scan) (ctxs : List OpenContext) :
    pendingItem (settleIf x.clamp ctxs) = x.pending (pendingItem ctxs) := by
  unfold settleIf Scan.pending
  split
  · rfl
  · exact pendingItem_settle ctxs

theorem settleIf_seq (x y : Scan) (ctxs : List OpenContext) :
    settleIf y.clamp (settleIf x.clamp ctxs) = settleIf (x.seq y).clamp ctxs := by
  rw [Scan.seq_clamp]
  unfold settleIf
  cases x.clamp with
  | none => rfl
  | some c =>
    simp only [reduceCtorEq, if_false, Option.some_or]
    split
    · rfl
    · exact settle_settle ctxs

/-- The events take the machine from `st` to `st'`, emitting exactly the given ranges. -/
structure Emits (src : Str) (events : List RangedEvent) (st st' : MdState)
    (emissions : List Emission) : Prop where
  run : events.foldlM (markdownStep src) st = .ok st'
  blocks : ∃ new, st'.blocks = st.blocks ++ new ∧
    new.map Block.span = emittedSpans src emissions ∧ ∀ b ∈ new, b.Verbatim src

theorem Emits.nil (st : MdState) : Emits src [] st st [] :=
  ⟨rfl, [], by simp, rfl, by simp⟩

theorem Emits.append {evs evs' : List RangedEvent} {st st' st'' : MdState}
    {l l' : List Emission} (h : Emits src evs st st' l) (h' : Emits src evs' st' st'' l') :
    Emits src (evs ++ evs') st st'' (l ++ l') := by
  obtain ⟨new, hnew, hspans, hverb⟩ := h.blocks
  obtain ⟨new', hnew', hspans', hverb'⟩ := h'.blocks
  refine ⟨?_, new ++ new', ?_, ?_, ?_⟩
  · rw [List.foldlM_append, h.run]
    exact h'.run
  · rw [hnew', hnew, List.append_assoc]
  · rw [List.map_append, hspans, hspans', emittedSpans_append]
  · intro b hb
    rcases List.mem_append.mp hb with hb | hb
    · exact hverb b hb
    · exact hverb' b hb

/-- A single step that appends the blocks of the given emissions. -/
theorem emits_step {ev : RangedEvent} {st st' : MdState} {l : List Emission} {new : List Block}
    (h : markdownStep src st ev = .ok st') (hb : st'.blocks = st.blocks ++ new)
    (hs : new.map Block.span = emittedSpans src l) (hv : ∀ b ∈ new, b.Verbatim src) :
    Emits src [ev] st st' l := by
  refine ⟨?_, new, hb, hs, hv⟩
  rw [List.foldlM_cons, h]
  rfl

theorem emits_silent {ev : RangedEvent} {st st' : MdState}
    (h : markdownStep src st ev = .ok st') (hb : st'.blocks = st.blocks) :
    Emits src [ev] st st' [] :=
  emits_step (l := []) h (show _ = _ ++ [] by simp [hb]) rfl (by simp)

/-- The item still open, if any, starts at a boundary at or before `lo`. -/
def PendingBefore (src : Str) (lo : Nat) (ctxs : List OpenContext) : Prop :=
  ∀ p, pendingItem ctxs = some p → IsBoundary src p ∧ p ≤ lo

theorem PendingBefore.mono {lo lo' : Nat} {ctxs : List OpenContext}
    (h : PendingBefore src lo ctxs) (hle : lo ≤ lo') : PendingBefore src lo' ctxs :=
  fun p hp => ⟨(h p hp).1, Nat.le_trans (h p hp).2 hle⟩

theorem PendingBefore.settleIf {lo : Nat} {ctxs : List OpenContext} {clamp : Option Nat}
    (h : PendingBefore src lo ctxs) : PendingBefore src lo (settleIf clamp ctxs) := by
  unfold LensLM.settleIf
  split
  · exact h
  · intro p hp
    rw [pendingItem_settle] at hp
    cases hp

/-- The own text of the pending item, clamped at `a`. -/
def ownBefore (ctxs : List OpenContext) (a : Nat) : List Emission :=
  match pendingItem ctxs with
  | some p => [.own p a]
  | none => []

theorem emitItemOwnText_ok {st : MdState} {a : Nat} (ha : IsBoundary src a)
    (hp : PendingBefore src a st.ctxStack) :
    ∃ new, emitItemOwnTextBeforeChild src st a =
        .ok { st with blocks := st.blocks ++ new, ctxStack := settle st.ctxStack } ∧
      new.map Block.span = emittedSpans src (ownBefore st.ctxStack a) ∧
      ∀ b ∈ new, b.Verbatim src := by
  unfold emitItemOwnTextBeforeChild
  split
  · rename_i start path outer hctx
    have hpend : pendingItem st.ctxStack = some start := by
      rw [hctx]
      rfl
    obtain ⟨hb, hle⟩ := hp start hpend
    obtain ⟨raw, hraw⟩ := exists_slice hb ha hle
    obtain ⟨new, hok, hspans, hverb⟩ := emitOwnText_appends hraw path st.blocks
    refine ⟨new, ?_, ?_, hverb⟩
    · rw [hok, hctx]
      rfl
    · rw [hspans, ownBefore, hpend, emittedSpans_single]
      rfl
  · rename_i hctx
    have hpend : pendingItem st.ctxStack = none := by
      unfold pendingItem
      split
      · rename_i start path outer heq
        exact absurd heq (hctx start path outer)
      · rfl
    refine ⟨[], ?_, by rw [ownBefore, hpend]; rfl, by simp⟩
    rw [settle.eq_2 st.ctxStack hctx, List.append_nil]

end Run

section Nodes

variable {src : Str} {a b : Nat} {inner : Doc}

theorem markdownStep_start {st : MdState} (h0 : st.tableDepth = 0) (tag : Tag) :
    markdownStep src st ⟨.start tag, a, b⟩ = openTag src st tag a b := by
  simp [markdownStep, h0]

theorem markdownStep_stop {st : MdState} (h0 : st.tableDepth = 0) (tag : Tag) :
    markdownStep src st ⟨.stop tag, a, b⟩ = closeTag src st tag b := by
  simp [markdownStep, h0]

theorem markdownStep_leaf {st : MdState} (kind : Leaf) :
    markdownStep src st ⟨.leaf kind, a, b⟩ = .ok st := by
  unfold markdownStep
  split <;> rfl

/-- Inside a table every event only keeps the depth. -/
theorem run_in_table (d : Doc) {st : MdState} (h : 0 < st.tableDepth) :
    d.events.foldlM (markdownStep src) st = .ok st := by
  induction d generalizing st with
  | nil => rfl
  | leaf kind a b rest ih =>
    rw [Doc.events, List.foldlM_cons, markdownStep_leaf]
    exact ih h
  | node tag a b inner rest ihi ihr =>
    rw [Doc.events, List.foldlM_cons]
    by_cases ht : tag = .table
    · subst ht
      have hstart : markdownStep src st ⟨.start .table, a, b⟩ =
          .ok { st with tableDepth := st.tableDepth + 1 } := by
        simp [markdownStep, h]
      have hstop : markdownStep src { st with tableDepth := st.tableDepth + 1 }
          ⟨.stop .table, a, b⟩ = .ok st := by
        simp [markdownStep]
      rw [hstart]
      show List.foldlM (markdownStep src) _ _ = _
      rw [List.foldlM_append, ihi (by simp)]
      show List.foldlM (markdownStep src) _ _ = _
      rw [List.foldlM_cons, hstop]
      exact ihr h
    · have hstart : markdownStep src st ⟨.start tag, a, b⟩ = .ok st := by
        cases tag <;> simp_all [markdownStep]
      have hstop : markdownStep src st ⟨.stop tag, a, b⟩ = .ok st := by
        cases tag <;> simp_all [markdownStep]
      rw [hstart]
      show List.foldlM (markdownStep src) _ _ = _
      rw [List.foldlM_append, ihi h]
      show List.foldlM (markdownStep src) _ _ = _
      rw [List.foldlM_cons, hstop]
      exact ihr h

/-- What a forest does to a machine outside tables. -/
def Runs (src : Str) (events : List RangedEvent) (sc : Scan) (lo : Nat) : Prop :=
  ∀ st : MdState, st.tableDepth = 0 → PendingBefore src lo st.ctxStack →
    ∃ st', Emits src events st st' (sc.emit (pendingItem st.ctxStack)) ∧ st'.tableDepth = 0 ∧
      st'.ctxStack = settleIf sc.clamp st.ctxStack

/-- The events of a node around those of its content. -/
def nodeEvents (tag : Tag) (a b : Nat) (inner : Doc) : List RangedEvent :=
  ⟨.start tag, a, b⟩ :: (inner.events ++ [⟨.stop tag, a, b⟩])

theorem runs_transparent {tag : Tag} (hi : Runs src inner.events (scan inner) a)
    (hopen : ∀ st, openTag src st tag a b = .ok st)
    (hclose : ∀ st, closeTag src st tag b = .ok st) :
    Runs src (nodeEvents tag a b inner) (scan inner) a := by
  intro st h0 hp
  obtain ⟨st₁, he, hd, hc⟩ := hi st h0 hp
  have hs : Emits src [⟨.start tag, a, b⟩] st st [] :=
    emits_silent ((markdownStep_start h0 tag).trans (hopen st)) rfl
  have ht : Emits src [⟨.stop tag, a, b⟩] st₁ st₁ [] :=
    emits_silent ((markdownStep_stop hd tag).trans (hclose st₁)) rfl
  exact ⟨st₁, by simpa [nodeEvents] using hs.append (he.append ht), hd, hc⟩

/-- The state once the pending item is clamped and the given blocks are appended. -/
def clamped (st : MdState) (new : List Block) : MdState :=
  { st with blocks := st.blocks ++ new, ctxStack := settle st.ctxStack }

theorem own_eq_ownBefore {sc : Scan} (hc : sc.clamp = some a) (ctxs : List OpenContext) :
    sc.own (pendingItem ctxs) = ownBefore ctxs a := by
  unfold Scan.own ownBefore
  rw [hc]
  cases pendingItem ctxs <;> rfl

/-- A paragraph or a code block: clamp, open a context, close it with the whole range. -/
theorem runs_leafBlock {tag : Tag} {context : BlockContext} {ty : BlockType} {raw : Str}
    (hi : Runs src inner.events (scan inner) a) (hraw : slice src a b = some raw)
    (hscan : nodeScan tag a b (scan inner) =
      ⟨[], some a, (scan inner).all ++ [.whole a b], by simp⟩)
    (hcontext : ∀ e, context ≠ .listItem e)
    (hopen : ∀ st, openTag src st tag a b =
      (emitItemOwnTextBeforeChild src st a).map fun st => st.open context a)
    (hclose : ∀ st path outer, st.ctxStack = ⟨context, a, path⟩ :: outer →
      closeTag src st tag b = (emitBlock src ty path a b st.blocks).map fun blocks =>
        { st with blocks := blocks, ctxStack := outer }) :
    Runs src (nodeEvents tag a b inner) (nodeScan tag a b (scan inner)) a := by
  intro st h0 hp
  have hab := slice_stop hraw
  obtain ⟨new, hown, hspans, hverb⟩ :=
    emitItemOwnText_ok (slice_left_boundary hraw) hp
  have hs : Emits src [⟨.start tag, a, b⟩] st ((clamped st new).open context a)
      (ownBefore st.ctxStack a) := by
    refine emits_step ?_ rfl hspans hverb
    rw [markdownStep_start h0, hopen, hown]
    rfl
  have hnone : pendingItem ((clamped st new).open context a).ctxStack = none := by
    unfold pendingItem
    split
    · rename_i heq
      simp only [MdState.open, List.cons.injEq, OpenContext.mk.injEq] at heq
      exact absurd heq.1.1 (hcontext false)
    · rfl
  have hsettle : settle ((clamped st new).open context a).ctxStack =
      ((clamped st new).open context a).ctxStack := by
    apply settle.eq_2
    intro start path outer heq
    simp only [MdState.open, List.cons.injEq, OpenContext.mk.injEq] at heq
    exact hcontext false heq.1.1
  obtain ⟨st₂, he, hd, hc⟩ := hi ((clamped st new).open context a) h0 (by
    intro p hp'
    rw [hnone] at hp'
    cases hp')
  have hctx : st₂.ctxStack = ⟨context, a, st.headingStack.current⟩ :: settle st.ctxStack := by
    rw [hc]
    unfold settleIf
    split
    · rfl
    · exact hsettle
  obtain ⟨new', hok, hspans', hverb'⟩ :=
    emitBlock_appends hraw ty st.headingStack.current st₂.blocks
  have ht : Emits src [⟨.stop tag, a, b⟩] st₂
      { st₂ with blocks := st₂.blocks ++ new', ctxStack := settle st.ctxStack }
      [.whole a b] := by
    refine emits_step ?_ rfl ?_ hverb'
    · rw [markdownStep_stop hd, hclose st₂ _ _ hctx, hok]
      rfl
    · rw [hspans', emittedSpans_single]
      rfl
  refine ⟨{ st₂ with blocks := st₂.blocks ++ new', ctxStack := settle st.ctxStack }, ?_, hd, ?_⟩
  · have hall := hs.append (he.append ht)
    rw [hnone, Scan.emit_none] at hall
    rw [Scan.emit, own_eq_ownBefore (by rw [hscan]), hscan]
    exact hall
  · rw [hscan]
    rfl

/-- A list or an HTML block: clamp, emit at the start, leave the contexts alone. -/
theorem runs_clampContainer {tag : Tag} (pre : List Emission)
    (emitPre : MdState → Except Fault (List Block))
    (hi : Runs src inner.events (scan inner) a) (ha : IsBoundary src a)
    (hscan : nodeScan tag a b (scan inner) = ⟨[], some a, pre ++ (scan inner).all, by simp⟩)
    (hpre : ∀ st : MdState, Appends src (emitPre st) st.blocks (emittedSpans src pre))
    (hopen : ∀ st, openTag src st tag a b = (emitItemOwnTextBeforeChild src st a).bind fun st =>
      (emitPre st).map fun blocks => { st with blocks := blocks })
    (hclose : ∀ st, closeTag src st tag b = .ok st) :
    Runs src (nodeEvents tag a b inner) (nodeScan tag a b (scan inner)) a := by
  intro st h0 hp
  obtain ⟨new, hown, hspans, hverb⟩ := emitItemOwnText_ok ha hp
  obtain ⟨new', hok, hspans', hverb'⟩ := hpre (clamped st new)
  have hs : Emits src [⟨.start tag, a, b⟩] st (clamped st (new ++ new'))
      (ownBefore st.ctxStack a ++ pre) := by
    refine emits_step ?_ rfl ?_ ?_
    · rw [markdownStep_start h0, hopen, hown]
      show (emitPre (clamped st new)).map _ = _
      rw [hok]
      simp [clamped, Except.map]
    · rw [List.map_append, hspans, hspans', emittedSpans_append]
    · intro x hx
      rcases List.mem_append.mp hx with hx | hx
      · exact hverb x hx
      · exact hverb' x hx
  have hnone : pendingItem (clamped st (new ++ new')).ctxStack = none :=
    pendingItem_settle st.ctxStack
  obtain ⟨st₂, he, hd, hc⟩ := hi (clamped st (new ++ new')) h0 (by
    intro p hp'
    rw [hnone] at hp'
    cases hp')
  have hctx : st₂.ctxStack = settle st.ctxStack := by
    rw [hc]
    unfold settleIf
    split
    · rfl
    · exact settle_settle st.ctxStack
  have ht : Emits src [⟨.stop tag, a, b⟩] st₂ st₂ [] :=
    emits_silent ((markdownStep_stop hd tag).trans (hclose st₂)) rfl
  refine ⟨st₂, ?_, hd, ?_⟩
  · have hall := hs.append (he.append ht)
    rw [hnone, Scan.emit_none, List.append_nil] at hall
    rw [Scan.emit, own_eq_ownBefore (by rw [hscan]), hscan]
    simpa [nodeEvents] using hall
  · rw [hctx, hscan]
    rfl

/-- A table: clamp, emit the whole range, swallow the content. -/
theorem runs_table {raw : Str} (hraw : slice src a b = some raw) :
    Runs src (nodeEvents .table a b inner) (nodeScan .table a b (scan inner)) a := by
  intro st h0 hp
  obtain ⟨new, hown, hspans, hverb⟩ :=
    emitItemOwnText_ok (slice_left_boundary hraw) hp
  obtain ⟨new', hok, hspans', hverb'⟩ := emitBlock_appends hraw .table
    st.headingStack.current (st.blocks ++ new)
  have hs : Emits src [⟨.start .table, a, b⟩] st
      { clamped st (new ++ new') with tableDepth := 1 }
      (ownBefore st.ctxStack a ++ [.whole a b]) := by
    refine emits_step ?_ rfl ?_ ?_
    · rw [markdownStep_start h0]
      show (emitItemOwnTextBeforeChild src st a).bind _ = _
      rw [hown]
      show (emitBlock src .table st.headingStack.current a b (st.blocks ++ new)).bind _ = _
      rw [hok]
      simp [clamped, Except.bind, Pure.pure, Except.pure, h0]
    · rw [List.map_append, hspans, hspans', emittedSpans_append, emittedSpans_single]
      rfl
    · intro x hx
      rcases List.mem_append.mp hx with hx | hx
      · exact hverb x hx
      · exact hverb' x hx
  have hi : Emits src inner.events { clamped st (new ++ new') with tableDepth := 1 }
      { clamped st (new ++ new') with tableDepth := 1 } [] :=
    ⟨run_in_table inner (by simp), [], by simp, rfl, by simp⟩
  have ht : Emits src [⟨.stop .table, a, b⟩] { clamped st (new ++ new') with tableDepth := 1 }
      { clamped st (new ++ new') with tableDepth := 0 } [] :=
    emits_silent rfl rfl
  refine ⟨{ clamped st (new ++ new') with tableDepth := 0 }, ?_, rfl, rfl⟩
  have hall := hs.append (hi.append ht)
  rw [Scan.emit, own_eq_ownBefore rfl]
  simpa [nodeEvents, nodeScan] using hall

/-- Closing a heading appends its title, unless that is empty. -/
theorem closeHeading_appends {raw : Str} (hraw : slice src a b = some raw) (st : MdState)
    (level : Nat) :
    ∃ new, closeHeading src st level a b = .ok { st with
        blocks := st.blocks ++ new
        headingStack := st.headingStack.push level (extractHeadingText ⟨a, raw⟩).text } ∧
      new.map Block.span = (titleSpan src a b).toList ∧ ∀ x ∈ new, x.Verbatim src := by
  obtain ⟨hin, _⟩ := extractHeadingText_in ⟨a, raw⟩
  have hsub := subslice_of_in hraw hin
  unfold closeHeading titleSpan
  by_cases hempty : (extractHeadingText ⟨a, raw⟩).text = []
  · refine ⟨[], ?_, by simp [hraw, hempty], by simp⟩
    simp only [sliceBytes_of_slice hraw, Bind.bind, Except.bind, locateInSrc, hempty,
      List.isEmpty_nil, if_true, Nat.lt_irrefl, if_false, List.append_nil]
    rfl
  · have hpos := byteLen_pos hempty
    refine ⟨[⟨.heading, (st.headingStack.push level (extractHeadingText ⟨a, raw⟩).text).current,
      (extractHeadingText ⟨a, raw⟩).text, (extractHeadingText ⟨a, raw⟩).offset,
      (extractHeadingText ⟨a, raw⟩).offset + byteLen (extractHeadingText ⟨a, raw⟩).text⟩],
      ?_, by simp [hraw, hempty, Block.span], by simpa [Block.Verbatim] using hsub⟩
    simp only [sliceBytes_of_slice hraw, Bind.bind, Except.bind,
      locateInSrc_of_in hraw hin hempty]
    rw [if_pos (by omega)]
    rfl

/-- A heading: its title is emitted when it closes. -/
theorem runs_heading {level : Nat} {raw : Str} (hi : Runs src inner.events (scan inner) a)
    (hraw : slice src a b = some raw) :
    Runs src (nodeEvents (.heading level) a b inner)
      (nodeScan (.heading level) a b (scan inner)) a := by
  intro st h0 hp
  have hs : Emits src [⟨.start (.heading level), a, b⟩] st (st.open .heading a) [] :=
    emits_silent (markdownStep_start h0 _) rfl
  obtain ⟨st₂, he, hd, hc⟩ := hi (st.open .heading a) h0 (by
    intro p hp'
    cases hp')
  have hctx : st₂.ctxStack = ⟨.heading, a, st.headingStack.current⟩ :: st.ctxStack := by
    rw [hc]
    unfold settleIf
    split
    · rfl
    · rfl
  have hclose : closeTag src st₂ (.heading level) b =
      closeHeading src { st₂ with ctxStack := st.ctxStack } level a b := by
    unfold closeTag
    rw [hctx]
  obtain ⟨new, hok, hspans, hverb⟩ :=
    closeHeading_appends hraw { st₂ with ctxStack := st.ctxStack } level
  have ht : Emits src [⟨.stop (.heading level), a, b⟩] st₂ { st₂ with
      blocks := st₂.blocks ++ new
      headingStack := st₂.headingStack.push level (extractHeadingText ⟨a, raw⟩).text
      ctxStack := st.ctxStack } [.heading a b] := by
    refine emits_step ?_ rfl ?_ hverb
    · rw [markdownStep_stop hd, hclose, hok]
    · rw [hspans, emittedSpans_single]
      rfl
  refine ⟨{ st₂ with
    blocks := st₂.blocks ++ new
    headingStack := st₂.headingStack.push level (extractHeadingText ⟨a, raw⟩).text
    ctxStack := st.ctxStack }, ?_, hd, rfl⟩
  have hall := hs.append (he.append ht)
  rw [show pendingItem (st.open .heading a).ctxStack = none from rfl, Scan.emit_none] at hall
  simpa [nodeEvents, nodeScan, Scan.emit, Scan.own] using hall

/-- A list item: its own text is emitted at the first clamping child, or when it closes. -/
theorem runs_item {raw : Str} (hi : Runs src inner.events (scan inner) a)
    (hraw : slice src a b = some raw) :
    Runs src (nodeEvents .item a b inner) (nodeScan .item a b (scan inner)) a := by
  intro st h0 hp
  have hs : Emits src [⟨.start .item, a, b⟩] st (st.open (.listItem false) a) [] :=
    emits_silent (markdownStep_start h0 _) rfl
  have hpend : pendingItem (st.open (.listItem false) a).ctxStack = some a := rfl
  obtain ⟨st₂, he, hd, hc⟩ := hi (st.open (.listItem false) a) h0 (by
    intro p hp'
    obtain rfl := Option.some.inj (hpend.symm.trans hp')
    exact ⟨slice_left_boundary hraw, Nat.le_refl _⟩)
  rw [hpend] at he
  cases hclamp : (scan inner).clamp with
  | some c =>
    have hctx : st₂.ctxStack = ⟨.listItem true, a, st.headingStack.current⟩ :: st.ctxStack := by
      rw [hc, hclamp]
      rfl
    have ht : Emits src [⟨.stop .item, a, b⟩] st₂ { st₂ with ctxStack := st.ctxStack } [] := by
      refine emits_silent ?_ rfl
      rw [markdownStep_stop hd]
      unfold closeTag
      rw [hctx]
    refine ⟨{ st₂ with ctxStack := st.ctxStack }, ?_, hd, rfl⟩
    have hall := hs.append (he.append ht)
    simpa [nodeEvents, nodeScan, Scan.emit, Scan.own, hclamp] using hall
  | none =>
    have hctx : st₂.ctxStack = ⟨.listItem false, a, st.headingStack.current⟩ :: st.ctxStack := by
      rw [hc, hclamp]
      rfl
    obtain ⟨new, hok, hspans, hverb⟩ :=
      emitOwnText_appends hraw st.headingStack.current st₂.blocks
    have ht : Emits src [⟨.stop .item, a, b⟩] st₂
        { st₂ with blocks := st₂.blocks ++ new, ctxStack := st.ctxStack } [.own a b] := by
      refine emits_step ?_ rfl ?_ hverb
      · rw [markdownStep_stop hd]
        unfold closeTag
        rw [hctx]
        simp only [hok, Bind.bind, Except.bind]
        rfl
      · rw [hspans, emittedSpans_single]
        rfl
    refine ⟨{ st₂ with blocks := st₂.blocks ++ new, ctxStack := st.ctxStack }, ?_, hd, rfl⟩
    have hall := hs.append (he.append ht)
    simpa [nodeEvents, nodeScan, Scan.emit, Scan.own, hclamp, (scan inner).settled hclamp]
      using hall

theorem runs_node {tag : Tag} {raw : Str} (hi : Runs src inner.events (scan inner) a)
    (hraw : slice src a b = some raw) :
    Runs src (nodeEvents tag a b inner) (nodeScan tag a b (scan inner)) a := by
  cases tag with
  | paragraph =>
    exact runs_leafBlock hi hraw rfl (by simp) (fun st => rfl) fun st path outer h => by
      simp only [closeTag, h]
      rfl
  | codeBlock =>
    exact runs_leafBlock hi hraw rfl (by simp) (fun st => rfl) fun st path outer h => by
      simp only [closeTag, h]
      rfl
  | list =>
    exact runs_clampContainer [] (fun st => .ok st.blocks) hi (slice_left_boundary hraw) rfl
      (fun st => appends_nothing) (fun st => rfl) fun st => rfl
  | htmlBlock =>
    refine runs_clampContainer [.whole a b]
      (fun st => emitBlock src .html st.headingStack.current a b st.blocks) hi
      (slice_left_boundary hraw) rfl ?_ (fun st => rfl) fun st => rfl
    intro st
    rw [emittedSpans_single]
    exact emitBlock_appends hraw _ _ _
  | table => exact runs_table hraw
  | heading level => exact runs_heading hi hraw
  | item => exact runs_item hi hraw
  | _ => exact runs_transparent hi (fun st => rfl) fun st => rfl

/-- The machine emits exactly what the scan of the forest says. -/
theorem run_doc {lo hi : Nat} (d : Doc) (h : d.WellNested src lo hi) :
    Runs src d.events (scan d) lo := by
  induction d generalizing lo hi with
  | nil =>
    intro st h0 hp
    exact ⟨st, Emits.nil st, h0, rfl⟩
  | leaf kind a b rest ih =>
    intro st h0 hp
    obtain ⟨hlo, ⟨raw, hraw⟩, hhi, hrest⟩ := h
    have hle := slice_stop hraw
    obtain ⟨st', he, hd, hc⟩ := ih hrest st h0 (hp.mono (by omega))
    have hs : Emits src [⟨.leaf kind, a, b⟩] st st [] :=
      emits_silent (markdownStep_leaf kind) rfl
    exact ⟨st', hs.append he, hd, hc⟩
  | node tag a b inner rest ihi ihr =>
    intro st h0 hp
    obtain ⟨hlo, ⟨raw, hraw⟩, hhi, hinner, hrest⟩ := h
    have hle := slice_stop hraw
    obtain ⟨st₁, he, hd, hc⟩ := runs_node (ihi hinner) hraw st h0 (hp.mono hlo)
    obtain ⟨st₂, he', hd', hc'⟩ := ihr hrest st₁ hd (by
      rw [hc]
      exact (hp.mono (by omega : lo ≤ b)).settleIf)
    refine ⟨st₂, ?_, hd', ?_⟩
    · have hall := he.append he'
      rw [hc, pendingItem_settleIf, ← Scan.emit_seq] at hall
      simpa [Doc.events, nodeEvents, scan] using hall
    · rw [hc', hc, settleIf_seq]
      rfl

/-- The blocks of a document are verbatim, with the spans that the scan says. -/
theorem parseMarkdown_spans (d : Doc) (h : d.WellNested src 0 (byteLen src)) :
    ∃ blocks, parseMarkdown src d.events = .ok blocks ∧ (∀ b ∈ blocks, b.Verbatim src) ∧
      blocks.map Block.span = emittedSpans src (scan d).all := by
  obtain ⟨st, he, _, _⟩ := run_doc d h MdState.new rfl (by
    intro p hp
    cases hp)
  obtain ⟨new, hnew, hspans, hverb⟩ := he.blocks
  have hblocks : st.blocks = new := hnew
  refine ⟨st.blocks, ?_, by rw [hblocks]; exact hverb, ?_⟩
  · unfold parseMarkdown
    rw [he.run]
    rfl
  · rw [hblocks, hspans, ← Scan.emit_none]
    rfl

end Nodes

end LensLM
