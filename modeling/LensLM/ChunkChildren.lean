import LensLM.ChunkParents
import Mathlib.Logic.Relation

/-!
# Child packing

The children of a window are verbatim, lie inside it, ascend strictly and cover its blocks.
The only panic is a frontier that is forced forward by one byte into a character.
-/

namespace LensLM

open ByteText Spans Outcome

set_option autoImplicit false

structure ChildOn (src : Str) (win : ParentWindow) (parentId : String) (c : Chunk) : Prop where
  verbatim : slice src c.charStart c.charEnd = some c.text
  nonempty : c.charStart < c.charEnd
  within : c.span.Within win.span
  kind : c.kind = .child
  level : c.level = 1
  parent : c.parentId = some parentId

theorem ChildCtx.childOn (ctx : ChildCtx) {win : ParentWindow} {sectionPath text : Str}
    {a b ts te ord : Nat} {bt : Option BlockType} (hslice : slice ctx.src a b = some text)
    (hlt : a < b) (ha : win.charStart ≤ a) (hb : b ≤ win.charEnd) :
    ChildOn ctx.src win ctx.parentId (ctx.chunk sectionPath text a b bt ts te ord) :=
  ⟨hslice, hlt, ⟨ha, hb⟩, rfl, rfl, rfl⟩

/-- Finished children, strictly ascending, all of them ending at or before `m`. -/
structure ChildrenBefore (src : Str) (win : ParentWindow) (parentId : String)
    (children : List Chunk) (m : Nat) : Prop where
  on : ∀ c ∈ children, ChildOn src win parentId c
  ascending : Ascending (children.map Chunk.span)
  before : ∀ c ∈ children, c.charEnd ≤ m

namespace ChildrenBefore

variable {src : Str} {win : ParentWindow} {parentId : String} {children : List Chunk} {m m' : Nat}

theorem nil : ChildrenBefore src win parentId [] m := ⟨by simp, by simp, by simp⟩

theorem mono (h : ChildrenBefore src win parentId children m) (hm : m ≤ m') :
    ChildrenBefore src win parentId children m' :=
  ⟨h.on, h.ascending, fun c hc => Nat.le_trans (h.before c hc) hm⟩

theorem concat (h : ChildrenBefore src win parentId children m) {c : Chunk}
    (hc : ChildOn src win parentId c) (hm : m < c.charEnd)
    (hlast : ∀ p, children.getLast? = some p → p.charStart < c.charStart) :
    ChildrenBefore src win parentId (children ++ [c]) c.charEnd where
  on := Slots.forall_mem_push h.on hc
  ascending := by
    rw [List.map_append, List.map_singleton]
    refine h.ascending.concat fun s hs => ?_
    rw [List.getLast?_map] at hs
    obtain ⟨p, hp, rfl⟩ := Option.map_eq_some_iff.mp hs
    have := h.before p (List.mem_of_getLast? hp)
    exact ⟨hlast p hp, Nat.lt_of_le_of_lt this hm⟩
  before := by
    apply Slots.forall_mem_push
    · intro d hd
      have := h.before d hd
      omega
    · exact Nat.le_refl _

theorem last_verbatim (h : ChildrenBefore src win parentId children m) (p : Chunk)
    (hp : children.getLast? = some p) : slice src p.charStart p.charEnd = some p.text :=
  (h.on p (List.mem_of_getLast? hp)).verbatim

end ChildrenBefore

section SplitLoop

variable (ctx : ChildCtx) (win : ParentWindow) (block : Block) (limit blockEnd : Nat)

/-- One iteration of the oversized-child loop, between frontier and state. -/
def SplitNext (s s' : Nat × ChildPack) : Prop :=
  s.1 < blockEnd ∧ splitChildOnce ctx win block limit blockEnd s.1 s.2 = .ok s'

def SplitReaches : Nat × ChildPack → Nat × ChildPack → Prop :=
  Relation.ReflTransGen (SplitNext ctx win block limit blockEnd)

/-- The split point is not past the frontier, and the next byte is inside a character. -/
def CutsInsideChar (s : Nat × ChildPack) : Prop :=
  s.1 < blockEnd ∧ ∃ overlap remaining segLen,
    overlapBackOff ctx.src win s.2.children.getLast? ctx.tok = .ok overlap ∧
    slice ctx.src (windowStart overlap s.1) blockEnd = some remaining ∧
    findSplit ctx.tok limit remaining = .ok segLen ∧
    windowStart overlap s.1 + segLen ≤ s.1 ∧
    ¬ IsBoundary ctx.src (s.1 + 1)

/-- Some iteration that starts from `s` cuts inside a character. -/
def SplitHits (s : Nat × ChildPack) : Prop :=
  ∃ t, SplitReaches ctx win block limit blockEnd s t ∧ CutsInsideChar ctx win limit blockEnd t

variable {ctx win block limit blockEnd}

theorem splitChildFrom_next {consumed absEnd : Nat} {st st' : ChildPack}
    (h : SplitNext ctx win block limit blockEnd (consumed, st) (absEnd, st')) :
    splitChildFrom ctx win block limit blockEnd consumed st =
      splitChildFrom ctx win block limit blockEnd absEnd st' := by
  rw [splitChildFrom, if_pos h.1]
  split
  · rename_i e he
    exact absurd (he.symm.trans h.2) (by simp)
  · rename_i a s hs
    obtain ⟨rfl, rfl⟩ := Prod.mk.inj (Except.ok.inj (hs.symm.trans h.2))
    rfl

theorem splitChildFrom_done {consumed : Nat} {st : ChildPack} (h : ¬ consumed < blockEnd) :
    splitChildFrom ctx win block limit blockEnd consumed st = .ok st := by
  rw [splitChildFrom, if_neg h]

theorem splitChildFrom_fails {consumed : Nat} {st : ChildPack} {e : Fault}
    (hlt : consumed < blockEnd)
    (h : splitChildOnce ctx win block limit blockEnd consumed st = .error e) :
    splitChildFrom ctx win block limit blockEnd consumed st = .error e := by
  rw [splitChildFrom, if_pos hlt]
  split
  · rename_i e' he
    exact congrArg Except.error (Except.error.inj (he.symm.trans h))
  · rename_i a s hs
    exact absurd (hs.symm.trans h) (by simp)

/-- An invariant of one iteration holds when the loop ends. -/
theorem splitChildFrom_meets {I : Nat → ChildPack → Prop}
    (step : ∀ consumed st, consumed < blockEnd → I consumed st →
      Meets (splitChildOnce ctx win block limit blockEnd consumed st) (fun s => I s.1 s.2)
        (PanicOnlyIf (CutsInsideChar ctx win limit blockEnd (consumed, st))))
    {consumed : Nat} {st : ChildPack} (hI : I consumed st) :
    Meets (splitChildFrom ctx win block limit blockEnd consumed st)
      (fun st' => ∃ m, blockEnd ≤ m ∧ I m st')
      (PanicOnlyIf (SplitHits ctx win block limit blockEnd (consumed, st))) := by
  induction hd : blockEnd - consumed using Nat.strong_induction_on generalizing consumed st with
  | _ d ih =>
    by_cases hlt : consumed < blockEnd
    · cases hx : splitChildOnce ctx win block limit blockEnd consumed st with
      | error e =>
        rw [splitChildFrom_fails hlt hx]
        intro he
        exact ⟨_, .refl, (step consumed st hlt hI).failure hx he⟩
      | ok s =>
        obtain ⟨absEnd, st'⟩ := s
        have hnext : SplitNext ctx win block limit blockEnd (consumed, st) (absEnd, st') :=
          ⟨hlt, hx⟩
        have hprog := splitChildOnce_progress hx hlt
        rw [splitChildFrom_next hnext]
        refine (ih _ (by omega) ((step consumed st hlt hI).value hx) rfl).mono (fun _ h => h) ?_
        intro e he hp
        obtain ⟨t, ht, hcut⟩ := he hp
        exact ⟨t, Relation.ReflTransGen.head hnext ht, hcut⟩
    · rw [splitChildFrom_done hlt]
      exact ⟨consumed, by omega, hI⟩

theorem splitChildOnce_panic {consumed : Nat} {st : ChildPack}
    (h : CutsInsideChar ctx win limit blockEnd (consumed, st)) :
    splitChildOnce ctx win block limit blockEnd consumed st = .error .panic := by
  obtain ⟨hlt, overlap, remaining, segLen, hov, hrem, hseg, hle, hnb⟩ := h
  have hforce : forceProgress consumed (min (windowStart overlap consumed + segLen) blockEnd)
      blockEnd = consumed + 1 := by
    unfold forceProgress
    simp only at hle hlt
    rw [if_pos (by omega)]
    omega
  unfold splitChildOnce
  simp only [hov, Bind.bind, Except.bind, sliceBytes_of_slice hrem, hseg, hforce,
    sliceBytes_eq_panic hnb]

theorem splitChildFrom_panic {s : Nat × ChildPack}
    (h : SplitHits ctx win block limit blockEnd s) :
    splitChildFrom ctx win block limit blockEnd s.1 s.2 = .error .panic := by
  obtain ⟨t, hreach, hcut⟩ := h
  induction hreach using Relation.ReflTransGen.head_induction_on with
  | refl => exact splitChildFrom_fails hcut.1 (splitChildOnce_panic hcut)
  | head hnext _ ih => rw [splitChildFrom_next hnext, ih]

end SplitLoop

section Segments

variable {ctx : ChildCtx} {win : ParentWindow} {block : Block} {limit : Nat}

/-- Where the text of a hard-split child comes from. -/
inductive SegmentText (ctx : ChildCtx) (limit consumed : Nat) (last : Option Chunk) :
    Str → Prop
  | fits {text : Str} : Fits ctx.tok limit text ∨ text.length = 1 →
      SegmentText ctx limit consumed last text
  | forced {prev : Chunk} {ov : Nat} {tail gap : Str} {c : Char} : last = some prev →
      slice ctx.src ov prev.charEnd = some tail → Fits ctx.tok CHILD_OVERLAP_TOKENS tail →
      slice ctx.src prev.charEnd consumed = some gap →
      slice ctx.src consumed (consumed + 1) = some [c] →
      SegmentText ctx limit consumed last (tail ++ gap ++ [c])

/-- The invariant of the oversized-child loop that was entered in the state `st₀`. -/
structure SplitInv (ctx : ChildCtx) (win : ParentWindow) (block : Block) (st₀ : ChildPack)
    (consumed : Nat) (st : ChildPack) : Prop where
  children : ChildrenBefore ctx.src win ctx.parentId st.children consumed
  boundary : IsBoundary ctx.src consumed
  low : block.charStart ≤ consumed
  high : consumed ≤ block.charEnd
  acc : st.acc = st₀.acc
  pending : st.pendingOverlapStart = st₀.pendingOverlapStart
  keeps : ∀ n, Covers (st₀.children.map Chunk.span) n → Covers (st.children.map Chunk.span) n
  covered : ∀ n, block.charStart ≤ n → n < consumed → Covers (st.children.map Chunk.span) n

theorem SplitInv.push {st₀ st : ChildPack} {consumed : Nat} {c : Chunk}
    (h : SplitInv ctx win block st₀ consumed st) (hc : ChildOn ctx.src win ctx.parentId c)
    (hstart : c.charStart ≤ consumed) (hstop : consumed < c.charEnd)
    (hhigh : c.charEnd ≤ block.charEnd)
    (hlast : ∀ p, st.children.getLast? = some p → p.charStart < c.charStart) (toks : Nat) :
    SplitInv ctx win block st₀ c.charEnd { st with
      children := st.children ++ [c]
      runningTokenOffset := toks
      childOrdinal := st.childOrdinal + 1 } where
  children := h.children.concat hc hstop hlast
  boundary := slice_right_boundary hc.verbatim
  low := by
    have := h.low
    omega
  high := hhigh
  acc := h.acc
  pending := h.pending
  keeps := by
    intro n hn
    simp only [List.map_append]
    exact (h.keeps n hn).append_left
  covered := by
    intro n hlo hhi
    simp only [List.map_append, List.map_singleton, covers_concat]
    by_cases hn : n < consumed
    · exact Or.inl (h.covered n hlo hn)
    · exact Or.inr ⟨by simp only [Chunk.span]; omega, hhi⟩

/-- What the start of the next hard-split child satisfies. -/
structure WindowStart (ctx : ChildCtx) (win : ParentWindow) (st : ChildPack)
    (consumed ws : Nat) : Prop where
  boundary : IsBoundary ctx.src ws
  le : ws ≤ consumed
  inWindow : win.charStart ≤ ws
  later : ∀ p, st.children.getLast? = some p → p.charStart < ws
  overlapped : ws < consumed → ∃ prev tail, st.children.getLast? = some prev ∧
    slice ctx.src ws prev.charEnd = some tail ∧ Fits ctx.tok CHILD_OVERLAP_TOKENS tail

theorem SplitInv.windowStart {st₀ st : ChildPack} {consumed : Nat} {overlap : Option Nat}
    (h : SplitInv ctx win block st₀ consumed st) (hin : win.charStart ≤ block.charStart)
    (hov : ∀ ov, overlap = some ov → ∃ prev, st.children.getLast? = some prev ∧
      OverlapStart ctx.src ctx.tok win prev ov) :
    WindowStart ctx win st consumed (windowStart overlap consumed) := by
  have hlow := h.low
  have hfrontier : WindowStart ctx win st consumed consumed := by
    refine ⟨h.boundary, Nat.le_refl _, by omega, fun p hp => ?_, fun hlt => absurd hlt (by omega)⟩
    have hmem := List.mem_of_getLast? hp
    have := (h.children.on p hmem).nonempty
    have := h.children.before p hmem
    omega
  cases overlap with
  | none => exact hfrontier
  | some ov =>
    unfold LensLM.windowStart
    split
    · rename_i heq
      obtain rfl : ov = _ := Option.some.inj heq
      split
      · rename_i hlt
        obtain ⟨prev, hprev, ho⟩ := hov ov rfl
        obtain ⟨tail, htail, hfit⟩ := ho.tail
        have hw := (h.children.on prev (List.mem_of_getLast? hprev)).within.1
        have hafter := ho.after
        simp only [Chunk.span, ParentWindow.span] at hw
        refine ⟨slice_left_boundary htail, Nat.le_of_lt hlt, by omega, ?_,
          fun _ => ⟨prev, tail, hprev, htail, hfit⟩⟩
        intro p hp
        obtain rfl : prev = p := Option.some.inj (hprev.symm.trans hp)
        exact hafter
      · exact hfrontier
    · exact hfrontier

/-- One iteration emits one child past the frontier, or cuts inside a character. -/
theorem eq_singleton_of_byteLen {s : Str} (h : byteLen s = 1) : ∃ c, s = [c] := by
  cases s with
  | nil => simp at h
  | cons c s =>
    cases s with
    | nil => exact ⟨c, rfl⟩
    | cons d s =>
      have := Char.utf8Size_pos c
      have := Char.utf8Size_pos d
      simp only [byteLen_cons] at h
      omega

theorem splitChildOnce_meets {st₀ st : ChildPack} {consumed : Nat}
    (hv : block.Verbatim ctx.src) (hin : block.span.Within win.span)
    (h : SplitInv ctx win block st₀ consumed st) (hlt : consumed < block.charEnd) :
    Meets (splitChildOnce ctx win block limit block.charEnd consumed st)
      (fun s => SplitInv ctx win block st₀ s.1 s.2 ∧
        ∃ c, s.2.children = st.children ++ [c] ∧ s.1 = c.charEnd ∧
          SegmentText ctx limit consumed st.children.getLast? c.text)
      (PanicOnlyIf (CutsInsideChar ctx win limit block.charEnd (consumed, st))) := by
  unfold splitChildOnce
  refine (overlapBackOff_meets h.children.last_verbatim).bind fun overlap hover hov => ?_
  have hws := h.windowStart hin.1 hov
  generalize hwsd : windowStart overlap consumed = ws at hws ⊢
  obtain ⟨remaining, hrem⟩ := exists_slice hws.boundary (slice_right_boundary hv)
    (Nat.le_trans hws.le (Nat.le_of_lt hlt))
  refine (sliceBytes_meets hrem).bind fun u _ hu => ?_
  subst hu
  have hle := hws.le
  have hin1 := hin.1
  have hin2 := hin.2
  simp only [Block.span, ParentWindow.span] at hin1 hin2
  have hne : u ≠ [] := by
    rintro rfl
    have := slice_stop hrem
    simp only [byteLen_nil] at this
    omega
  refine (findSplit_meets hne).bind fun segLen hseg hsplit => ?_
  obtain ⟨pre, hpre, hprene, hfit⟩ := hsplit
  have hcut := slice_of_slice hrem hpre
  simp only [Nat.add_zero] at hcut
  have hcutle : ws + segLen ≤ block.charEnd := by
    have := SplitPoint.le ⟨pre, hpre, hprene, hfit⟩
    have := slice_stop hrem
    omega
  rw [Nat.min_eq_left hcutle]
  -- A child that ends at `stop` and starts at the window start extends the invariant.
  have extend : ∀ {stop : Nat} {text : Str} {ts te : Nat}, slice ctx.src ws stop = some text →
      consumed < stop → stop ≤ block.charEnd →
      SplitInv ctx win block st₀ stop { st with
        children := st.children ++ [ctx.chunk block.sectionPath text ws stop
          (some block.blockType) st.runningTokenOffset ts st.childOrdinal]
        runningTokenOffset := te
        childOrdinal := st.childOrdinal + 1 } := by
    intro stop text ts te hslice hgt hstop
    have hin := hws.inWindow
    exact h.push (c := ctx.chunk block.sectionPath text ws stop _ _ _ _)
      (ctx.childOn hslice (by omega) hin (by omega)) hle hgt hstop hws.later te
  by_cases hpast : consumed < ws + segLen
  · have hforce : forceProgress consumed (ws + segLen) block.charEnd = ws + segLen := by
      unfold forceProgress
      rw [if_neg (by omega)]
    rw [hforce]
    refine (sliceBytes_meets hcut).bind fun text _ ht => ?_
    subst ht
    refine (tokenCount_meets ctx.tok text _).bind fun toks _ _ => ?_
    exact ⟨extend hcut hpast hcutle, _, rfl, rfl, SegmentText.fits hfit⟩
  · have hforce : forceProgress consumed (ws + segLen) block.charEnd = consumed + 1 := by
      unfold forceProgress
      rw [if_pos (by omega)]
      omega
    rw [hforce]
    by_cases hb : IsBoundary ctx.src (consumed + 1)
    · obtain ⟨text, ht⟩ := exists_slice hws.boundary hb (by omega)
      refine (sliceBytes_meets ht).bind fun text' _ htt => ?_
      subst htt
      refine (tokenCount_meets ctx.tok text' _).bind fun toks _ _ => ?_
      refine ⟨extend ht (by omega) (by omega), _, rfl, rfl, ?_⟩
      have hpos := SplitPoint.pos ⟨pre, hpre, hprene, hfit⟩
      obtain ⟨prev, tail, hprev, htail, htfit⟩ := hws.overlapped (by omega)
      have hbefore := h.children.before prev (List.mem_of_getLast? hprev)
      obtain ⟨gap, hgap⟩ := exists_slice (slice_right_boundary htail) h.boundary hbefore
      obtain ⟨one, hone⟩ := exists_slice h.boundary hb (by omega)
      have hlen : byteLen one = 1 := by
        have := slice_stop hone
        omega
      obtain ⟨c, rfl⟩ := eq_singleton_of_byteLen hlen
      have htext := slice_append (slice_append htail hgap) hone
      obtain rfl : text' = tail ++ gap ++ [c] := Option.some.inj (ht.symm.trans htext)
      exact SegmentText.forced hprev htail htfit hgap hone
    · show Meets (sliceBytes ctx.src ws (consumed + 1) >>= _) _ _
      rw [sliceBytes_eq_panic hb]
      intro _
      exact ⟨hlt, overlap, u, segLen, hover, by rw [hwsd]; exact hrem, hseg,
        by rw [hwsd]; omega, hb⟩

end Segments

section Packing

variable {ctx : ChildCtx} {win : ParentWindow} {pre post : List Block} {st : ChildPack}

/-- The open child window starts after the last child's start and holds its blocks. -/
structure OpenWindow (ctx : ChildCtx) (win : ParentWindow) (children : List Chunk)
    (acc : ChildAccumulator) : Prop where
  boundary : IsBoundary ctx.src acc.charStart
  inWindow : win.charStart ≤ acc.charStart
  holds : ∀ b ∈ acc.blocks, acc.charStart ≤ b.charStart
  later : ∀ p, children.getLast? = some p → p.charStart < acc.charStart
  stop : ∀ b, acc.blocks.getLast? = some b → acc.charEnd = b.charEnd

/-- The invariant of the child packing loop. -/
structure ChildInv (ctx : ChildCtx) (win : ParentWindow) (pre post : List Block)
    (st : ChildPack) : Prop where
  children : ∃ m, ChildrenBefore ctx.src win ctx.parentId st.children m ∧
    ∀ b ∈ st.acc.blocks ++ post, m ≤ b.charStart
  run : BlockRun ctx.src (st.acc.blocks ++ post)
  within : ∀ b ∈ st.acc.blocks ++ post, b.span.Within win.span
  opened : st.acc.blocks ≠ [] → OpenWindow ctx win st.children st.acc
  pending : st.acc.blocks = [] → st.pendingOverlapStart = none
  covered : ∀ b ∈ pre, ∀ n, b.span.Has n →
    Covers (st.children.map Chunk.span) n ∨ b ∈ st.acc.blocks

theorem ChildInv.accSlice (h : ChildInv ctx win pre post st)
    (hne : st.acc.blocks ≠ []) :
    ∃ t, slice ctx.src st.acc.charStart st.acc.charEnd = some t ∧
      st.acc.charStart < st.acc.charEnd ∧ ∀ b ∈ st.acc.blocks, b.charEnd ≤ st.acc.charEnd := by
  obtain ⟨z, hz⟩ := exists_getLast hne
  have hopen := h.opened hne
  have hrun := h.run.append_left
  have hmem := List.mem_of_getLast? hz
  have hle := hopen.holds z hmem
  have hlt := hrun.charStart_lt hmem
  rw [hopen.stop z hz]
  obtain ⟨t, ht⟩ := exists_slice hopen.boundary (hrun.stop_boundary hmem) (by omega)
  exact ⟨t, ht, by omega, fun b hb => hrun.le_getLast hz hb⟩

/-- Flushing moves the open window to the children. -/
theorem flushChildWindow_meets {C : Prop} (h : ChildInv ctx win pre post st) :
    Meets (flushChildWindow ctx st)
      (fun st' => st'.acc.blocks = [] ∧
        ChildInv ctx win pre post { st' with pendingOverlapStart := none }) (PanicOnlyIf C) := by
  obtain ⟨m, hbefore, hm⟩ := h.children
  unfold flushChildWindow
  split
  · rename_i hempty
    have hnil : st.acc.blocks = [] := List.isEmpty_iff.mp hempty
    exact ⟨hnil, ⟨m, hbefore, hm⟩, h.run, h.within, h.opened, fun _ => rfl, h.covered⟩
  rename_i hopen
  have hne : st.acc.blocks ≠ [] := fun he => hopen (List.isEmpty_iff.mpr he)
  have how := h.opened hne
  obtain ⟨t, ht, hlt, hends⟩ := h.accSlice hne
  obtain ⟨z, hz⟩ := exists_getLast hne
  have hzmem := List.mem_of_getLast? hz
  have hcross := (List.pairwise_append.mp h.run.disjoint).2.2
  have hstop := how.stop z hz
  have hzin := (h.within z (List.mem_append_left post hzmem)).2
  have hmz := hm z (List.mem_append_left post hzmem)
  have hzlt := h.run.append_left.charStart_lt hzmem
  simp only [Block.span, ParentWindow.span] at hzin
  simp only [Nat.min_eq_left (slice_right_boundary ht).le]
  refine (sliceBytes_meets ht).bind fun u _ hu => ?_
  subst hu
  refine (tokenCount_meets ctx.tok u C).bind fun toks _ _ => ?_
  refine ⟨rfl, ⟨st.acc.charEnd, ?_, ?_⟩, h.run.append_right, ?_, ?_, fun _ => rfl, ?_⟩
  · exact hbefore.concat (c := ctx.chunk _ u st.acc.charStart st.acc.charEnd _ _ _ _)
      (ctx.childOn ht hlt how.inWindow (by omega)) (show m < st.acc.charEnd by omega) how.later
  · intro b hb
    rw [hstop]
    exact hcross z hzmem b (by simpa [ChildAccumulator.new] using hb)
  · intro b hb
    exact h.within b (List.mem_append_right _ (by simpa [ChildAccumulator.new] using hb))
  · exact fun hnn => absurd rfl hnn
  · intro b hb n hn
    refine Or.inl ?_
    simp only [List.map_append, List.map_singleton, covers_concat]
    rcases h.covered b hb n hn with hc | hc
    · exact Or.inl hc
    · have h1 := how.holds b hc
      have h2 := hends b hc
      have h3 := hn
      simp only [Span.Has, Block.span] at h3
      exact Or.inr ⟨show st.acc.charStart ≤ n by omega, show n < st.acc.charEnd by omega⟩

/-- A window opened with a block, at that block or at a start inside the last child. -/
theorem ChildInv.openWith {b : Block} {start toks : Nat} {pending : Option Nat}
    (h : ChildInv ctx win pre (b :: post) { st with pendingOverlapStart := none })
    (hnil : st.acc.blocks = []) (hb : IsBoundary ctx.src start) (hle : start ≤ b.charStart)
    (hin : win.charStart ≤ start)
    (hlater : ∀ p, st.children.getLast? = some p → p.charStart < start) :
    ChildInv ctx win (pre ++ [b]) post { st with
      pendingOverlapStart := pending
      acc := ⟨[b], start, b.charEnd, toks⟩ } := by
  obtain ⟨m, hbefore, hm⟩ := h.children
  have hrun := h.run
  have hwithin := h.within
  simp only [hnil, List.nil_append] at hm hrun hwithin
  refine ⟨⟨m, hbefore, hm⟩, hrun, hwithin, fun _ => ⟨hb, hin, ?_, hlater, ?_⟩, by simp, ?_⟩
  · simpa using hle
  · simp
  · intro c hc n hn
    rcases List.mem_append.mp hc with hc | hc
    · rcases h.covered c hc n hn with hw | hw
      · exact Or.inl hw
      · simp [hnil] at hw
    · exact Or.inr hc

theorem ChildInv.last_start_lt {b : Block} {pending : Option Nat}
    (h : ChildInv ctx win pre (b :: post) { st with pendingOverlapStart := pending })
    (p : Chunk) (hp : st.children.getLast? = some p) :
    p.charStart < b.charStart ∧ p.charEnd ≤ b.charStart := by
  obtain ⟨m, hbefore, hm⟩ := h.children
  have hmem := List.mem_of_getLast? hp
  have := hm b (by simp)
  have := hbefore.before p hmem
  have := (hbefore.on p hmem).nonempty
  omega

theorem openChildWindow_meets {C : Prop} {b : Block} {limit blockTokens : Nat}
    (h : ChildInv ctx win pre (b :: post) { st with pendingOverlapStart := none })
    (hnil : st.acc.blocks = [])
    (hov : ∀ ov, st.pendingOverlapStart = some ov → ∃ prev, st.children.getLast? = some prev ∧
      OverlapStart ctx.src ctx.tok win prev ov) :
    Meets (openChildWindow ctx limit b blockTokens st) (ChildInv ctx win (pre ++ [b]) post)
      (PanicOnlyIf C) := by
  have hrun : BlockRun ctx.src (b :: post) := by simpa [hnil] using h.run
  have hbin := (h.within b (by simp)).1
  have hbb := hrun.start_boundary List.mem_cons_self
  simp only [Block.span, ParentWindow.span] at hbin
  have atBlock : ∀ toks pending, ChildInv ctx win (pre ++ [b]) post { st with
      pendingOverlapStart := pending
      acc := ⟨[b], b.charStart, b.charEnd, toks⟩ } := fun toks pending =>
    h.openWith hnil hbb (Nat.le_refl _) hbin fun p hp => (h.last_start_lt p hp).1
  unfold openChildWindow
  cases hp : st.pendingOverlapStart with
  | none =>
    refine Meets.bind (Q := fun _ => True) trivial fun overlapTokens _ _ => ?_
    dsimp only
    split
    · exact atBlock _ _
    · exact atBlock _ _
  | some ov =>
    obtain ⟨prev, hprev, ho⟩ := hov ov hp
    obtain ⟨tail, htail, _⟩ := ho.tail
    have hpl := h.last_start_lt prev hprev
    have hbefore := ho.before
    have hafter := ho.after
    obtain ⟨m, hchildren, _⟩ := h.children
    have hpin := (hchildren.on prev (List.mem_of_getLast? hprev)).within.1
    simp only [Chunk.span, ParentWindow.span] at hpin
    refine (seedOverlapTokens_meets (slice_left_boundary htail) hbb).bind
      fun overlapTokens _ _ => ?_
    dsimp only
    split
    · exact atBlock _ _
    · simp only [Option.getD_some]
      refine h.openWith hnil (slice_left_boundary htail) (by omega) (by omega) fun p hp' => ?_
      obtain rfl : prev = p := Option.some.inj (hprev.symm.trans hp')
      exact hafter

/-- A further block joins the open window. -/
theorem ChildInv.pushBlock {b : Block} {toks : Nat}
    (h : ChildInv ctx win pre (b :: post) st) (hne : st.acc.blocks ≠ []) :
    ChildInv ctx win (pre ++ [b]) post { st with acc := {
      blocks := st.acc.blocks ++ [b]
      charStart := st.acc.charStart
      charEnd := b.charEnd
      tokens := toks } } := by
  have how := h.opened hne
  refine ⟨by simpa using h.children, by simpa using h.run, by simpa using h.within,
    fun _ => ⟨how.boundary, how.inWindow, ?_, how.later, by simp⟩, by simp, ?_⟩
  · intro c hc
    rcases List.mem_append.mp hc with hc | hc
    · exact how.holds c hc
    · obtain ⟨a, ha⟩ := exists_head hne
      have h1 := how.holds a (List.mem_of_mem_head? ha)
      have h2 := h.run.head_le (a := a) (b := b) (by simp [List.head?_append, ha]) (by simp)
      rw [List.mem_singleton.mp hc]
      exact Nat.le_trans h1 h2
  · intro c hc n hn
    rcases List.mem_append.mp hc with hc | hc
    · rcases h.covered c hc n hn with hw | hw
      · exact Or.inl hw
      · exact Or.inr (List.mem_append_left _ hw)
    · exact Or.inr (List.mem_append_right _ hc)

/-- The state in which the oversized-child loop is entered. -/
def splitEntry (st : ChildPack) : ChildPack := { st with pendingOverlapStart := none }

/-- The oversized block that the step comes to is cut inside a character. -/
def StepHits (ctx : ChildCtx) (win : ParentWindow) (limit : Nat) (st : ChildPack) (b : Block) :
    Prop :=
  Exceeds ctx.tok limit b.text ∧ ∃ st', flushChildWindow ctx st = .ok st' ∧
    SplitHits ctx win b (max limit 1) (min (b.charStart + byteLen b.text) (byteLen ctx.src))
      (b.charStart, splitEntry st')

/-- The oversized-child loop runs to the end of its block. -/
theorem BlockRun.oversizedEnd {src : Str} {blocks : List Block} {b : Block}
    (h : BlockRun src blocks) (hb : b ∈ blocks) :
    min (b.charStart + byteLen b.text) (byteLen src) = b.charEnd := by
  have := (h.stop_boundary hb).le
  have := (h.verbatim b hb).charEnd_eq
  omega

theorem ChildInv.splitStart {b : Block} (h : ChildInv ctx win pre (b :: post) (splitEntry st))
    (hnil : st.acc.blocks = []) :
    SplitInv ctx win b (splitEntry st) b.charStart (splitEntry st) := by
  obtain ⟨m, hbefore, hm⟩ := h.children
  have hrun : BlockRun ctx.src (b :: post) := by simpa [splitEntry, hnil] using h.run
  exact ⟨hbefore.mono (hm b (by simp)), hrun.start_boundary List.mem_cons_self, Nat.le_refl _,
    Nat.le_of_lt (hrun.charStart_lt List.mem_cons_self), rfl, rfl, fun _ hn => hn,
    by intros; omega⟩

theorem splitOversizedChildBlock_meets {b : Block} {limit : Nat}
    (h : ChildInv ctx win pre (b :: post) (splitEntry st)) (hnil : st.acc.blocks = []) :
    Meets (splitOversizedChildBlock ctx win b limit (splitEntry st))
      (ChildInv ctx win (pre ++ [b]) post)
      (PanicOnlyIf (SplitHits ctx win b (max limit 1)
        (min (b.charStart + byteLen b.text) (byteLen ctx.src)) (b.charStart, splitEntry st))) := by
  have hrun : BlockRun ctx.src (b :: post) := by simpa [splitEntry, hnil] using h.run
  have hv := hrun.verbatim b List.mem_cons_self
  have hin := h.within b (by simp)
  unfold splitOversizedChildBlock
  rw [hrun.oversizedEnd List.mem_cons_self]
  refine (splitChildFrom_meets (I := SplitInv ctx win b (splitEntry st)) ?_
    (h.splitStart hnil)).mono ?_ fun _ he => he
  · intro consumed st' hlt hI
    exact (splitChildOnce_meets hv hin hI hlt).mono (fun _ hs => hs.1) fun _ he => he
  · rintro st' ⟨k, hk, hI⟩
    obtain rfl : k = b.charEnd := Nat.le_antisymm hI.high hk
    have hnil' : st'.acc.blocks = [] := by simpa [hI.acc, splitEntry] using hnil
    have hpost := (List.pairwise_cons.mp hrun.disjoint).1
    refine ⟨⟨b.charEnd, hI.children, by simpa [hnil'] using hpost⟩, ?_, ?_, ?_, ?_, ?_⟩
    · simpa [hnil'] using hrun.append_right (l := [b])
    · intro c hc
      simp only [hnil', List.nil_append] at hc
      exact h.within c (List.mem_append_right _ (List.mem_cons_of_mem b hc))
    · exact fun hne => absurd hnil' hne
    · exact fun _ => by rw [hI.pending]; rfl
    · intro c hc n hn
      rcases List.mem_append.mp hc with hc | hc
      · rcases h.covered c hc n hn with hw | hw
        · exact Or.inl (hI.keeps n hw)
        · simp [splitEntry, hnil] at hw
      · rw [List.mem_singleton.mp hc] at hn
        exact Or.inl (hI.covered n hn.1 hn.2)

theorem childStep_meets {b : Block} {limit : Nat} (h : ChildInv ctx win pre (b :: post) st) :
    Meets (childStep ctx win limit st b) (ChildInv ctx win (pre ++ [b]) post)
      (PanicOnlyIf (StepHits ctx win limit st b)) := by
  unfold childStep
  refine (tokenCount_meets ctx.tok b.text _).bind fun blockTokens hcount _ => ?_
  split
  · rename_i hover
    refine (flushChildWindow_meets h).bind fun st' hst' hI => ?_
    refine (splitOversizedChildBlock_meets hI.2 hI.1).mono (fun _ h => h) ?_
    exact fun e he hp => ⟨⟨blockTokens, hcount, hover⟩, st', hst', he hp⟩
  · split
    · rename_i hempty
      have hnil : st.acc.blocks = [] := List.isEmpty_iff.mp hempty
      have hpend := h.pending hnil
      have hst : { st with pendingOverlapStart := none } = st := by rw [← hpend]
      exact openChildWindow_meets (by rw [hst]; exact h) hnil (by simp [hpend])
    · rename_i hopen
      have hne : st.acc.blocks ≠ [] := fun he => hopen (List.isEmpty_iff.mpr he)
      split
      · refine (flushChildWindow_meets h).bind fun st' _ hI => ?_
        obtain ⟨m, hbefore, _⟩ := hI.2.children
        refine (overlapBackOff_meets hbefore.last_verbatim).bind fun overlap _ hov => ?_
        have hst : ChildInv ctx win pre (b :: post) { ({ st' with
            pendingOverlapStart := overlap } : ChildPack) with pendingOverlapStart := none } :=
          hI.2
        exact openChildWindow_meets hst hI.1 hov
      · exact h.pushBlock hne

/-- A step that hits a forced cut panics. -/
theorem childStep_panic {b : Block} {limit : Nat} (h : StepHits ctx win limit st b) :
    childStep ctx win limit st b = .error .panic := by
  obtain ⟨⟨k, hk, hlt⟩, st', hflush, hhits⟩ := h
  unfold childStep
  simp only [hk, Bind.bind, Except.bind, if_pos hlt, hflush]
  exact splitChildFrom_panic hhits

/-- The children of a finished window. -/
structure ChildrenOf (src : Str) (win : ParentWindow) (parentId : String)
    (children : List Chunk) : Prop where
  on : ∀ c ∈ children, ChildOn src win parentId c
  ascending : Ascending (children.map Chunk.span)
  covered : ∀ b ∈ win.blocks, ∀ n, b.span.Has n → Covers (children.map Chunk.span) n

def childPackNew (parentTokenStart childOrdinal : Nat) : ChildPack :=
  ⟨[], parentTokenStart, ChildAccumulator.new, none, childOrdinal⟩

/-- Packing the window comes to a block that is cut inside a character. -/
def WindowHits (ctx : ChildCtx) (win : ParentWindow) (st : ChildPack) : Prop :=
  ∃ b st', Reaches (childStep ctx win childLimit) st win.blocks b st' ∧
    StepHits ctx win childLimit st' b

theorem childInv_new {ts ord : Nat} (hw : WindowOn ctx.src win) :
    ChildInv ctx win [] win.blocks (childPackNew ts ord) :=
  ⟨⟨0, ChildrenBefore.nil, by simp⟩, hw.run, fun _ hb => hw.within hb, fun h => absurd rfl h,
    fun _ => rfl, by simp⟩

theorem buildChildChunks_meets {src : Str} {tok : Tokenizer} {pid : String} {ts ord : Nat}
    {strategy : IdStrategy} (hw : WindowOn src win) :
    Meets (buildChildChunks src win tok pid ts strategy ord)
      (fun r => ChildrenOf src win pid r.1)
      (PanicOnlyIf (WindowHits ⟨src, tok, pid, strategy⟩ win (childPackNew ts ord))) := by
  unfold buildChildChunks
  refine (meets_foldlM (I := ChildInv ⟨src, tok, pid, strategy⟩ win) win.blocks
    (childInv_new hw) ?_).bind fun st _ hst => ?_
  · intro pre b post st _ hI hreach
    exact (childStep_meets hI).mono (fun _ h => h) fun e he hp => ⟨b, st, hreach, he hp⟩
  · refine (flushChildWindow_meets hst).bind fun st' _ hst' => ?_
    obtain ⟨m, hbefore, _⟩ := hst'.2.children
    refine ⟨hbefore.on, hbefore.ascending, fun b hb n hn => ?_⟩
    rcases hst'.2.covered b hb n hn with hc | hc
    · exact hc
    · simp [hst'.1] at hc

theorem buildChildChunks_panic {src : Str} {tok : Tokenizer} {pid : String} {ts ord : Nat}
    {strategy : IdStrategy}
    (h : WindowHits ⟨src, tok, pid, strategy⟩ win (childPackNew ts ord)) :
    buildChildChunks src win tok pid ts strategy ord = .error .panic := by
  obtain ⟨b, st, hreach, hhits⟩ := h
  have hfold := foldlM_eq_error.mpr ⟨b, st, hreach, childStep_panic hhits⟩
  unfold buildChildChunks
  exact bind_eq_error.mpr (Or.inl hfold)

end Packing

end LensLM
