import LensLM.ChunkHierarchy
import LensLM.Lib.Slots
import LensLM.ParseText
import Mathlib.Data.List.Chain
import Mathlib.Data.List.Infix

/-!
# Token bounds

The packers add up the counts of the blocks and store the source slice over them. The stored
slices stay within the limits where the sums over-estimate the slices.
-/

namespace LensLM

open ByteText Spans Outcome

set_option autoImplicit false

/-- A token counter that concatenation never makes larger, and that counts every character
within the child limit. -/
structure Counter where
  count : Str → Nat
  subadditive : ∀ x y, count (x ++ y) ≤ count x + count y
  char_le : ∀ c, count [c] ≤ childLimit

def Counter.tok (k : Counter) : Tokenizer := Tokenizer.ofCount k.count

section Ranges

variable (k : Counter) (src : Str)

/-- The count of a source range. -/
def Counter.range (a b : Nat) : Nat := ((slice src a b).map k.count).getD 0

/-- The count of the source range over a run of blocks. -/
def Counter.runRange (run : List Block) : Nat :=
  match run.head?, run.getLast? with
  | some first, some last => k.range src first.charStart last.charEnd
  | _, _ => 0

/-- The sum of the counts of the blocks. -/
def Counter.sum (run : List Block) : Nat := (run.map fun b => k.count b.text).sum

/-- What a forced step may cost besides the overlap. -/
def stepLimit : Nat := childLimit - CHILD_OVERLAP_TOKENS

/-- The sums over-estimate: a run of consecutive blocks that passes the packers' sums spans a
slice within the limits, and the bytes in front of an oversized block are cheap. -/
structure SumsBound (blocks : List Block) : Prop where
  parents : ∀ run, run <:+: blocks → k.sum run ≤ parentLimit →
    k.runRange src run ≤ parentLimit
  children : ∀ run, run <:+: blocks → k.sum run ≤ childLimit →
    k.runRange src run ≤ k.sum run
  steps : blocks.IsChain fun b b' => childLimit < k.count b'.text →
    k.range src b.charEnd (b'.charStart + 1) ≤ stepLimit

variable {k src}

theorem Counter.range_of_slice {a b : Nat} {t : Str} (h : slice src a b = some t) :
    k.range src a b = k.count t := by
  simp [Counter.range, h]

theorem Counter.range_le {a b c : Nat} (ha : IsBoundary src a) (hb : IsBoundary src b)
    (hc : IsBoundary src c) (hab : a ≤ b) (hbc : b ≤ c) :
    k.range src a c ≤ k.range src a b + k.range src b c := by
  obtain ⟨t, ht⟩ := exists_slice ha hb hab
  obtain ⟨u, hu⟩ := exists_slice hb hc hbc
  rw [Counter.range_of_slice ht, Counter.range_of_slice hu,
    Counter.range_of_slice (slice_append ht hu)]
  exact k.subadditive t u

theorem Counter.runRange_eq {run : List Block} {first last : Block}
    (hf : run.head? = some first) (hl : run.getLast? = some last) :
    k.runRange src run = k.range src first.charStart last.charEnd := by
  simp [Counter.runRange, hf, hl]

/-- A range of one byte holds one character. -/
theorem Counter.range_byte_le {n : Nat} (hchars : ∀ c ∈ src, k.count [c] ≤ stepLimit) :
    k.range src n (n + 1) ≤ stepLimit := by
  unfold Counter.range
  cases h : slice src n (n + 1) with
  | none => simp
  | some t =>
    have hlen : byteLen t = 1 := by
      have := slice_stop h
      omega
    match t, hlen with
    | [c], _ =>
      obtain ⟨p, q, hsrc, _⟩ := slice_eq_some.mp h
      exact hchars c (by simp [hsrc])
    | c :: d :: l, hlen =>
      have := c.utf8Size_pos
      have := d.utf8Size_pos
      simp only [byteLen_cons] at hlen
      omega

theorem SumsBound.infix {blocks run : List Block} (h : SumsBound k src blocks)
    (hrun : run <:+: blocks) : SumsBound k src run where
  parents := fun r hr => h.parents r (hr.trans hrun)
  children := fun r hr => h.children r (hr.trans hrun)
  steps := h.steps.infix hrun

theorem SumsBound.single {b : Block} (hb : b.Verbatim src) : SumsBound k src [b] := by
  have hrange : k.range src b.charStart b.charEnd = k.count b.text := Counter.range_of_slice hb
  have hrun : ∀ run, run <:+: [b] → k.runRange src run ≤ k.sum run := by
    intro run hrun
    rcases (List.infix_singleton_iff run b).mp hrun with rfl | rfl
    · exact Nat.le_refl 0
    · simp [Counter.runRange, Counter.sum, hrange]
  exact ⟨fun run h hle => Nat.le_trans (hrun run h) hle, fun run h _ => hrun run h,
    List.isChain_singleton b⟩

end Ranges

section Parents

variable {k : Counter} {src : Str} {pre post : List Block} {st : ParentPack}

/-- The token side of the parent packing loop. -/
structure ParentTokens (k : Counter) (src : Str) (post : List Block) (st : ParentPack) : Prop where
  windows : ∀ w ∈ st.windows, k.count w.text ≤ parentLimit ∧ SumsBound k src w.blocks
  sums : SumsBound k src (st.blocks ++ post)
  tokens : st.tokens = k.sum st.blocks
  limit : st.tokens ≤ parentLimit

theorem Counter.sum_append (l r : List Block) : k.sum (l ++ r) = k.sum l + k.sum r := by
  simp [Counter.sum]

theorem ParentTokens.flush (hI : ParentInv src pre post st) (hT : ParentTokens k src post st) :
    Meets (st.flush src) (fun st' => ParentTokens k src post st') (fun _ => True) := by
  unfold ParentPack.flush
  split
  · exact hT
  · rename_i hopen
    have hne : st.blocks ≠ [] := fun he => hopen (List.isEmpty_iff.mpr he)
    refine (flushParentWindow_meets (C := True) hI hne).values.bind fun ws _ hws => ?_
    obtain ⟨w, rfl, hw, hwb⟩ := hws
    obtain ⟨a, ha⟩ := exists_head hne
    obtain ⟨z, hz⟩ := exists_getLast hne
    have hpre : st.blocks <:+: st.blocks ++ post := (List.prefix_append _ _).isInfix
    refine ⟨?_, hT.sums.infix (List.suffix_append _ _).isInfix, rfl, Nat.zero_le _⟩
    apply Slots.forall_mem_push
    · exact hT.windows
    · refine ⟨?_, hwb ▸ hT.sums.infix hpre⟩
      have hcount := Counter.range_of_slice (k := k) hw.verbatim
      rw [hw.start a (hwb ▸ ha), hw.stop z (hwb ▸ hz), ← Counter.runRange_eq ha hz] at hcount
      rw [← hcount]
      exact hT.sums.parents _ hpre (hT.tokens ▸ hT.limit)

theorem ParentTokens.push {b : Block} (hT : ParentTokens k src (b :: post) st)
    (hle : st.tokens + k.count b.text ≤ parentLimit) :
    ParentTokens k src post (st.push b (k.count b.text)) where
  windows := hT.windows
  sums := by simpa [ParentPack.push] using hT.sums
  tokens := by
    show st.tokens + k.count b.text = k.sum (st.blocks ++ [b])
    rw [Counter.sum_append, hT.tokens]
    simp [Counter.sum]
  limit := hle

theorem childLimit_le_parentLimit : childLimit ≤ parentLimit := by decide

/-- A hard-split segment fits, or is one character. -/
theorem Counter.segment_le {limit : Nat} {t : Str} (hlimit : childLimit ≤ limit)
    (h : Fits k.tok limit t ∨ t.length = 1) : k.count t ≤ limit := by
  rcases h with h | h
  · exact fits_ofCount.mp h
  · obtain ⟨c, rfl⟩ := List.length_eq_one_iff.mp h
    exact Nat.le_trans (k.char_le c) hlimit

theorem splitOversizedParentBlock_tokens {b : Block} {windows : List ParentWindow}
    (hv : b.Verbatim src)
    (hw : ∀ w ∈ windows, k.count w.text ≤ parentLimit ∧ SumsBound k src w.blocks) :
    Meets (splitOversizedParentBlock src b k.tok parentLimit windows)
      (fun ws => ∀ w ∈ ws, k.count w.text ≤ parentLimit ∧ SumsBound k src w.blocks)
      (fun _ => True) := by
  let I : Nat → List ParentWindow → Prop := fun _ ws =>
    ∀ w ∈ ws, k.count w.text ≤ parentLimit ∧ SumsBound k src w.blocks
  unfold splitOversizedParentBlock splitOversized
  apply Meets.values (E := PanicOnlyIf True)
  apply splitOversizedFrom_meets (I := I) hv _ (isBoundary_zero b.text) hw
  intro i j t ws hws hij ht hfit
  apply Slots.forall_mem_push
  · exact hws
  · exact ⟨k.segment_le childLimit_le_parentLimit hfit, SumsBound.single ht⟩

theorem parentStep_tokens {b : Block} (hI : ParentInv src pre (b :: post) st)
    (hT : ParentTokens k src (b :: post) st) :
    Meets (parentStep src k.tok st b) (ParentTokens k src post) (fun _ => True) := by
  have hv := hI.run.append_right.verbatim b List.mem_cons_self
  have hflush := (ParentPack.flush_meets (C := True) hI).values.and (hT.flush hI)
  unfold parentStep
  refine Meets.bind (Q := fun n => n = k.count b.text) rfl fun n _ hn => ?_
  subst hn
  split
  · refine hflush.bind fun st' _ hst' => ?_
    obtain ⟨⟨_, hnil⟩, hT'⟩ := hst'
    refine (splitOversizedParentBlock_tokens hv hT'.windows).bind fun ws _ hws => ?_
    have hsums := hT'.sums
    rw [hnil] at hsums
    exact ⟨hws, by simpa [hnil] using hsums.infix (List.suffix_cons b post).isInfix, hT'.tokens,
      hT'.limit⟩
  · rename_i hle
    split
    · refine hflush.bind fun st' _ hst' => ?_
      obtain ⟨⟨_, hnil⟩, hT'⟩ := hst'
      have hzero : st'.tokens = 0 := by
        rw [hT'.tokens, hnil]
        rfl
      exact hT'.push (by omega)
    · rename_i hjoin
      apply hT.push
      simp only [Bool.and_eq_true, Bool.not_eq_true', decide_eq_true_eq, not_and] at hjoin
      by_cases hnil : st.blocks = []
      · have hzero : st.tokens = 0 := by
          rw [hT.tokens, hnil]
          rfl
        omega
      · have := hjoin (by simpa using hnil)
        omega

theorem buildParentWindows_tokens {blocks : List Block} (h : BlockRun src blocks)
    (hsums : SumsBound k src blocks) :
    Meets (buildParentWindows src blocks k.tok)
      (fun ws => ∀ w ∈ ws, k.count w.text ≤ parentLimit ∧ SumsBound k src w.blocks)
      (fun _ => True) := by
  unfold buildParentWindows
  have hnew : ParentTokens k src blocks ParentPack.new :=
    ⟨by simp [ParentPack.new], by simpa [ParentPack.new] using hsums, rfl, Nat.zero_le _⟩
  have hfold := meets_foldlM (I := fun pre post st => ParentInv src pre post st ∧
    ParentTokens k src post st) (E := fun _ => True) blocks ⟨parentInv_new h, hnew⟩
    fun pre b post st _ hI _ =>
      (parentStep_meets (C := True) hI.1).values.and (parentStep_tokens hI.1 hI.2)
  refine hfold.bind fun st _ hst => ?_
  refine (hst.2.flush hst.1).bind fun st' _ hst' => ?_
  exact hst'.windows

end Parents

section Children

variable {k : Counter} {ctx : ChildCtx} {win : ParentWindow} {pre post : List Block}
  {st : ChildPack}

/-- The counted tokens of an open child window cover its start, overlap included. -/
def Seeded (k : Counter) (src : Str) (acc : ChildAccumulator) : Prop :=
  ∃ first, acc.blocks.head? = some first ∧
    (acc.charStart = first.charStart ∧ k.sum acc.blocks ≤ acc.tokens ∨
      acc.charStart < first.charStart ∧
        k.range src acc.charStart first.charStart + k.sum acc.blocks ≤ acc.tokens)

/-- The token side of the child packing loop. -/
structure ChildTokens (k : Counter) (ctx : ChildCtx) (post : List Block) (st : ChildPack) :
    Prop where
  children : ∀ c ∈ st.children, k.count c.text ≤ childLimit
  sums : SumsBound k ctx.src (st.acc.blocks ++ post)
  opened : st.acc.blocks ≠ [] → st.acc.tokens ≤ childLimit ∧ Seeded k ctx.src st.acc
  step : st.acc.blocks = [] → ∀ prev, st.children.getLast? = some prev →
    ∀ b, post.head? = some b → childLimit < k.count b.text →
    k.range ctx.src prev.charEnd (b.charStart + 1) ≤ stepLimit

/-- The slice over an open window counts at most its tokens. -/
theorem ChildTokens.open_le (hI : ChildInv ctx win pre post st) (hT : ChildTokens k ctx post st)
    (hne : st.acc.blocks ≠ []) :
    k.range ctx.src st.acc.charStart st.acc.charEnd ≤ st.acc.tokens := by
  obtain ⟨hlimit, first, hfirst, hseed⟩ := hT.opened hne
  obtain ⟨last, hlast⟩ := exists_getLast hne
  have how := hI.opened hne
  have hrun := hI.run.append_left
  have hsum : k.sum st.acc.blocks ≤ childLimit := by
    rcases hseed with ⟨_, h⟩ | ⟨_, h⟩ <;> omega
  have hpre : st.acc.blocks <:+: st.acc.blocks ++ post := (List.prefix_append _ _).isInfix
  have hspan := hT.sums.children _ hpre hsum
  rw [Counter.runRange_eq hfirst hlast, ← how.stop last hlast] at hspan
  have hfmem := List.mem_of_head? hfirst
  have hlmem := List.mem_of_getLast? hlast
  rcases hseed with ⟨hstart, h⟩ | ⟨hstart, h⟩
  · rw [hstart]
    omega
  · have hlt := hrun.charStart_lt hlmem
    have hle := hrun.head_le hfirst hlmem
    have hstop := how.stop last hlast
    have hsplit := Counter.range_le (k := k) how.boundary (hrun.start_boundary hfmem)
      (hstop ▸ hrun.stop_boundary hlmem) (Nat.le_of_lt hstart) (by omega)
    omega

theorem ChildTokens.flush (hI : ChildInv ctx win pre post st) (hT : ChildTokens k ctx post st) :
    Meets (flushChildWindow ctx st) (ChildTokens k ctx post) (fun _ => True) := by
  unfold flushChildWindow
  split
  · exact hT
  · rename_i hopen
    have hne : st.acc.blocks ≠ [] := fun he => hopen (List.isEmpty_iff.mpr he)
    obtain ⟨t, ht, _, _⟩ := hI.accSlice hne
    have hcount := hT.open_le hI hne
    have hlimit := (hT.opened hne).1
    rw [Counter.range_of_slice ht] at hcount
    obtain ⟨last, hlast⟩ := exists_getLast hne
    have hstop := (hI.opened hne).stop last hlast
    simp only [Nat.min_eq_left (slice_right_boundary ht).le]
    refine (sliceBytes_meets ht).bind fun u _ hu => ?_
    subst hu
    refine (tokenCount_meets ctx.tok u True).values.bind fun toks _ _ => ?_
    refine ⟨?_, hT.sums.infix (List.suffix_append _ _).isInfix, fun h => absurd rfl h, ?_⟩
    · exact Slots.forall_mem_push hT.children (Nat.le_trans hcount hlimit)
    · intro _ prev hprev b hb hover
      rw [List.getLast?_concat] at hprev
      obtain rfl := Option.some.inj hprev
      have hchain := (List.isChain_append.mp hT.sums.steps).2.2 last hlast b hb hover
      rwa [← hstop] at hchain

theorem seedOverlapTokens_range {src : Str} {ov start : Nat} (hov : IsBoundary src ov)
    (hstart : IsBoundary src start) (hlt : ov < start) :
    seedOverlapTokens src ov start k.tok = .ok (k.range src ov start) := by
  obtain ⟨t, ht⟩ := exists_slice hov hstart (Nat.le_of_lt hlt)
  unfold seedOverlapTokens
  simp only [Nat.min_eq_left hstart.le]
  rw [if_neg (by omega), sliceBytes_of_slice ht, Counter.range_of_slice ht]
  rfl

/-- A window opened with one block. -/
theorem ChildTokens.openWith {b : Block} {acc : ChildAccumulator} {pending : Option Nat}
    (hT : ChildTokens k ctx (b :: post) st) (hnil : st.acc.blocks = [])
    (hacc : acc.blocks = [b]) (htokens : acc.tokens ≤ childLimit)
    (hseed : Seeded k ctx.src acc) :
    ChildTokens k ctx post { st with pendingOverlapStart := pending, acc := acc } where
  children := hT.children
  sums := by
    have := hT.sums
    rw [hnil] at this
    rw [hacc]
    exact this
  opened := fun _ => ⟨htokens, hseed⟩
  step := by
    intro h
    rw [hacc] at h
    cases h

theorem openChildWindow_tokens {b : Block} (hctx : ctx.tok = k.tok)
    (hI : ChildInv ctx win pre (b :: post) { st with pendingOverlapStart := none })
    (hnil : st.acc.blocks = []) (hT : ChildTokens k ctx (b :: post) st)
    (hle : k.count b.text ≤ childLimit)
    (hov : ∀ ov, st.pendingOverlapStart = some ov → ∃ prev, st.children.getLast? = some prev ∧
      OverlapStart ctx.src ctx.tok win prev ov) :
    Meets (openChildWindow ctx childLimit b (k.count b.text) st) (ChildTokens k ctx post)
      (fun _ => True) := by
  have hrun : BlockRun ctx.src (b :: post) := by simpa [hnil] using hI.run
  have hsum : k.sum [b] = k.count b.text := by simp [Counter.sum]
  have atBlock : ∀ pending, ChildTokens k ctx post { st with
      pendingOverlapStart := pending
      acc := ⟨[b], b.charStart, b.charEnd, k.count b.text⟩ } := fun pending =>
    hT.openWith hnil rfl hle ⟨b, rfl, Or.inl ⟨rfl, Nat.le_of_eq hsum⟩⟩
  unfold openChildWindow
  cases hp : st.pendingOverlapStart with
  | none =>
    simp only [Bind.bind, Except.bind, Pure.pure, Except.pure, Nat.zero_add]
    rw [if_neg (by omega)]
    exact atBlock _
  | some ov =>
    obtain ⟨prev, hprev, ho⟩ := hov ov hp
    obtain ⟨tail, htail, _⟩ := ho.tail
    have hpl := hI.last_start_lt prev hprev
    have hbefore := ho.before
    have hlt : ov < b.charStart := by omega
    simp only [hctx, seedOverlapTokens_range (slice_left_boundary htail)
      (hrun.start_boundary List.mem_cons_self) hlt, Bind.bind, Except.bind]
    split
    · exact atBlock _
    · refine hT.openWith hnil rfl (Nat.le_of_not_lt ‹_›) ⟨b, rfl, Or.inr ⟨hlt, ?_⟩⟩
      rw [hsum]
      exact Nat.le_refl _

theorem ChildTokens.pushBlock {b : Block} (hT : ChildTokens k ctx (b :: post) st) (hne : st.acc.blocks ≠ [])
    (hle : st.acc.tokens + k.count b.text ≤ childLimit) :
    ChildTokens k ctx post { st with acc := {
      blocks := st.acc.blocks ++ [b]
      charStart := st.acc.charStart
      charEnd := b.charEnd
      tokens := st.acc.tokens + k.count b.text } } where
  children := hT.children
  sums := by simpa using hT.sums
  opened := by
    intro _
    obtain ⟨_, first, hfirst, hseed⟩ := hT.opened hne
    refine ⟨hle, first, by simp [List.head?_append, hfirst], ?_⟩
    have hsum : k.sum (st.acc.blocks ++ [b]) = k.sum st.acc.blocks + k.count b.text := by
      rw [Counter.sum_append]
      simp [Counter.sum]
    rcases hseed with ⟨hstart, h⟩ | ⟨hstart, h⟩
    · exact Or.inl ⟨hstart, by simp only [hsum]; omega⟩
    · exact Or.inr ⟨hstart, by simp only [hsum]; omega⟩
  step := by
    intro h
    simp at h

/-- A hard-split child fits, or is an overlap tail with a cheap forced step. -/
theorem segmentText_le {consumed : Nat} {last : Option Chunk} {text : Str}
    (hctx : ctx.tok = k.tok) (h : SegmentText ctx childLimit consumed last text)
    (hstep : ∀ prev, last = some prev → k.range ctx.src prev.charEnd (consumed + 1) ≤ stepLimit) :
    k.count text ≤ childLimit := by
  cases h with
  | fits h =>
    rw [hctx] at h
    exact k.segment_le (Nat.le_refl _) h
  | @forced prev ov tail gap c hlast htail hfit hgap hone =>
    rw [hctx] at hfit
    have htailc := fits_ofCount.mp hfit
    have hrange := hstep prev hlast
    rw [Counter.range_of_slice (slice_append hgap hone)] at hrange
    rw [List.append_assoc]
    have := k.subadditive tail (gap ++ [c])
    have hlimit : CHILD_OVERLAP_TOKENS + stepLimit = childLimit := by decide
    omega

theorem splitOversizedChildBlock_tokens {b : Block} (hctx : ctx.tok = k.tok)
    (hchars : ∀ c ∈ ctx.src, k.count [c] ≤ stepLimit)
    (hI : ChildInv ctx win pre (b :: post) (splitEntry st)) (hnil : st.acc.blocks = [])
    (hT : ChildTokens k ctx (b :: post) (splitEntry st)) (hover : childLimit < k.count b.text) :
    Meets (splitOversizedChildBlock ctx win b childLimit (splitEntry st))
      (ChildTokens k ctx post) (fun _ => True) := by
  have hrun : BlockRun ctx.src (b :: post) := by simpa [splitEntry, hnil] using hI.run
  have hv := hrun.verbatim b List.mem_cons_self
  have hin := hI.within b (by simp)
  have hlt := hrun.charStart_lt List.mem_cons_self
  -- The last child ends at the frontier, or the loop has not begun.
  let I : Nat → ChildPack → Prop := fun consumed st' =>
    SplitInv ctx win b (splitEntry st) consumed st' ∧
      (∀ c ∈ st'.children, k.count c.text ≤ childLimit) ∧
      ∀ prev, st'.children.getLast? = some prev → prev.charEnd = consumed ∨
        consumed = b.charStart ∧ k.range ctx.src prev.charEnd (consumed + 1) ≤ stepLimit
  have hstart : I b.charStart (splitEntry st) := by
    refine ⟨hI.splitStart hnil, hT.children, ?_⟩
    intro prev hprev
    exact Or.inr ⟨rfl, hT.step hnil prev hprev b rfl hover⟩
  unfold splitOversizedChildBlock
  rw [hrun.oversizedEnd List.mem_cons_self, show max childLimit 1 = childLimit from rfl]
  refine ((splitChildFrom_meets (I := I) ?_ hstart).values).mono ?_ fun _ h => h
  · rintro consumed st' hlt' ⟨hS, hcs, hlast⟩
    refine (splitChildOnce_meets hv hin hS hlt').mono ?_ fun _ h => h
    rintro s ⟨hS', c, hchildren, hend, hsegment⟩
    have hstep : ∀ prev, st'.children.getLast? = some prev →
        k.range ctx.src prev.charEnd (consumed + 1) ≤ stepLimit := by
      intro prev hprev
      rcases hlast prev hprev with h | h
      · rw [h]
        exact Counter.range_byte_le hchars
      · exact h.2
    refine ⟨hS', ?_, ?_⟩
    · rw [hchildren]
      exact Slots.forall_mem_push hcs (segmentText_le hctx hsegment hstep)
    · intro prev hprev
      rw [hchildren, List.getLast?_concat] at hprev
      obtain rfl := Option.some.inj hprev
      exact Or.inl hend.symm
  · rintro st' ⟨m, hm, hS, hcs, hlast⟩
    have hmend : m = b.charEnd := Nat.le_antisymm hS.high hm
    have hnil' : st'.acc.blocks = [] := by simpa [hS.acc, splitEntry] using hnil
    have hsums := hT.sums
    rw [show (splitEntry st).acc.blocks = [] from hnil] at hsums
    refine ⟨hcs, ?_, fun hne => absurd hnil' hne, ?_⟩
    · rw [hnil']
      exact hsums.infix (List.suffix_cons b post).isInfix
    · intro _ prev hprev next hnext hnextover
      have hprevEnd : prev.charEnd = b.charEnd := by
        rcases hlast prev hprev with h | h <;> omega
      rw [hprevEnd]
      cases post with
      | nil => cases hnext
      | cons d post =>
        obtain rfl := Option.some.inj hnext
        exact (List.isChain_cons_cons.mp hsums.steps).1 hnextover

theorem childStep_tokens {b : Block} (hctx : ctx.tok = k.tok)
    (hchars : ∀ c ∈ ctx.src, k.count [c] ≤ stepLimit)
    (hI : ChildInv ctx win pre (b :: post) st) (hT : ChildTokens k ctx (b :: post) st) :
    Meets (childStep ctx win childLimit st b) (ChildTokens k ctx post) (fun _ => True) := by
  have hcount : tokenCount ctx.tok b.text = .ok (k.count b.text) := by
    rw [hctx]
    rfl
  have hflush := (flushChildWindow_meets (C := True) hI).values.and (hT.flush hI)
  unfold childStep
  rw [hcount]
  show Meets (if _ then _ else _) _ _
  split
  · rename_i hover
    refine hflush.bind fun st' _ hst' => ?_
    obtain ⟨⟨hnil, hI'⟩, hT'⟩ := hst'
    exact splitOversizedChildBlock_tokens hctx hchars hI' hnil
      ⟨hT'.children, hT'.sums, hT'.opened, hT'.step⟩ hover
  · rename_i hle
    split
    · rename_i hempty
      have hnil : st.acc.blocks = [] := List.isEmpty_iff.mp hempty
      have hpend := hI.pending hnil
      have hst : { st with pendingOverlapStart := none } = st := by rw [← hpend]
      apply openChildWindow_tokens hctx (by rw [hst]; exact hI) hnil hT (Nat.le_of_not_lt hle)
      simp [hpend]
    · rename_i hopen
      have hne : st.acc.blocks ≠ [] := fun he => hopen (List.isEmpty_iff.mpr he)
      split
      · refine hflush.bind fun st' _ hst' => ?_
        obtain ⟨⟨hnil, hI'⟩, hT'⟩ := hst'
        obtain ⟨m, hbefore, _⟩ := hI'.children
        refine (overlapBackOff_meets (C := True) hbefore.last_verbatim).values.bind
          fun overlap _ hov => ?_
        have hT'' : ChildTokens k ctx (b :: post)
            { st' with pendingOverlapStart := overlap } :=
          ⟨hT'.children, hT'.sums, hT'.opened, hT'.step⟩
        exact openChildWindow_tokens hctx hI' hnil hT'' (Nat.le_of_not_lt hle) hov
      · exact hT.pushBlock hne (Nat.le_of_not_lt ‹_›)

theorem buildChildChunks_tokens {src : Str} {pid : String} {ts ord : Nat}
    {strategy : IdStrategy} (hchars : ∀ c ∈ src, k.count [c] ≤ stepLimit)
    (hw : WindowOn src win) (hsums : SumsBound k src win.blocks) :
    Meets (buildChildChunks src win k.tok pid ts strategy ord)
      (fun r => ∀ c ∈ r.1, k.count c.text ≤ childLimit) (fun _ => True) := by
  unfold buildChildChunks
  have hnew : ChildTokens k ⟨src, k.tok, pid, strategy⟩ win.blocks (childPackNew ts ord) :=
    ⟨by simp [childPackNew], hsums, fun h => absurd rfl h, by simp [childPackNew]⟩
  have hfold := meets_foldlM (I := fun pre post st =>
    ChildInv ⟨src, k.tok, pid, strategy⟩ win pre post st ∧
      ChildTokens k ⟨src, k.tok, pid, strategy⟩ post st) (E := fun _ => True) win.blocks
    ⟨childInv_new hw, hnew⟩ fun pre b post st _ hI _ =>
      (childStep_meets hI.1).values.and (childStep_tokens rfl hchars hI.1 hI.2)
  refine hfold.bind fun st _ hst => ?_
  refine (hst.2.flush hst.1).bind fun st' _ hst' => ?_
  exact hst'.children

end Children

section Bounds

variable {k : Counter} {src : Str} {strategy : IdStrategy}

def chunkLimit : ChunkKind → Nat
  | .parent => parentLimit
  | .child => childLimit

theorem emitParent_tokens {st : ChunkRun} {win : ParentWindow}
    (hchars : ∀ c ∈ src, k.count [c] ≤ stepLimit) (hw : WindowOn src win)
    (hcount : k.count win.text ≤ parentLimit) (hsums : SumsBound k src win.blocks)
    (hst : ∀ c ∈ st.result, k.count c.text ≤ chunkLimit c.kind) :
    Meets (emitParent src k.tok strategy st win)
      (fun st' => ∀ c ∈ st'.result, k.count c.text ≤ chunkLimit c.kind) (fun _ => True) := by
  unfold emitParent
  refine (tokenCount_meets k.tok win.text True).values.bind fun n _ _ => ?_
  refine ((buildChildChunks_meets hw).values.and (buildChildChunks_tokens hchars hw hsums)).bind
    fun r _ hr => ?_
  obtain ⟨hr, hrcount⟩ := hr
  refine (retileChildTokenOffsets_meets (C := True) hw hr).values.bind fun cs _ hcs => ?_
  intro c hc
  rcases List.mem_append.mp hc with hc | hc
  · exact hst c hc
  · rcases List.mem_cons.mp hc with heq | hc
    · rw [heq]
      exact hcount
    · obtain ⟨d, hd, hcore⟩ := mem_of_core hcs.1 hc
      have htext : d.core.text = c.core.text := congrArg Chunk.text hcore
      rw [(hcs.2.on c hc).kind]
      exact htext ▸ hrcount d hd

def noMarkdown : MarkdownLibrary := ⟨fun _ => .nil, fun _ => Nat.zero_le _⟩

/-- One token per visible character. -/
def inkCounter : Counter where
  count := fun t => (t.filter fun c => !isWhitespace c).length
  subadditive := fun x y => by simp
  char_le := fun c => Nat.le_trans (List.length_filter_le _ _) (show 1 ≤ childLimit by decide)

def twoParagraphs : Str := ['a', '\n', '\n', 'b']

def twoBlocks : List Block := [⟨.paragraph, [], ['a'], 0, 1⟩, ⟨.paragraph, [], ['b'], 3, 4⟩]

theorem sumsBound_twoBlocks : SumsBound inkCounter twoParagraphs twoBlocks := by
  have hrun : ∀ run, run <:+: twoBlocks →
      inkCounter.runRange twoParagraphs run ≤ inkCounter.sum run := by
    intro run h
    rcases List.infix_cons_iff.mp h with h | h
    · rcases List.prefix_cons_iff.mp h with rfl | ⟨t, rfl, ht⟩
      · decide
      · rcases List.prefix_cons_iff.mp ht with rfl | ⟨u, rfl, hu⟩
        · decide
        · rw [List.prefix_nil.mp hu]
          decide
    · rcases (List.infix_singleton_iff run _).mp h with rfl | rfl
      · decide
      · decide
  refine ⟨fun run h hle => Nat.le_trans (hrun run h) hle, fun run h _ => hrun run h, ?_⟩
  decide

def twoParagraphsChunks : List Chunk :=
  [⟨"", none, .parent, 0, [], twoParagraphs, 0, 2, 0, 4, some .paragraph, none⟩,
    ⟨"", some "", .child, 1, [], twoParagraphs, 0, 2, 0, 4, some .paragraph, none⟩]

/-- One token per character. -/
def lengthCounter : Counter where
  count := List.length
  subadditive := fun x y => Nat.le_of_eq List.length_append
  char_le := fun _ => show 1 ≤ childLimit by decide

/-- Two paragraphs, many line ends apart. -/
def gapSource : Str := 'a' :: (List.replicate 600 '\n' ++ ['b'])

end Bounds

end LensLM
