import LensLM.Lib.Slots
import LensLM.ChunkSplit

/-!
# Parent packing

The packing loop keeps its windows verbatim, ordered and disjoint, and every byte of a
packed block stays inside a window.
-/

namespace LensLM

open ByteText Spans Outcome

set_option autoImplicit false

/-- Nonempty verbatim blocks in document order. -/
structure BlockRun (src : Str) (blocks : List Block) : Prop where
  verbatim : ∀ b ∈ blocks, b.Verbatim src
  filled : ∀ b ∈ blocks, b.text ≠ []
  disjoint : blocks.Pairwise fun a b => a.charEnd ≤ b.charStart

theorem exists_head {l : List Block} (h : l ≠ []) : ∃ a, l.head? = some a :=
  ⟨l.head h, List.head?_eq_some_head h⟩

theorem exists_getLast {l : List Block} (h : l ≠ []) : ∃ a, l.getLast? = some a :=
  ⟨l.getLast h, List.getLast?_eq_some_getLast h⟩

namespace BlockRun

variable {src : Str} {blocks l r : List Block}

theorem nil : BlockRun src [] := ⟨by simp, by simp, List.Pairwise.nil⟩

theorem append_left (h : BlockRun src (l ++ r)) : BlockRun src l :=
  ⟨fun b hb => h.verbatim b (List.mem_append_left r hb),
    fun b hb => h.filled b (List.mem_append_left r hb), (List.pairwise_append.mp h.disjoint).1⟩

theorem append_right (h : BlockRun src (l ++ r)) : BlockRun src r :=
  ⟨fun b hb => h.verbatim b (List.mem_append_right l hb),
    fun b hb => h.filled b (List.mem_append_right l hb), (List.pairwise_append.mp h.disjoint).2.1⟩

theorem charStart_lt (h : BlockRun src blocks) {b : Block} (hb : b ∈ blocks) :
    b.charStart < b.charEnd := by
  have := byteLen_pos (h.filled b hb)
  have := (h.verbatim b hb).charEnd_eq
  omega

theorem start_boundary (h : BlockRun src blocks) {b : Block} (hb : b ∈ blocks) :
    IsBoundary src b.charStart := slice_left_boundary (h.verbatim b hb)

theorem stop_boundary (h : BlockRun src blocks) {b : Block} (hb : b ∈ blocks) :
    IsBoundary src b.charEnd := slice_right_boundary (h.verbatim b hb)

theorem head_le (h : BlockRun src blocks) {a b : Block} (ha : blocks.head? = some a)
    (hb : b ∈ blocks) : a.charStart ≤ b.charStart := by
  obtain ⟨t, rfl⟩ := List.head?_eq_some_iff.mp ha
  rcases List.mem_cons.mp hb with rfl | hbt
  · exact Nat.le_refl _
  · have := (List.pairwise_cons.mp h.disjoint).1 b hbt
    have := h.charStart_lt List.mem_cons_self
    omega

theorem le_getLast (h : BlockRun src blocks) {a b : Block} (ha : blocks.getLast? = some a)
    (hb : b ∈ blocks) : b.charEnd ≤ a.charEnd := by
  obtain ⟨t, rfl⟩ := List.getLast?_eq_some_iff.mp ha
  rcases List.mem_append.mp hb with hbt | hbl
  · have := (List.pairwise_append.mp h.disjoint).2.2 b hbt a (by simp)
    have := h.charStart_lt (List.mem_append_right t (List.mem_singleton_self a))
    omega
  · rw [List.mem_singleton.mp hbl]

end BlockRun

/-- A packed window: its text is the source slice from its first to its last block. -/
structure WindowOn (src : Str) (w : ParentWindow) : Prop where
  verbatim : slice src w.charStart w.charEnd = some w.text
  run : BlockRun src w.blocks
  nonempty : w.blocks ≠ []
  start : ∀ b, w.blocks.head? = some b → w.charStart = b.charStart
  stop : ∀ b, w.blocks.getLast? = some b → w.charEnd = b.charEnd

namespace WindowOn

variable {src : Str} {w : ParentWindow}

theorem within (h : WindowOn src w) {b : Block} (hb : b ∈ w.blocks) : b.span.Within w.span := by
  obtain ⟨a, ha⟩ := exists_head h.nonempty
  obtain ⟨z, hz⟩ := exists_getLast h.nonempty
  have h1 := h.run.head_le ha hb
  have h2 := h.run.le_getLast hz hb
  rw [← h.start a ha] at h1
  rw [← h.stop z hz] at h2
  exact ⟨h1, h2⟩

theorem start_lt_stop (h : WindowOn src w) : w.charStart < w.charEnd := by
  obtain ⟨b, hb⟩ := List.exists_mem_of_ne_nil _ h.nonempty
  have hw := h.within hb
  have := h.run.charStart_lt hb
  simp only [Span.Within, Block.span, ParentWindow.span] at hw
  omega

theorem single {b : Block} (hv : b.Verbatim src) (hne : b.text ≠ []) :
    WindowOn src ⟨b.text, b.sectionPath, some b.blockType, b.charStart, b.charEnd, [b]⟩ where
  verbatim := hv
  run := ⟨by simpa using hv, by simpa using hne, List.pairwise_singleton _ _⟩
  nonempty := by simp
  start := by simp
  stop := by simp

end WindowOn

/-- The byte lies in a block of one of the windows. -/
def InWindowBlock (windows : List ParentWindow) (n : Nat) : Prop :=
  ∃ w ∈ windows, Covers (w.blocks.map Block.span) n

theorem InWindowBlock.append {windows more : List ParentWindow} {n : Nat}
    (h : InWindowBlock windows n) : InWindowBlock (windows ++ more) n := by
  obtain ⟨w, hw, hn⟩ := h
  exact ⟨w, List.mem_append_left more hw, hn⟩

theorem InWindowBlock.last {windows : List ParentWindow} {w : ParentWindow} {b : Block} {n : Nat}
    (hb : b ∈ w.blocks) (hn : b.span.Has n) : InWindowBlock (windows ++ [w]) n :=
  ⟨w, by simp, b.span, List.mem_map_of_mem hb, hn⟩

/-- Finished windows, all of them before the offset `m`. -/
structure WindowsBefore (src : Str) (windows : List ParentWindow) (m : Nat) : Prop where
  on : ∀ w ∈ windows, WindowOn src w
  separated : Separated (windows.map ParentWindow.span)
  before : ∀ w ∈ windows, w.charEnd ≤ m

namespace WindowsBefore

variable {src : Str} {windows : List ParentWindow} {m m' : Nat}

theorem nil : WindowsBefore src [] m := ⟨by simp, by simp, by simp⟩

theorem mono (h : WindowsBefore src windows m) (hm : m ≤ m') : WindowsBefore src windows m' :=
  ⟨h.on, h.separated, fun w hw => Nat.le_trans (h.before w hw) hm⟩

theorem concat (h : WindowsBefore src windows m) {w : ParentWindow} (hw : WindowOn src w)
    (hm : m ≤ w.charStart) (hm' : w.charEnd ≤ m') : WindowsBefore src (windows ++ [w]) m' where
  on := Slots.forall_mem_push h.on hw
  separated := by
    rw [List.map_append, List.map_singleton]
    refine h.separated.concat fun s hs => ?_
    obtain ⟨v, hv, rfl⟩ := List.mem_map.mp hs
    exact Nat.le_trans (h.before v hv) hm
  before := by
    have := hw.start_lt_stop
    apply Slots.forall_mem_push
    · intro v hv
      have := h.before v hv
      omega
    · exact hm'

end WindowsBefore

section Oversized

variable {src : Str} {block : Block} {limit : Nat} {tok : Tokenizer} {C : Prop}

theorem splitOversizedFrom_meets {σ : Type} {emit : σ → Str → Nat → Nat → Except Fault σ}
    {I : Nat → σ → Prop} (hv : block.Verbatim src)
    (hemit : ∀ i j t acc, I i acc → i < j →
      slice src (block.charStart + i) (block.charStart + j) = some t →
      (Fits tok limit t ∨ t.length = 1) →
      Meets (emit acc t (block.charStart + i) (block.charStart + j)) (I j) (PanicOnlyIf C))
    {segStart : Nat} {acc : σ} (hb : IsBoundary block.text segStart) (hI : I segStart acc) :
    Meets (splitOversizedFrom src block limit tok emit segStart acc)
      (I (byteLen block.text)) (PanicOnlyIf C) := by
  induction hd : byteLen block.text - segStart using Nat.strong_induction_on
    generalizing segStart acc with
  | _ d ih =>
    unfold splitOversizedFrom
    split
    · rename_i hlt
      obtain ⟨remaining, hrem⟩ := exists_slice hb (isBoundary_byteLen block.text) hb.le
      refine (sliceBytes_meets hrem).bind fun u _ hu => ?_
      subst hu
      have hne : u ≠ [] := by
        rintro rfl
        have := slice_stop hrem
        simp only [byteLen_nil] at this
        omega
      refine (findSplit_meets hne).bind fun segLen _ hsplit => ?_
      obtain ⟨pre, hpre, _, hfit⟩ := hsplit
      have hpos : 0 < segLen := SplitPoint.pos ⟨pre, hpre, ‹_›, hfit⟩
      have hin := slice_of_slice hrem hpre
      have hle := (slice_right_boundary hin).le
      have habs := slice_of_slice hv hin
      have habsle := (slice_right_boundary habs).le
      have hforce : forceProgress segStart (min (segStart + segLen) (byteLen block.text))
          (byteLen block.text) = segStart + segLen := by
        unfold forceProgress
        rw [Nat.min_eq_left hle, if_neg (by omega)]
      simp only [hforce, Nat.min_eq_left habsle]
      simp only [Nat.add_zero] at habs
      refine (sliceBytes_meets habs).bind fun t _ ht => ?_
      subst ht
      refine (hemit segStart (segStart + segLen) t acc hI (by omega) habs hfit).bind
        fun acc' _ hI' => ?_
      exact ih _ (by omega) (slice_right_boundary hin) hI' rfl
    · have := hb.le
      obtain rfl : segStart = byteLen block.text := by omega
      exact hI

theorem splitOversizedParentBlock_meets (hv : block.Verbatim src)
    {windows : List ParentWindow} (hw : WindowsBefore src windows block.charStart) :
    Meets (splitOversizedParentBlock src block tok limit windows)
      (fun ws => WindowsBefore src ws block.charEnd ∧
        (∀ n, InWindowBlock windows n → InWindowBlock ws n) ∧
        ∀ n, block.span.Has n → InWindowBlock ws n) (PanicOnlyIf C) := by
  have hend := hv.charEnd_eq
  let I : Nat → List ParentWindow → Prop := fun i ws =>
    WindowsBefore src ws (block.charStart + i) ∧
    (∀ n, InWindowBlock windows n → InWindowBlock ws n) ∧
    ∀ n, block.charStart ≤ n → n < block.charStart + i → InWindowBlock ws n
  unfold splitOversizedParentBlock splitOversized
  refine (splitOversizedFrom_meets (I := I) hv ?_ (isBoundary_zero _) ?_).mono ?_ fun _ h => h
  · rintro i j t ws ⟨hbefore, hkeep, hcov⟩ hij ht _
    have htne : t ≠ [] := by
      rintro rfl
      have := slice_stop ht
      simp only [byteLen_nil] at this
      omega
    let sub : Block := ⟨block.blockType, block.sectionPath, t, block.charStart + i,
      block.charStart + j⟩
    have hsub : sub.Verbatim src := ht
    refine ⟨hbefore.concat (WindowOn.single hsub htne) (Nat.le_refl _) (Nat.le_refl _),
      fun n hn => (hkeep n hn).append, fun n hlo hhi => ?_⟩
    by_cases hn : n < block.charStart + i
    · exact (hcov n hlo hn).append
    · exact InWindowBlock.last (List.mem_singleton_self sub) ⟨by simpa [sub, Block.span] using hn, hhi⟩
  · exact ⟨by simpa using hw, fun n hn => hn, by intros; omega⟩
  · rintro ws ⟨hbefore, hkeep, hcov⟩
    refine ⟨by simpa [hend] using hbefore, hkeep, fun n hn => hcov n hn.1 ?_⟩
    have := hn.2
    simp only [Block.span] at this
    omega

end Oversized

/-- The invariant of the parent packing loop. -/
structure ParentInv (src : Str) (pre post : List Block) (st : ParentPack) : Prop where
  before : ∃ m, WindowsBefore src st.windows m ∧ ∀ b ∈ st.blocks ++ post, m ≤ b.charStart
  run : BlockRun src (st.blocks ++ post)
  start : ∀ b, st.blocks.head? = some b → st.charStart = b.charStart
  stop : ∀ b, st.blocks.getLast? = some b → st.charEnd = b.charEnd
  covered : ∀ b ∈ pre, ∀ n, b.span.Has n → InWindowBlock st.windows n ∨ b ∈ st.blocks

section Packing

variable {src : Str} {tok : Tokenizer} {C : Prop} {pre post : List Block} {st : ParentPack}

theorem flushParentWindow_meets (h : ParentInv src pre post st) (hne : st.blocks ≠ []) :
    Meets (flushParentWindow src st.blocks st.charStart st.charEnd st.windows)
      (fun ws => ∃ w, ws = st.windows ++ [w] ∧ WindowOn src w ∧ w.blocks = st.blocks)
      (PanicOnlyIf C) := by
  obtain ⟨a, ha⟩ := exists_head hne
  obtain ⟨z, hz⟩ := exists_getLast hne
  have hrun := h.run.append_left
  have hmem := List.mem_of_getLast? hz
  have hstart : IsBoundary src st.charStart := by
    rw [h.start a ha]
    exact hrun.start_boundary (List.mem_of_mem_head? ha)
  have hstop : IsBoundary src st.charEnd := by
    rw [h.stop z hz]
    exact hrun.stop_boundary hmem
  have hle : st.charStart ≤ st.charEnd := by
    have := hrun.head_le ha hmem
    have := hrun.charStart_lt hmem
    rw [h.start a ha, h.stop z hz]
    omega
  obtain ⟨t, ht⟩ := exists_slice hstart hstop hle
  unfold flushParentWindow
  rw [Nat.min_eq_left hstop.le]
  refine (sliceBytes_meets ht).bind fun u _ hu => ?_
  subst hu
  exact ⟨_, rfl, ⟨ht, hrun, hne, h.start, h.stop⟩, rfl⟩

theorem ParentPack.flush_meets (h : ParentInv src pre post st) :
    Meets (st.flush src) (fun st' => ParentInv src pre post st' ∧ st'.blocks = [])
      (PanicOnlyIf C) := by
  obtain ⟨m, hbefore, hm⟩ := h.before
  unfold ParentPack.flush
  split
  · rename_i hempty
    exact ⟨h, List.isEmpty_iff.mp hempty⟩
  rename_i hopen
  have hne : st.blocks ≠ [] := fun he => hopen (List.isEmpty_iff.mpr he)
  refine (flushParentWindow_meets h hne).bind fun ws _ hws => ?_
  obtain ⟨w, rfl, hw, hwb⟩ := hws
  obtain ⟨a, ha⟩ := exists_head hne
  obtain ⟨z, hz⟩ := exists_getLast hne
  have hcross := (List.pairwise_append.mp h.run.disjoint).2.2
  refine ⟨⟨⟨w.charEnd, hbefore.concat hw ?_ (Nat.le_refl _), ?_⟩, h.run.append_right, by simp,
    by simp, ?_⟩, rfl⟩
  · rw [hw.start a (hwb ▸ ha)]
    exact hm a (List.mem_append_left _ (List.mem_of_mem_head? ha))
  · intro b' hb'
    rw [hw.stop z (hwb ▸ hz)]
    exact hcross z (List.mem_of_getLast? hz) b' (by simpa using hb')
  · intro b' hb' n hn
    rcases h.covered b' hb' n hn with hc | hc
    · exact Or.inl hc.append
    · exact Or.inl (InWindowBlock.last (hwb ▸ hc) hn)

theorem ParentPack.push_inv {b : Block} {n : Nat} (h : ParentInv src pre (b :: post) st) :
    ParentInv src (pre ++ [b]) post (st.push b n) := by
  refine ⟨by simpa [push] using h.before, by simpa [push] using h.run, ?_, ?_, ?_⟩
  · intro a ha
    cases hb : st.blocks with
    | nil =>
      simp only [push, hb, List.nil_append, List.head?_cons, Option.some.injEq] at ha ⊢
      simp [ha]
    | cons c l =>
      simp only [push, hb, List.cons_append, List.head?_cons, Option.some.injEq] at ha ⊢
      simpa using h.start a (by simp [hb, ha])
  · intro a ha
    simp only [push, List.getLast?_concat, Option.some.injEq] at ha ⊢
    rw [ha]
  · intro c hc k hk
    simp only [push, List.mem_append, List.mem_singleton] at hc ⊢
    rcases hc with hc | hc
    · rcases h.covered c hc k hk with hw | hw
      · exact Or.inl hw
      · exact Or.inr (Or.inl hw)
    · exact Or.inr (Or.inr hc)

theorem parentStep_split {b : Block} (h : ParentInv src pre (b :: post) st)
    (hempty : st.blocks = []) :
    Meets (splitOversizedParentBlock src b tok parentLimit st.windows)
      (fun ws => ParentInv src (pre ++ [b]) post { st with windows := ws }) (PanicOnlyIf C) := by
  obtain ⟨m, hbefore, hm⟩ := h.before
  have hrun := h.run.append_right
  have hcross := (List.pairwise_cons.mp hrun.disjoint).1
  have hb := hm b (by simp)
  refine (splitOversizedParentBlock_meets (hrun.verbatim b (by simp))
    (hbefore.mono hb)).mono ?_ fun _ h => h
  rintro ws ⟨hws, hkeep, hcov⟩
  refine ⟨⟨b.charEnd, hws, ?_⟩, ?_, by simp [hempty], by simp [hempty], ?_⟩
  · simpa [hempty] using hcross
  · simpa [hempty] using hrun.append_right (l := [b])
  · intro c hc n hn
    rcases List.mem_append.mp hc with hc | hc
    · rcases h.covered c hc n hn with hw | hw
      · exact Or.inl (hkeep n hw)
      · simp [hempty] at hw
    · rw [List.mem_singleton.mp hc] at hn
      exact Or.inl (hcov n hn)

theorem parentStep_meets {b : Block} (h : ParentInv src pre (b :: post) st) :
    Meets (parentStep src tok st b) (ParentInv src (pre ++ [b]) post) (PanicOnlyIf C) := by
  unfold parentStep
  refine (tokenCount_meets tok b.text C).bind fun blockTokens _ _ => ?_
  split
  · refine (ParentPack.flush_meets h).bind fun st' _ hst' => ?_
    refine (parentStep_split hst'.1 hst'.2).bind fun ws _ hws => ?_
    exact hws
  · split
    · refine (ParentPack.flush_meets h).bind fun st' _ hst' => ?_
      exact ParentPack.push_inv hst'.1
    · exact ParentPack.push_inv h

theorem parentInv_new {blocks : List Block} (h : BlockRun src blocks) :
    ParentInv src [] blocks ParentPack.new :=
  ⟨⟨0, WindowsBefore.nil, by simp⟩, by simpa [ParentPack.new] using h, by simp [ParentPack.new],
    by simp [ParentPack.new], by simp⟩

/-- The parent windows are verbatim, ordered and disjoint, and hold every packed byte. -/
theorem buildParentWindows_meets {blocks : List Block} (h : BlockRun src blocks) :
    Meets (buildParentWindows src blocks tok)
      (fun ws => (∃ m, WindowsBefore src ws m) ∧
        ∀ b ∈ blocks, ∀ n, b.span.Has n → InWindowBlock ws n) (PanicOnlyIf C) := by
  unfold buildParentWindows
  refine (meets_foldlM (I := ParentInv src) (E := PanicOnlyIf C) blocks (parentInv_new h)
    fun pre b post st _ hI _ => parentStep_meets hI).bind fun st _ hst => ?_
  refine (ParentPack.flush_meets hst).bind fun st' _ hst' => ?_
  obtain ⟨m, hbefore, _⟩ := hst'.1.before
  refine ⟨⟨m, hbefore⟩, fun b hb n hn => ?_⟩
  rcases hst'.1.covered b hb n hn with hc | hc
  · exact hc
  · simp [hst'.2] at hc

end Packing

end LensLM
