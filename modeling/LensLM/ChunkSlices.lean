import LensLM.ChunkHierarchy

/-!
# Chunks of any blocks

Whatever the blocks are, a chunk is cut from the buffer at the offsets that it carries, as long as
no block of text ends beyond the buffer. The end of a parent window is taken from its last block as
it is; all other ends are clamped.
-/

namespace LensLM

open ByteText Outcome

set_option autoImplicit false

def Chunk.Verbatim (src : Str) (c : Chunk) : Prop := slice src c.charStart c.charEnd = some c.text

def ParentWindow.Verbatim (src : Str) (w : ParentWindow) : Prop :=
  slice src w.charStart w.charEnd = some w.text

/-- No block with text ends beyond the buffer. -/
def EndWithin (src : Str) (blocks : List Block) : Prop :=
  ∀ b ∈ nonBlankBlocks blocks, b.charEnd ≤ byteLen src

instance (src : Str) (blocks : List Block) : Decidable (EndWithin src blocks) :=
  inferInstanceAs (Decidable (∀ b ∈ _, _))

variable {src : Str} {tok : Tokenizer}

theorem meets_any {ε α : Type} (x : Except ε α) : Meets x (fun _ => True) fun _ => True := by
  cases x <;> trivial

theorem sliceBytes_values (s : Str) (a b : Nat) :
    Meets (sliceBytes s a b) (fun t => slice s a b = some t) fun _ => True :=
  meets_iff.mpr ⟨fun _ h => sliceBytes_eq_ok.mp h, fun _ _ => trivial⟩

section Parents

theorem splitOversizedFrom_keeps {σ : Type} {block : Block} {limit : Nat}
    {emit : σ → Str → Nat → Nat → Except Fault σ} {I : σ → Prop}
    (hemit : ∀ t a b acc, I acc → slice src a b = some t →
      Meets (emit acc t a b) I fun _ => True) {segStart : Nat} {acc : σ} (hI : I acc) :
    Meets (splitOversizedFrom src block limit tok emit segStart acc) I fun _ => True := by
  induction hd : byteLen block.text - segStart using Nat.strong_induction_on
    generalizing segStart acc with
  | _ d ih =>
    unfold splitOversizedFrom
    split
    · rename_i hlt
      refine (meets_any _).bind fun remaining _ _ => ?_
      refine (meets_any _).bind fun segLen _ _ => ?_
      refine (sliceBytes_values src _ _).bind fun t _ ht => ?_
      refine (hemit t _ _ acc hI ht).bind fun acc' _ hI' => ?_
      have hprogress := lt_forceProgress (min (segStart + segLen) (byteLen block.text)) hlt
      exact ih _ (by omega) hI' rfl
    · exact hI

theorem splitOversizedParentBlock_keeps {block : Block} {limit : Nat} {windows : List ParentWindow}
    (hw : ∀ w ∈ windows, w.Verbatim src) :
    Meets (splitOversizedParentBlock src block tok limit windows)
      (fun ws => ∀ w ∈ ws, w.Verbatim src) fun _ => True := by
  refine splitOversizedFrom_keeps (I := fun ws => ∀ w ∈ ws, ParentWindow.Verbatim src w) ?_ hw
  intro t a b ws hws ht
  exact Slots.forall_mem_push hws ht

/-- The invariant of the parent packing loop: the finished windows are slices, and the open one
ends within the buffer. -/
structure ParentPack.Sliced (src : Str) (st : ParentPack) : Prop where
  windows : ∀ w ∈ st.windows, w.Verbatim src
  stop : st.blocks ≠ [] → st.charEnd ≤ byteLen src

theorem ParentPack.flush_values {st : ParentPack} (h : st.Sliced src) :
    Meets (st.flush src) (ParentPack.Sliced src) fun _ => True := by
  unfold ParentPack.flush
  split
  · exact h
  · rename_i hopen
    have hstop := h.stop fun hnil => hopen (by rw [hnil]; rfl)
    refine Meets.bind (Q := fun ws => ∀ w ∈ ws, w.Verbatim src) ?_ fun ws _ hws =>
      ⟨hws, fun hnil => absurd rfl hnil⟩
    unfold flushParentWindow
    rw [Nat.min_eq_left hstop]
    exact (sliceBytes_values src _ _).bind fun t _ ht => Slots.forall_mem_push h.windows ht

theorem ParentPack.Sliced.push {st : ParentPack} (h : st.Sliced src) {block : Block}
    (hb : block.charEnd ≤ byteLen src) (n : Nat) : (st.push block n).Sliced src :=
  ⟨h.windows, fun _ => hb⟩

theorem parentStep_values {st : ParentPack} (h : st.Sliced src) {block : Block}
    (hb : block.charEnd ≤ byteLen src) :
    Meets (parentStep src tok st block) (ParentPack.Sliced src) fun _ => True := by
  unfold parentStep
  refine (meets_any _).bind fun blockTokens _ _ => ?_
  split
  · refine (ParentPack.flush_values h).bind fun st' _ h' => ?_
    exact (splitOversizedParentBlock_keeps h'.windows).bind fun ws _ hws => ⟨hws, h'.stop⟩
  · split
    · exact (ParentPack.flush_values h).bind fun st' _ h' => h'.push hb _
    · exact h.push hb _

theorem buildParentWindows_values {blocks : List Block}
    (hblocks : ∀ b ∈ blocks, b.charEnd ≤ byteLen src) :
    Meets (buildParentWindows src blocks tok) (fun ws => ∀ w ∈ ws, w.Verbatim src)
      fun _ => True := by
  unfold buildParentWindows
  have hfold : Meets (blocks.foldlM (parentStep src tok) ParentPack.new) (ParentPack.Sliced src)
      fun _ => True := by
    refine meets_foldlM (I := fun _ _ => ParentPack.Sliced src) blocks ?_ ?_
    · exact ⟨List.forall_mem_nil _, fun hnil => absurd rfl hnil⟩
    · intro pre b post st hl h _
      exact parentStep_values h (hblocks b (by simp [hl]))
  refine hfold.bind fun st _ h => ?_
  exact (ParentPack.flush_values h).bind fun st' _ h' => h'.windows

end Parents

section Children

variable {ctx : ChildCtx} {win : ParentWindow}

def ChildPack.Sliced (src : Str) (st : ChildPack) : Prop := ∀ c ∈ st.children, c.Verbatim src

theorem flushChildWindow_values {st : ChildPack} (h : st.Sliced ctx.src) :
    Meets (flushChildWindow ctx st) (ChildPack.Sliced ctx.src) fun _ => True := by
  unfold flushChildWindow
  split
  · exact h
  · refine (sliceBytes_values ctx.src _ _).bind fun t _ ht => ?_
    exact (meets_any _).bind fun toks _ _ => Slots.forall_mem_push h ht

theorem openChildWindow_values {limit blockTokens : Nat} {block : Block} {st : ChildPack}
    (h : st.Sliced ctx.src) : Meets (openChildWindow ctx limit block blockTokens st)
      (ChildPack.Sliced ctx.src) fun _ => True := by
  unfold openChildWindow
  dsimp only
  split
  · refine (meets_any _).bind fun overlapTokens _ _ => ?_
    split
    · exact h
    · exact h
  · refine (meets_any _).bind fun overlapTokens _ _ => ?_
    split
    · exact h
    · exact h

theorem splitChildOnce_values {block : Block} {limit blockEnd consumedEnd : Nat} {st : ChildPack}
    (h : st.Sliced ctx.src) : Meets (splitChildOnce ctx win block limit blockEnd consumedEnd st)
      (fun x => x.2.Sliced ctx.src) fun _ => True := by
  unfold splitChildOnce
  refine (meets_any _).bind fun overlap _ _ => ?_
  refine (meets_any _).bind fun remaining _ _ => ?_
  refine (meets_any _).bind fun segLen _ _ => ?_
  refine (sliceBytes_values ctx.src _ _).bind fun t _ ht => ?_
  exact (meets_any _).bind fun toks _ _ => Slots.forall_mem_push h ht

theorem splitChildFrom_values {block : Block} {limit blockEnd consumedEnd : Nat} {st : ChildPack}
    (h : st.Sliced ctx.src) : Meets (splitChildFrom ctx win block limit blockEnd consumedEnd st)
      (ChildPack.Sliced ctx.src) fun _ => True := by
  induction hd : blockEnd - consumedEnd using Nat.strong_induction_on
    generalizing consumedEnd st with
  | _ d ih =>
    unfold splitChildFrom
    split
    · rename_i hlt
      split
      · trivial
      · rename_i absEnd st' hstep
        have hprogress := splitChildOnce_progress hstep hlt
        exact ih _ (by omega) ((splitChildOnce_values h).value hstep) rfl
    · exact h

theorem childStep_values {limit : Nat} {block : Block} {st : ChildPack} (h : st.Sliced ctx.src) :
    Meets (childStep ctx win limit st block) (ChildPack.Sliced ctx.src) fun _ => True := by
  unfold childStep
  refine (meets_any _).bind fun blockTokens _ _ => ?_
  split
  · exact (flushChildWindow_values h).bind fun st' _ h' => splitChildFrom_values h'
  · split
    · exact openChildWindow_values h
    · split
      · refine (flushChildWindow_values h).bind fun st' _ h' => ?_
        exact (meets_any _).bind fun overlap _ _ => openChildWindow_values h'
      · exact h

theorem buildChildChunks_values {parentId : String} {tokenStart ordinal : Nat}
    {strategy : IdStrategy} :
    Meets (buildChildChunks src win tok parentId tokenStart strategy ordinal)
      (fun x => ∀ c ∈ x.1, c.Verbatim src) fun _ => True := by
  unfold buildChildChunks
  have hfold := meets_foldlM (f := childStep ⟨src, tok, parentId, strategy⟩ win childLimit)
    (I := fun _ _ => ChildPack.Sliced src) (E := fun _ => True)
    (s := ⟨[], tokenStart, ChildAccumulator.new, none, ordinal⟩) win.blocks (List.forall_mem_nil _)
    fun _ _ _ _ _ h _ => childStep_values h
  refine hfold.bind fun st _ h => ?_
  exact (flushChildWindow_values h).bind fun st' _ h' => h'

theorem retileFrom_values {ts te tileStart : Nat} {children : List Chunk} :
    Meets (retileFrom src win tok ts te tileStart children)
      (fun cs => cs.map Chunk.core = children.map Chunk.core) fun _ => True := by
  induction children generalizing tileStart with
  | nil => simp [retileFrom]
  | cons c rest ih =>
    cases rest with
    | nil =>
      unfold retileFrom
      exact (meets_any _).bind fun _ _ _ => rfl
    | cons d rest =>
      unfold retileFrom
      refine (meets_any _).bind fun _ _ _ => ?_
      refine (meets_any _).bind fun _ _ _ => ?_
      refine ih.bind fun tail _ htail => ?_
      simp only [meets_pure, List.map_cons] at htail ⊢
      rw [htail]
      rfl

theorem Chunk.Verbatim.of_core {c d : Chunk} (h : d.Verbatim src) (heq : d.core = c.core) :
    c.Verbatim src := by
  have hs := congrArg Chunk.charStart heq
  have he := congrArg Chunk.charEnd heq
  have ht := congrArg Chunk.text heq
  simp only [Chunk.core] at hs he ht
  unfold Chunk.Verbatim at h ⊢
  rw [← hs, ← he, ← ht]
  exact h

end Children

theorem emitParent_values {strategy : IdStrategy} {st : ChunkRun} {win : ParentWindow}
    (h : ∀ c ∈ st.result, c.Verbatim src) (hw : win.Verbatim src) :
    Meets (emitParent src tok strategy st win) (fun st' => ∀ c ∈ st'.result, c.Verbatim src)
      fun _ => True := by
  unfold emitParent
  refine (meets_any _).bind fun parentTokenCount _ _ => ?_
  refine buildChildChunks_values.bind fun x _ hx => ?_
  refine retileFrom_values.bind fun children _ hcore => ?_
  refine List.forall_mem_append.mpr ⟨h, List.forall_mem_cons.mpr ⟨hw, fun c hc => ?_⟩⟩
  obtain ⟨d, hd, heq⟩ := mem_of_core hcore hc
  exact (hx d hd).of_core heq

/-- Every chunk is the slice of the buffer at its offsets. -/
theorem chunkBlocks_values (tok : Tokenizer) {blocks : List Block} (hends : EndWithin src blocks)
    (nowV7 : Nat → Nat → String) :
    Meets (chunkBlocks src blocks tok nowV7) (fun chunks => ∀ c ∈ chunks, c.Verbatim src)
      fun _ => True := by
  unfold chunkBlocks chunkBlocksInner
  dsimp only
  split
  · exact List.forall_mem_nil _
  · refine (buildParentWindows_values hends).bind fun windows _ hws => ?_
    have hfold : Meets (windows.foldlM (emitParent src tok (.v7 nowV7)) ⟨[], 0, 0, 0⟩)
        (fun st => ∀ c ∈ st.result, c.Verbatim src) fun _ => True := by
      refine meets_foldlM (I := fun _ _ st => ∀ c ∈ ChunkRun.result st, c.Verbatim src) windows
        (List.forall_mem_nil _) ?_
      intro pre w post st hl h _
      exact emitParent_values h (hws w (by simp [hl]))
    exact hfold.bind fun st _ h => h

end LensLM
