import LensLM.ChunkChildren
import Mathlib.Data.List.Forall2

/-!
# The chunk hierarchy

Every returned chunk is a verbatim slice, the parents are ordered and disjoint, and each
parent is followed by its own children. The chunker panics exactly when a forced frontier
lands inside a character.
-/

namespace LensLM

open ByteText Spans Outcome

set_option autoImplicit false

section Retile

variable {src : Str} {win : ParentWindow} {tok : Tokenizer} {C : Prop}

/-- The chunk without its token offsets. -/
def Chunk.core (c : Chunk) : Chunk := { c with tokenStart := 0, tokenEnd := 0 }

theorem prefixTokens_meets {boundary : Nat} (hw : IsBoundary src win.charStart)
    (hb : IsBoundary src boundary) :
    Meets (prefixTokens src win tok boundary) (fun _ => True) (PanicOnlyIf C) := by
  unfold prefixTokens
  simp only [Nat.min_eq_left hb.le]
  split
  · trivial
  · obtain ⟨t, ht⟩ := exists_slice hw hb (by omega)
    refine (sliceBytes_meets ht).bind fun u _ hu => ?_
    exact tokenCount_meets tok u C

theorem retileFrom_meets {ts te tileStart : Nat} {children : List Chunk}
    (hw : IsBoundary src win.charStart) (htile : IsBoundary src tileStart)
    (hc : ∀ c ∈ children, IsBoundary src c.charEnd) :
    Meets (retileFrom src win tok ts te tileStart children)
      (fun cs => cs.map Chunk.core = children.map Chunk.core) (PanicOnlyIf C) := by
  induction children generalizing tileStart with
  | nil => simp [retileFrom]
  | cons c rest ih =>
    cases rest with
    | nil =>
      unfold retileFrom
      exact (prefixTokens_meets hw htile).bind fun _ _ _ => rfl
    | cons d rest =>
      have hcb := hc c List.mem_cons_self
      unfold retileFrom
      simp only [Nat.min_eq_left hcb.le]
      refine (prefixTokens_meets hw htile).bind fun _ _ _ => ?_
      refine (prefixTokens_meets hw hcb).bind fun _ _ _ => ?_
      have hmax : IsBoundary src (max c.charEnd tileStart) := by
        rcases Nat.le_total c.charEnd tileStart with h | h
        · rw [Nat.max_eq_right h]
          exact htile
        · rw [Nat.max_eq_left h]
          exact hcb
      refine (ih hmax fun e he => hc e (List.mem_cons_of_mem c he)).bind fun tail _ htail => ?_
      simp only [meets_pure, List.map_cons] at htail ⊢
      rw [htail]
      rfl

theorem mem_of_core {cs ds : List Chunk} (h : cs.map Chunk.core = ds.map Chunk.core) {c : Chunk}
    (hc : c ∈ cs) : ∃ d ∈ ds, d.core = c.core :=
  List.mem_map.mp (h ▸ List.mem_map_of_mem hc)

theorem ChildOn.of_core {pid : String} {c d : Chunk} (h : ChildOn src win pid d)
    (heq : d.core = c.core) : ChildOn src win pid c := by
  have hd : ChildOn src win pid d.core :=
    ⟨h.verbatim, h.nonempty, h.within, h.kind, h.level, h.parent⟩
  rw [heq] at hd
  exact ⟨hd.verbatim, hd.nonempty, hd.within, hd.kind, hd.level, hd.parent⟩

theorem spans_of_core {cs ds : List Chunk} (h : cs.map Chunk.core = ds.map Chunk.core) :
    cs.map Chunk.span = ds.map Chunk.span := by
  have hspan : ∀ l : List Chunk, l.map Chunk.span = (l.map Chunk.core).map Chunk.span := by
    intro l
    rw [List.map_map]
    rfl
  rw [hspan cs, hspan ds, h]

theorem ChildrenOf.of_core {pid : String} {cs ds : List Chunk}
    (h : cs.map Chunk.core = ds.map Chunk.core) (hd : ChildrenOf src win pid ds) :
    ChildrenOf src win pid cs where
  on := by
    intro c hc
    obtain ⟨d, hdm, heq⟩ := mem_of_core h hc
    exact (hd.on d hdm).of_core heq
  ascending := by
    rw [spans_of_core h]
    exact hd.ascending
  covered := by
    rw [spans_of_core h]
    exact hd.covered

theorem retileChildTokenOffsets_meets {ts te : Nat} {pid : String} {children : List Chunk}
    (hw : WindowOn src win) (hc : ChildrenOf src win pid children) :
    Meets (retileChildTokenOffsets src win tok ts te children)
      (fun cs => cs.map Chunk.core = children.map Chunk.core ∧ ChildrenOf src win pid cs)
      (PanicOnlyIf C) := by
  have hwb := slice_left_boundary hw.verbatim
  refine (retileFrom_meets hwb hwb fun c hcm =>
    slice_right_boundary (hc.on c hcm).verbatim).mono ?_ fun _ h => h
  exact fun cs hcs => ⟨hcs, hc.of_core hcs⟩

end Retile

section Groups

variable {src : Str} {tok : Tokenizer} {strategy : IdStrategy}

/-- A parent chunk with the children that follow it. -/
structure Group where
  parent : Chunk
  children : List Chunk

def Group.chunks (g : Group) : List Chunk := g.parent :: g.children

/-- The group made of the window. -/
structure GroupOf (src : Str) (win : ParentWindow) (g : Group) : Prop where
  window : WindowOn src win
  text : g.parent.text = win.text
  span : g.parent.span = win.span
  kind : g.parent.kind = .parent
  level : g.parent.level = 0
  root : g.parent.parentId = none
  children : ChildrenOf src win g.parent.id g.children

/-- Ids of parents made at different ordinals differ. -/
def ParentIdsDistinct (strategy : IdStrategy) : Prop :=
  ∀ path text path' text' i j,
    strategy.makeId 0 path text i = strategy.makeId 0 path' text' j → i = j

/-- The invariant of the loop over the parent windows. -/
structure EmitInv (src : Str) (strategy : IdStrategy) (pre : List ParentWindow)
    (groups : List Group) (st : ChunkRun) : Prop where
  result : st.result = groups.flatMap Group.chunks
  grouped : List.Forall₂ (GroupOf src) pre groups
  ordinals : ∀ g ∈ groups, ∃ path text i, i < st.parentOrdinal ∧
    g.parent.id = strategy.makeId 0 path text i
  distinct : ParentIdsDistinct strategy →
    groups.Pairwise fun g g' => g.parent.id ≠ g'.parent.id

/-- The child packing of the window that the loop comes to cuts inside a character. -/
def EmitHits (src : Str) (tok : Tokenizer) (strategy : IdStrategy) (st : ChunkRun)
    (win : ParentWindow) : Prop :=
  ∃ n, tokenCount tok win.text = .ok n ∧
    WindowHits ⟨src, tok, strategy.makeId 0 win.sectionPath win.text st.parentOrdinal, strategy⟩
      win (childPackNew st.runningTokenOffset st.childOrdinal)

theorem EmitInv.push {pre : List ParentWindow} {groups : List Group} {st : ChunkRun}
    {win : ParentWindow} {children : List Chunk} {te ord : Nat}
    (h : EmitInv src strategy pre groups st) (hw : WindowOn src win)
    (hc : ChildrenOf src win
      (parentChunk strategy win st.parentOrdinal st.runningTokenOffset te).id children) :
    EmitInv src strategy (pre ++ [win])
      (groups ++ [⟨parentChunk strategy win st.parentOrdinal st.runningTokenOffset te, children⟩])
      ⟨st.result ++ parentChunk strategy win st.parentOrdinal st.runningTokenOffset te :: children,
        te, ord, st.parentOrdinal + 1⟩ where
  result := by simp [h.result, Group.chunks]
  grouped := List.rel_append h.grouped (.cons ⟨hw, rfl, rfl, rfl, rfl, rfl, hc⟩ .nil)
  ordinals := by
    apply Slots.forall_mem_push
    · intro g hg
      obtain ⟨path, text, i, hi, hid⟩ := h.ordinals g hg
      exact ⟨path, text, i, Nat.lt_succ_of_lt hi, hid⟩
    · exact ⟨win.sectionPath, win.text, st.parentOrdinal, Nat.lt_succ_self _, rfl⟩
  distinct := by
    intro hids
    refine List.pairwise_append.mpr ⟨h.distinct hids, List.pairwise_singleton _ _, ?_⟩
    intro g hg g' hg' heq
    obtain ⟨path, text, i, hi, hid⟩ := h.ordinals g hg
    rw [List.mem_singleton.mp hg', hid] at heq
    have := hids _ _ _ _ _ _ heq
    omega

theorem emitParent_meets {pre : List ParentWindow} {st : ChunkRun} {win : ParentWindow}
    (h : ∃ groups, EmitInv src strategy pre groups st) (hw : WindowOn src win) :
    Meets (emitParent src tok strategy st win)
      (fun st' => ∃ groups, EmitInv src strategy (pre ++ [win]) groups st')
      (PanicOnlyIf (EmitHits src tok strategy st win)) := by
  obtain ⟨groups, hI⟩ := h
  unfold emitParent
  refine (tokenCount_meets tok win.text _).bind fun n hn _ => ?_
  refine Meets.bind ((buildChildChunks_meets hw).mono (fun _ h => h) fun e he hp => ⟨n, hn, he hp⟩)
    fun r _ hr => ?_
  refine (retileChildTokenOffsets_meets hw hr).bind fun cs _ hcs => ?_
  exact ⟨_, hI.push hw hcs.2⟩

theorem emitParent_panic {st : ChunkRun} {win : ParentWindow}
    (h : EmitHits src tok strategy st win) :
    emitParent src tok strategy st win = .error .panic := by
  obtain ⟨n, hn, hhits⟩ := h
  unfold emitParent
  refine bind_eq_error.mpr (Or.inr ⟨n, hn, ?_⟩)
  exact bind_eq_error.mpr (Or.inl (buildChildChunks_panic hhits))

end Groups

section Chunking

variable {src : Str} {tok : Tokenizer} {strategy : IdStrategy}

theorem isBlank_iff_trim_empty (text : Str) : (trim text).isEmpty = true ↔ IsBlank text := by
  rw [List.isEmpty_iff, trim_eq_nil_iff]

theorem mem_nonBlankBlocks {blocks : List Block} {b : Block} :
    b ∈ nonBlankBlocks blocks ↔ b ∈ blocks ∧ ¬ IsBlank b.text := by
  unfold nonBlankBlocks
  rw [List.mem_filter, ← isBlank_iff_trim_empty]
  simp

theorem BlockList.blockRun (bs : BlockList src) : BlockRun src (nonBlankBlocks bs.blocks) where
  verbatim := fun b hb => bs.verbatim b (mem_nonBlankBlocks.mp hb).1
  filled := by
    intro b hb he
    exact (mem_nonBlankBlocks.mp hb).2 (he ▸ isBlank_nil)
  disjoint := (bs.filter fun b => !(trim b.text).isEmpty).disjoint

/-- Some oversized child block of the run is cut inside a character: the split point of
`find_split` lies at or before the frontier, and the frontier is forced into a character. -/
def ForcesCutInsideChar (src : Str) (blocks : List Block) (tok : Tokenizer)
    (strategy : IdStrategy) : Prop :=
  ∃ windows win st, buildParentWindows src (nonBlankBlocks blocks) tok = .ok windows ∧
    Reaches (emitParent src tok strategy) ⟨[], 0, 0, 0⟩ windows win st ∧
    EmitHits src tok strategy st win

/-- What every successful run returns. -/
structure GroupsOf (src : Str) (blocks : List Block) (strategy : IdStrategy)
    (chunks : List Chunk) (windows : List ParentWindow) (groups : List Group) : Prop where
  layout : chunks = groups.flatMap Group.chunks
  grouped : List.Forall₂ (GroupOf src) windows groups
  separated : Separated (windows.map ParentWindow.span)
  covered : ∀ b ∈ nonBlankBlocks blocks, ∀ n, b.span.Has n → InWindowBlock windows n
  distinct : ParentIdsDistinct strategy →
    groups.Pairwise fun g g' => g.parent.id ≠ g'.parent.id

theorem chunkBlocksInner_meets (bs : BlockList src) :
    Meets (chunkBlocksInner src bs.blocks tok strategy)
      (fun chunks => ∃ windows groups, GroupsOf src bs.blocks strategy chunks windows groups)
      (PanicOnlyIf (ForcesCutInsideChar src bs.blocks tok strategy)) := by
  unfold chunkBlocksInner
  dsimp only
  split
  · rename_i hempty
    refine ⟨[], [], rfl, .nil, List.Pairwise.nil, ?_, fun _ => List.Pairwise.nil⟩
    rw [List.isEmpty_iff.mp hempty]
    simp
  refine (buildParentWindows_meets bs.blockRun).bind fun windows hwin hws => ?_
  obtain ⟨⟨m, hbefore⟩, hcov⟩ := hws
  have hfold : Meets (windows.foldlM (emitParent src tok strategy) ⟨[], 0, 0, 0⟩)
      (fun st => ∃ groups, EmitInv src strategy windows groups st)
      (PanicOnlyIf (ForcesCutInsideChar src bs.blocks tok strategy)) := by
    refine meets_foldlM (I := fun pre _ st => ∃ groups, EmitInv src strategy pre groups st) windows
      ⟨[], rfl, .nil, by simp, fun _ => List.Pairwise.nil⟩ ?_
    intro pre win post st hl hI hreach
    have hw := hbefore.on win (by simp [hl])
    exact (emitParent_meets hI hw).mono (fun _ h => h)
      fun e he hp => ⟨windows, win, st, hwin, hreach, he hp⟩
  refine hfold.bind fun st _ hst => ?_
  obtain ⟨groups, hI⟩ := hst
  exact ⟨windows, groups, hI.result, hI.grouped, hbefore.separated, hcov, hI.distinct⟩

theorem chunkBlocksInner_panic {blocks : List Block}
    (h : ForcesCutInsideChar src blocks tok strategy) :
    chunkBlocksInner src blocks tok strategy = .error .panic := by
  obtain ⟨windows, win, st, hwin, hreach, hhits⟩ := h
  have hfold := foldlM_eq_error.mpr ⟨win, st, hreach, emitParent_panic hhits⟩
  unfold chunkBlocksInner
  dsimp only
  split
  · rename_i hempty
    rw [List.isEmpty_iff.mp hempty] at hwin
    obtain rfl : windows = [] := (Except.ok.inj hwin).symm
    obtain ⟨pre, post, heq, _⟩ := hreach
    simp at heq
  · exact bind_eq_error.mpr (Or.inr ⟨windows, hwin, bind_eq_error.mpr (Or.inl hfold)⟩)

theorem chunkBlocksInner_eq_panic (bs : BlockList src) :
    chunkBlocksInner src bs.blocks tok strategy = .error .panic ↔
      ForcesCutInsideChar src bs.blocks tok strategy :=
  ⟨fun h => (chunkBlocksInner_meets bs).failure h rfl, chunkBlocksInner_panic⟩

theorem exists_group {windows : List ParentWindow} {groups : List Group}
    (h : List.Forall₂ (GroupOf src) windows groups) {w : ParentWindow} (hw : w ∈ windows) :
    ∃ g ∈ groups, GroupOf src w g := by
  induction h with
  | nil => simp at hw
  | @cons v g vs gs hg _ ih =>
    rcases List.mem_cons.mp hw with rfl | hw
    · exact ⟨g, List.mem_cons_self, hg⟩
    · obtain ⟨g', hg', h'⟩ := ih hw
      exact ⟨g', List.mem_cons_of_mem g hg', h'⟩

theorem exists_window {windows : List ParentWindow} {groups : List Group}
    (h : List.Forall₂ (GroupOf src) windows groups) {g : Group} (hg : g ∈ groups) :
    ∃ w ∈ windows, GroupOf src w g := by
  induction h with
  | nil => simp at hg
  | @cons w k ws ks hk _ ih =>
    rcases List.mem_cons.mp hg with rfl | hg
    · exact ⟨w, List.mem_cons_self, hk⟩
    · obtain ⟨w', hw', h'⟩ := ih hg
      exact ⟨w', List.mem_cons_of_mem w hw', h'⟩

theorem parentSpans_eq {windows : List ParentWindow} {groups : List Group}
    (h : List.Forall₂ (GroupOf src) windows groups) :
    groups.map (fun g => g.parent.span) = windows.map ParentWindow.span := by
  induction h with
  | nil => rfl
  | cons hg _ ih => simp [hg.span, ih]

namespace GroupsOf

variable {blocks : List Block} {chunks : List Chunk} {windows : List ParentWindow}
  {groups : List Group}

theorem mem_chunks (h : GroupsOf src blocks strategy chunks windows groups) {c : Chunk} :
    c ∈ chunks ↔ ∃ g ∈ groups, c = g.parent ∨ c ∈ g.children := by
  rw [h.layout, List.mem_flatMap]
  simp [Group.chunks]

/-- Every returned chunk is a nonempty verbatim slice. -/
theorem verbatim (h : GroupsOf src blocks strategy chunks windows groups) {c : Chunk}
    (hc : c ∈ chunks) : slice src c.charStart c.charEnd = some c.text := by
  obtain ⟨g, hg, rfl | hcm⟩ := h.mem_chunks.mp hc
  · obtain ⟨w, _, hw⟩ := exists_window h.grouped hg
    have hs := hw.window.verbatim
    have hspan := hw.span
    simp only [Chunk.span, ParentWindow.span, Span.mk.injEq] at hspan
    rw [hspan.1, hspan.2, hw.text]
    exact hs
  · obtain ⟨w, _, hw⟩ := exists_window h.grouped hg
    exact (hw.children.on c hcm).verbatim

/-- Only the children of a group carry its parent's id. -/
theorem filter_children (h : GroupsOf src blocks strategy chunks windows groups)
    (hids : ParentIdsDistinct strategy) {g : Group} (hg : g ∈ groups) :
    chunks.filter (fun c => c.parentId = some g.parent.id) = g.children := by
  rw [h.layout]
  have hd := h.distinct hids
  have hall : ∀ k ∈ groups, k.parent.parentId = none ∧
      ∀ c ∈ k.children, c.parentId = some k.parent.id := by
    intro k hk
    obtain ⟨w, _, hw⟩ := exists_window h.grouped hk
    exact ⟨hw.root, fun c hc => (hw.children.on c hc).parent⟩
  have hpart : ∀ k : Group, k.parent.parentId = none →
      (∀ c ∈ k.children, c.parentId = some k.parent.id) →
      k.chunks.filter (fun c => c.parentId = some g.parent.id) =
        if k.parent.id = g.parent.id then k.children else [] := by
    intro k hroot hkids
    unfold Group.chunks
    rw [List.filter_cons_of_neg (by simp [hroot])]
    split
    · rename_i heq
      exact List.filter_eq_self.mpr fun c hc => by simp [hkids c hc, heq]
    · rename_i hne
      exact List.filter_eq_nil_iff.mpr fun c hc => by simp [hkids c hc, hne]
  clear h
  induction groups with
  | nil => simp at hg
  | cons k ks ih =>
    obtain ⟨hk, hks⟩ := List.pairwise_cons.mp hd
    have hrest : ∀ g' ∈ ks, g'.parent.id ≠ g.parent.id →
        g'.chunks.filter (fun c => c.parentId = some g.parent.id) = [] := by
      intro g' hg' hne
      have := hall g' (List.mem_cons_of_mem k hg')
      rw [hpart g' this.1 this.2, if_neg hne]
    have hkk := hall k List.mem_cons_self
    rw [List.flatMap_cons, List.filter_append, hpart k hkk.1 hkk.2]
    by_cases hkg : k = g
    · subst hkg
      rw [if_pos rfl, List.filter_flatMap]
      have hnil : ks.flatMap (fun g' => g'.chunks.filter
          (fun c => c.parentId = some k.parent.id)) = [] :=
        List.flatMap_eq_nil_iff.mpr fun g' hg' => hrest g' hg' (Ne.symm (hk g' hg'))
      simp [hnil]
    · have hgks : g ∈ ks := (List.mem_cons.mp hg).resolve_left (Ne.symm hkg)
      rw [if_neg (hk g hgks), List.nil_append]
      exact ih hgks hks fun g' hg' => hall g' (List.mem_cons_of_mem k hg')

end GroupsOf

theorem parentIdsDistinct_v7 {nowV7 : Nat → Nat → String}
    (h : Function.Injective (nowV7 0)) : ParentIdsDistinct (.v7 nowV7) :=
  fun _ _ _ _ _ _ heq => h heq

/-- The two-level hierarchy over the non-blank blocks. -/
structure ChunkHierarchy (blocks : List Block) (chunks : List Chunk)
    (groups : List Group) : Prop where
  layout : chunks = groups.flatMap Group.chunks
  parents : ∀ g ∈ groups,
    g.parent.kind = .parent ∧ g.parent.level = 0 ∧ g.parent.parentId = none
  children : ∀ g ∈ groups, ∀ c ∈ g.children,
    c.kind = .child ∧ c.level = 1 ∧ c.span.Within g.parent.span
  own : ∀ g ∈ groups, chunks.filter (fun c => c.parentId = some g.parent.id) = g.children
  nonempty : ∀ g ∈ groups, g.parent.charStart < g.parent.charEnd
  ordered : Separated (groups.map fun g => g.parent.span)
  ascending : ∀ g ∈ groups, Ascending (g.children.map Chunk.span)
  covered : ∀ b ∈ blocks, ¬ IsBlank b.text → ∀ n, b.span.Has n → ∃ g ∈ groups,
    g.parent.span.Has n ∧ Covers (g.children.map Chunk.span) n ∧
    ∀ p ∈ chunks, p.kind = .parent → p.span.Has n → p = g.parent

theorem GroupsOf.hierarchy {blocks : List Block} {chunks : List Chunk}
    {windows : List ParentWindow} {groups : List Group}
    (h : GroupsOf src blocks strategy chunks windows groups)
    (hids : ParentIdsDistinct strategy) : ChunkHierarchy blocks chunks groups where
  layout := h.layout
  parents := by
    intro g hg
    obtain ⟨w, _, hw⟩ := exists_window h.grouped hg
    exact ⟨hw.kind, hw.level, hw.root⟩
  children := by
    intro g hg c hc
    obtain ⟨w, _, hw⟩ := exists_window h.grouped hg
    have hon := hw.children.on c hc
    exact ⟨hon.kind, hon.level, hw.span ▸ hon.within⟩
  own := fun g hg => h.filter_children hids hg
  nonempty := by
    intro g hg
    obtain ⟨w, _, hw⟩ := exists_window h.grouped hg
    have hlt := hw.window.start_lt_stop
    have hspan := hw.span
    simp only [Chunk.span, ParentWindow.span, Span.mk.injEq] at hspan
    omega
  ordered := by
    rw [parentSpans_eq h.grouped]
    exact h.separated
  ascending := by
    intro g hg
    obtain ⟨w, _, hw⟩ := exists_window h.grouped hg
    exact hw.children.ascending
  covered := by
    intro b hb hnb n hn
    obtain ⟨w, hw, s, hs, hsn⟩ := h.covered b (mem_nonBlankBlocks.mpr ⟨hb, hnb⟩) n hn
    obtain ⟨b', hb', rfl⟩ := List.mem_map.mp hs
    obtain ⟨g, hg, hgw⟩ := exists_group h.grouped hw
    have hwithin := hgw.window.within hb'
    have hgn : g.parent.span.Has n := by
      rw [hgw.span]
      exact ⟨Nat.le_trans hwithin.1 hsn.1, Nat.lt_of_lt_of_le hsn.2 hwithin.2⟩
    refine ⟨g, hg, hgn, hgw.children.covered b' hb' n hsn, fun p hp hkind hpn => ?_⟩
    obtain ⟨k, hk, rfl | hpk⟩ := h.mem_chunks.mp hp
    · have hsep := parentSpans_eq h.grouped ▸ h.separated
      rw [Separated.unique hsep hk hg hpn hgn]
    · obtain ⟨v, _, hv⟩ := exists_window h.grouped hk
      have := (hv.children.on p hpk).kind
      rw [hkind] at this
      cases this

/-- Whatever chunks are returned form the hierarchy over the given blocks. -/
theorem chunkBlocks_hierarchy (bs : BlockList src) (tok : Tokenizer)
    {nowV7 : Nat → Nat → String} (hids : Function.Injective (nowV7 0)) {chunks : List Chunk}
    (h : chunkBlocks src bs.blocks tok nowV7 = .ok chunks) :
    ∃ groups, ChunkHierarchy bs.blocks chunks groups := by
  obtain ⟨windows, groups, hg⟩ := (chunkBlocksInner_meets bs).value h
  exact ⟨groups, hg.hierarchy (parentIdsDistinct_v7 hids)⟩

def pairSource : Str := "ab\n\ncd".toList

def pairBlocks : BlockList pairSource where
  blocks := [⟨.paragraph, [], "ab".toList, 0, 2⟩, ⟨.paragraph, [], "cd".toList, 4, 6⟩]
  verbatim := by decide
  disjoint := by decide

def numberedIds (level ordinal : Nat) : String :=
  String.ofList (List.replicate (2 * ordinal + level) 'i')

theorem numberedIds_injective (level : Nat) : Function.Injective (numberedIds level) := by
  intro i j h
  have := congrArg List.length (String.ofList_injective h)
  simp only [List.length_replicate] at this
  omega

theorem chunkBlocks_hierarchy_pair :
    ∃ groups, ChunkHierarchy pairBlocks.blocks
      [⟨"", none, .parent, 0, [], pairSource, 0, 360, 0, 6, some .paragraph, none⟩,
        ⟨"i", some "", .child, 1, [], "ab".toList, 0, 120, 0, 2, some .paragraph, none⟩,
        ⟨"iii", some "", .child, 1, [], "cd".toList, 120, 360, 4, 6, some .paragraph, none⟩]
      groups :=
  chunkBlocks_hierarchy pairBlocks (Tokenizer.ofCount fun t => 60 * t.length)
    (numberedIds_injective 0) (by decide +kernel)

/-- Every slice of a run is at character boundaries, and every chunk is the slice at its
offsets, exactly when no frontier is forced into a character. -/
theorem chunkBlocks_boundaries_iff (bs : BlockList src) (tok : Tokenizer) (nowV7 : Nat → Nat → String) :
    (chunkBlocks src bs.blocks tok nowV7 ≠ .error .panic ∧
      ∀ chunks, chunkBlocks src bs.blocks tok nowV7 = .ok chunks →
        ∀ c ∈ chunks, slice src c.charStart c.charEnd = some c.text) ↔
    ¬ ForcesCutInsideChar src bs.blocks tok (.v7 nowV7) := by
  constructor
  · rintro ⟨hne, _⟩ hcut
    exact hne (chunkBlocksInner_panic hcut)
  · intro hcut
    refine ⟨fun hp => hcut ((chunkBlocksInner_eq_panic bs).mp hp), fun chunks hc c hcm => ?_⟩
    obtain ⟨windows, groups, hg⟩ := (chunkBlocksInner_meets bs).value hc
    exact hg.verbatim hcm

/-- A few short words before a long run of three-byte characters. -/
def forcedSource : Str := "a b c ".toList ++ List.replicate 130 '日'

def forcedBlocks : BlockList forcedSource where
  blocks := [⟨.paragraph, [], forcedSource, 0, byteLen forcedSource⟩]
  verbatim := by simp [Block.Verbatim]
  disjoint := List.pairwise_singleton _ _

theorem forcedBlocks_panics :
    chunkBlocks forcedSource forcedBlocks.blocks (Tokenizer.ofCount List.length)
      (fun _ _ => "") = .error .panic := by
  decide +kernel

/-- A source of one-byte characters has no offset inside a character. -/
theorem isBoundary_of_ascii {s : Str} (h : ∀ c ∈ s, c.utf8Size = 1) {n : Nat}
    (hn : n ≤ byteLen s) : IsBoundary s n := by
  have hlen : ∀ t : Str, (∀ c ∈ t, c.utf8Size = 1) → byteLen t = t.length := by
    intro t ht
    induction t with
    | nil => rfl
    | cons c t ih =>
      have := ht c List.mem_cons_self
      have := ih fun d hd => ht d (List.mem_cons_of_mem c hd)
      simp only [byteLen_cons, List.length_cons]
      omega
  refine ⟨s.take n, s.drop n, (List.take_append_drop n s).symm, ?_⟩
  rw [hlen s h] at hn
  rw [hlen _ fun c hc => h c (List.mem_of_mem_take hc), List.length_take]
  omega

/-- Over one-byte characters no forced frontier lands inside a character. -/
theorem not_forcesCutInsideChar_of_ascii {blocks : List Block}
    (h : ∀ c ∈ src, c.utf8Size = 1) : ¬ ForcesCutInsideChar src blocks tok strategy := by
  rintro ⟨windows, win, st, _, _, _, _, b, st', _, _, st'', _, t, _, hlt, _, _, _, _, _, _, _, hnb⟩
  exact hnb (isBoundary_of_ascii h (Nat.le_trans hlt (Nat.min_le_right _ _)))

end Chunking

end LensLM
