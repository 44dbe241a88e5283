import LensLM.ChunkTokens
import LensLM.Lib.Tiling

/-!
# Token offsets

The token ranges of the parents follow each other from zero on. The children share bytes, but their
token ranges are made to follow each other within the range of their parent.
-/

namespace LensLM

open ByteText Spans Outcome

set_option autoImplicit false

section Retiling

variable {src : Str} {win : ParentWindow} {tok : Tokenizer}

/-- A longer text never counts fewer tokens than a prefix of it. -/
def Tokenizer.PrefixMonotone (tok : Tokenizer) : Prop :=
  ∀ s t m n, tok.encode s = .ok m → tok.encode (s ++ t) = .ok n → m ≤ n

def Chunk.tokenSpan (c : Chunk) : Span := ⟨c.tokenStart, c.tokenEnd⟩

theorem tokenCount_eq_ok {text : Str} {n : Nat} : tokenCount tok text = .ok n ↔
    tok.encode text = .ok n := by
  unfold tokenCount
  cases tok.encode text <;> simp

/-- The counts of two slices with one start. -/
theorem Tokenizer.PrefixMonotone.slices {a b c m n : Nat} {s t : Str} (h : tok.PrefixMonotone)
    (hs : slice src a b = some s) (ht : slice src a c = some t) (hbc : b ≤ c)
    (hm : tokenCount tok s = .ok m) (hn : tokenCount tok t = .ok n) : m ≤ n := by
  obtain ⟨u, hu⟩ := exists_slice (slice_right_boundary hs) (slice_right_boundary ht) hbc
  have hwhole := slice_append hs hu
  rw [ht] at hwhole
  rw [Option.some.inj hwhole] at hn
  exact h s u m n (tokenCount_eq_ok.mp hm) (tokenCount_eq_ok.mp hn)

theorem prefixTokens_start : prefixTokens src win tok win.charStart = .ok 0 := by
  unfold prefixTokens
  exact if_pos (Nat.min_le_left _ _)

theorem prefixTokens_eq_ok {i n : Nat} (h : prefixTokens src win tok i = .ok n) :
    (min i (byteLen src) ≤ win.charStart ∧ n = 0) ∨ win.charStart < min i (byteLen src) ∧
      ∃ t, slice src win.charStart (min i (byteLen src)) = some t ∧ tokenCount tok t = .ok n := by
  unfold prefixTokens at h
  dsimp only at h
  split at h
  · next hle => exact Or.inl ⟨hle, (Except.ok.inj h).symm⟩
  · next hlt =>
    right
    obtain ⟨t, ht, hn⟩ := bind_eq_ok.mp h
    exact ⟨Nat.lt_of_not_le hlt, t, sliceBytes_eq_ok.mp ht, hn⟩

theorem prefixTokens_mono {i j m n : Nat} (hmono : tok.PrefixMonotone) (hij : i ≤ j)
    (hi : prefixTokens src win tok i = .ok m) (hj : prefixTokens src win tok j = .ok n) :
    m ≤ n := by
  rcases prefixTokens_eq_ok hi with ⟨-, rfl⟩ | ⟨hlt, s, hs, hm⟩
  · exact Nat.zero_le n
  · rcases prefixTokens_eq_ok hj with ⟨hle, -⟩ | ⟨-, t, ht, hn⟩
    · omega
    · exact hmono.slices hs ht (by omega) hm hn

theorem prefixTokens_le {i m n : Nat} (hmono : tok.PrefixMonotone) (hw : WindowOn src win)
    (hi : i ≤ win.charEnd) (hm : prefixTokens src win tok i = .ok m)
    (hn : tokenCount tok win.text = .ok n) : m ≤ n := by
  rcases prefixTokens_eq_ok hm with ⟨-, rfl⟩ | ⟨-, t, ht, hcount⟩
  · exact Nat.zero_le n
  · exact hmono.slices ht hw.verbatim (by omega) hcount hn

/-- The children from one on tile what is left of the range of the parent. -/
theorem retileFrom_tiles {ts n tile p : Nat} {children cs : List Chunk}
    (hmono : tok.PrefixMonotone) (hw : WindowOn src win) (hn : tokenCount tok win.text = .ok n)
    (hne : children ≠ []) (hends : children.Pairwise fun c d => c.charEnd ≤ d.charEnd)
    (htile : tile ≤ win.charEnd) (hin : ∀ c ∈ children, tile ≤ c.charEnd ∧ c.charEnd ≤ win.charEnd)
    (hp : prefixTokens src win tok tile = .ok p)
    (h : retileFrom src win tok ts (ts + n) tile children = .ok cs) :
    Consecutive (ts + p) (ts + n) (cs.map Chunk.tokenSpan) := by
  have hlen : win.charEnd ≤ byteLen src := (slice_right_boundary hw.verbatim).le
  induction children generalizing tile p cs with
  | nil => exact absurd rfl hne
  | cons c rest ih =>
    obtain ⟨hctile, hcend⟩ := hin c List.mem_cons_self
    cases rest with
    | nil =>
      unfold retileFrom at h
      obtain ⟨p', hp', h⟩ := bind_eq_ok.mp h
      obtain rfl : p = p' := Except.ok.inj (hp.symm.trans hp')
      rw [← Except.ok.inj h]
      exact ⟨rfl, Nat.add_le_add_left (prefixTokens_le hmono hw htile hp hn) ts, rfl⟩
    | cons d rest =>
      unfold retileFrom at h
      dsimp only at h
      rw [Nat.min_eq_left (Nat.le_trans hcend hlen), Nat.max_eq_left hctile] at h
      obtain ⟨p', hp', h⟩ := bind_eq_ok.mp h
      obtain rfl : p = p' := Except.ok.inj (hp.symm.trans hp')
      obtain ⟨q, hq, h⟩ := bind_eq_ok.mp h
      obtain ⟨tail, htail, h⟩ := bind_eq_ok.mp h
      rw [← Except.ok.inj h]
      obtain ⟨hfirst, hrest⟩ := List.pairwise_cons.mp hends
      refine ⟨rfl, Nat.add_le_add_left (prefixTokens_mono hmono hctile hp hq) ts, ?_⟩
      apply ih (List.cons_ne_nil d rest) hrest hcend _ hq htail
      intro e he
      exact ⟨hfirst e he, (hin e (List.mem_cons_of_mem c he)).2⟩

theorem ChildrenOf.ne_nil {pid : String} {children : List Chunk} (hw : WindowOn src win)
    (hc : ChildrenOf src win pid children) : children ≠ [] := by
  rintro rfl
  obtain ⟨b, hb⟩ := List.exists_mem_of_ne_nil _ hw.nonempty
  have hlt := hw.run.charStart_lt hb
  obtain ⟨s, hs, -⟩ := hc.covered b hb b.charStart ⟨Nat.le_refl _, hlt⟩
  cases hs

theorem retileChildTokenOffsets_tiles {ts n : Nat} {pid : String} {children cs : List Chunk}
    (hmono : tok.PrefixMonotone) (hw : WindowOn src win) (hn : tokenCount tok win.text = .ok n)
    (hc : ChildrenOf src win pid children)
    (h : retileChildTokenOffsets src win tok ts (ts + n) children = .ok cs) :
    Consecutive ts (ts + n) (cs.map Chunk.tokenSpan) := by
  have hends : children.Pairwise fun c d => c.charEnd ≤ d.charEnd := by
    apply (List.pairwise_map.mp hc.ascending).imp
    intro c d hcd
    exact Nat.le_of_lt hcd.2
  have hin : ∀ c ∈ children, win.charStart ≤ c.charEnd ∧ c.charEnd ≤ win.charEnd := by
    intro c hcm
    have hwithin := (hc.on c hcm).within
    have hend := slice_stop (hc.on c hcm).verbatim
    simp only [Span.Within, Chunk.span, ParentWindow.span] at hwithin
    omega
  exact retileFrom_tiles hmono hw hn (hc.ne_nil hw) hends (Nat.le_of_lt hw.start_lt_stop) hin
    prefixTokens_start h

end Retiling

section Run

variable {src : Str} {tok : Tokenizer} {strategy : IdStrategy}

/-- The ranges of the parents tile those of the whole text, and the children of each one its own. -/
structure GroupsTile (groups : List Group) (total : Nat) : Prop where
  parents : Consecutive 0 total (groups.map fun g => g.parent.tokenSpan)
  children : ∀ g ∈ groups, g.children ≠ [] ∧
    Consecutive g.parent.tokenStart g.parent.tokenEnd (g.children.map Chunk.tokenSpan)

theorem emitParent_tiles {pre : List ParentWindow} {st : ChunkRun} {win : ParentWindow}
    (hmono : tok.PrefixMonotone)
    (h : ∃ groups, EmitInv src strategy pre groups st ∧ GroupsTile groups st.runningTokenOffset)
    (hw : WindowOn src win) :
    Meets (emitParent src tok strategy st win)
      (fun st' => ∃ groups, EmitInv src strategy (pre ++ [win]) groups st' ∧
        GroupsTile groups st'.runningTokenOffset) (fun _ => True) := by
  obtain ⟨groups, hI, hT⟩ := h
  unfold emitParent
  refine (tokenCount_meets tok win.text True).values.bind fun n hn _ => ?_
  refine (buildChildChunks_meets hw).values.bind fun r _ hr => ?_
  refine (retileChildTokenOffsets_meets (C := True) hw hr).values.bind fun cs hcs hkids => ?_
  refine ⟨_, hI.push hw hkids.2, ?_, ?_⟩
  · rw [List.map_append]
    exact hT.parents.concat (Nat.le_add_right _ n)
  · apply Slots.forall_mem_push hT.children
    exact ⟨hkids.2.ne_nil hw, retileChildTokenOffsets_tiles hmono hw hn hr hcs⟩

theorem chunkBlocksInner_tiles (bs : BlockList src) (hmono : tok.PrefixMonotone) :
    Meets (chunkBlocksInner src bs.blocks tok strategy)
      (fun chunks => ∃ windows groups total, GroupsOf src bs.blocks strategy chunks windows groups ∧
        GroupsTile groups total) (fun _ => True) := by
  unfold chunkBlocksInner
  dsimp only
  split
  · next hempty =>
    refine ⟨[], [], 0, ⟨rfl, .nil, List.Pairwise.nil, ?_, fun _ => List.Pairwise.nil⟩, rfl, nofun⟩
    rw [List.isEmpty_iff.mp hempty]
    exact nofun
  refine (buildParentWindows_meets (C := True) bs.blockRun).values.bind fun windows _ hws => ?_
  obtain ⟨⟨m, hbefore⟩, hcov⟩ := hws
  have hfold := meets_foldlM (f := emitParent src tok strategy)
    (I := fun pre _ st => ∃ groups, EmitInv src strategy pre groups st ∧
      GroupsTile groups st.runningTokenOffset)
    (E := fun _ => True) windows (s := ⟨[], 0, 0, 0⟩)
    ⟨[], ⟨rfl, .nil, nofun, fun _ => List.Pairwise.nil⟩, rfl, nofun⟩ fun pre win post st hl hI _ =>
      emitParent_tiles hmono hI (hbefore.on win (by simp [hl]))
  refine hfold.bind fun st _ hst => ?_
  obtain ⟨groups, hI, hT⟩ := hst
  exact ⟨windows, groups, st.runningTokenOffset,
    ⟨hI.result, hI.grouped, hbefore.separated, hcov, hI.distinct⟩, hT⟩

end Run

section Offsets

def parentChunks (chunks : List Chunk) : List Chunk := chunks.filter fun c => c.kind = .parent

def childChunks (chunks : List Chunk) (p : Chunk) : List Chunk :=
  chunks.filter fun c => c.parentId = some p.id

/-- The token ranges of the parents tile the whole, and those of its children every parent's. -/
def TokenOffsetsTile (chunks : List Chunk) : Prop :=
  (∃ total, Consecutive 0 total ((parentChunks chunks).map Chunk.tokenSpan)) ∧
    ∀ p ∈ parentChunks chunks, childChunks chunks p ≠ [] ∧
      Consecutive p.tokenStart p.tokenEnd ((childChunks chunks p).map Chunk.tokenSpan)

theorem parentChunks_eq {blocks : List Block} {chunks : List Chunk} {groups : List Group}
    (h : ChunkHierarchy blocks chunks groups) : parentChunks chunks = groups.map Group.parent := by
  have hkids := h.children
  have hroots := h.parents
  rw [h.layout]
  clear h
  induction groups with
  | nil => rfl
  | cons g groups ih =>
    have hown : parentChunks g.chunks = [g.parent] := by
      unfold parentChunks Group.chunks
      rw [List.filter_cons_of_pos (by simp [(hroots g List.mem_cons_self).1])]
      congr 1
      apply List.filter_eq_nil_iff.mpr
      intro c hc
      simp [(hkids g List.mem_cons_self c hc).1]
    rw [List.flatMap_cons, parentChunks, List.filter_append]
    have hrest := ih (fun k hk => hkids k (List.mem_cons_of_mem g hk))
      fun k hk => hroots k (List.mem_cons_of_mem g hk)
    exact congrArg₂ (· ++ ·) hown hrest

theorem lengthCounter_prefixMonotone : lengthCounter.tok.PrefixMonotone := by
  intro s t m n hm hn
  rw [← Except.ok.inj hm, ← Except.ok.inj hn]
  show s.length ≤ (s ++ t).length
  rw [List.length_append]
  exact Nat.le_add_right _ _

def pairChunks : List Chunk :=
  [⟨numberedIds 0 0, none, .parent, 0, [], pairSource, 0, 6, 0, 6, some .paragraph, none⟩,
    ⟨numberedIds 1 0, some (numberedIds 0 0), .child, 1, [], pairSource, 0, 6, 0, 6, some .paragraph,
      none⟩]

/-- A list item that is a long heading: "- # aaa". -/
def longHeadedSrc : Str := "- # ".toList ++ (List.replicate 140 'a' ++ ['\n'])

def longHeaded : Doc :=
  .node .list 0 145 (.node .item 0 145
    (.node (.heading 1) 2 145 (.leaf .text 4 144 .nil) .nil) .nil) .nil

def longTitle : Str := List.replicate 140 'a'

def longHeadedBlocks : List Block :=
  [⟨.heading, longTitle, longTitle, 4, 144⟩, ⟨.listItem, [], "- # ".toList ++ longTitle, 0, 144⟩]

def longHeadedChild (block : Block) (ordinal tokenStart tokenEnd charStart charEnd : Nat) : Chunk :=
  ⟨numberedIds 1 ordinal, some (numberedIds 0 0), .child, 1, block.sectionPath,
    (longHeadedSrc.take charEnd).drop charStart, tokenStart, tokenEnd, charStart, charEnd,
    some block.blockType, none⟩

def longHeadedParent : Chunk :=
  ⟨numberedIds 0 0, none, .parent, 0, longTitle, longTitle, 0, 140, 4, 144, some .heading, none⟩

/-- The third child begins in front of the second one's end, and so its range is turned around. -/
def longHeadedChunks : List Chunk :=
  longHeadedParent :: longHeadedBlocks.flatMap fun b =>
    if b.blockType = .heading then
      [longHeadedChild b 0 0 129 4 133, longHeadedChild b 1 129 140 133 144]
    else
      [longHeadedChild b 2 140 0 0 3, longHeadedChild b 3 140 0 2 4,
        longHeadedChild b 4 140 129 4 133, longHeadedChild b 5 140 140 133 144]

end Offsets

end LensLM
