import LensLM.Block

/-!
# The parent-child chunker

Blocks are packed into parent windows of about 512 tokens, and every parent window is
packed again into child chunks of about 128 tokens that overlap by about 16 tokens.
Slicing at an offset that is no character boundary is the fault `panic`.
-/

namespace LensLM

open ByteText Spans

set_option autoImplicit false

/-- The external tokenizer: the number of ids of an encoding, or its error text. -/
structure Tokenizer where
  encode : Str → Except String Nat

def Tokenizer.ofCount (count : Str → Nat) : Tokenizer := ⟨fun text => .ok (count text)⟩

def tokenCount (tok : Tokenizer) (text : Str) : Except Fault Nat :=
  match tok.encode text with
  | .ok n => .ok n
  | .error e => .error (.parse ("tokenizer encode failed: " ++ e))

def CHILD_TOKEN_TARGET : Nat := 128
def PARENT_TOKEN_TARGET : Nat := 512
def CHILD_TOKEN_TOLERANCE : Nat := 1
def PARENT_TOKEN_TOLERANCE : Nat := 1
def CHILD_OVERLAP_TOKENS : Nat := 16

def parentLimit : Nat := PARENT_TOKEN_TARGET + PARENT_TOKEN_TOLERANCE
def childLimit : Nat := CHILD_TOKEN_TARGET + CHILD_TOKEN_TOLERANCE

inductive ChunkKind where
  | parent
  | child
deriving DecidableEq, Repr

structure Chunk where
  id : String
  parentId : Option String
  kind : ChunkKind
  level : Nat
  sectionPath : Str
  text : Str
  tokenStart : Nat
  tokenEnd : Nat
  charStart : Nat
  charEnd : Nat
  blockType : Option BlockType
  sourceAnchor : Option Str
deriving DecidableEq, Repr

def Chunk.span (c : Chunk) : Span := ⟨c.charStart, c.charEnd⟩

/-- How ids are made. The generators are external: a UUIDv7 is fresh at every call, and each
call is told apart by its level and ordinal. -/
inductive IdStrategy where
  | v7 (nowV7 : Nat → Nat → String)
  | contentDerived (sha256Hex : List UInt8 → String)

/-- The little-endian bytes of a machine integer. -/
def leBytes : Nat → Nat → List UInt8
  | 0, _ => []
  | width + 1, n => UInt8.ofNat n :: leBytes width (n / 256)

def utf8 (s : Str) : List UInt8 := (String.ofList s).toUTF8.toList

def IdStrategy.makeId (strategy : IdStrategy) (level : Nat) (sectionPath text : Str)
    (ordinal : Nat) : String :=
  match strategy with
  | .v7 nowV7 => nowV7 level ordinal
  | .contentDerived sha256Hex =>
    sha256Hex (leBytes 4 level ++ [0] ++ utf8 sectionPath ++ [0] ++ utf8 text ++ [0] ++
      leBytes 8 ordinal)

section Splitting

/-- The binary search of `find_split` over the offsets at which the text may be cut. -/
def searchCut {α : Type} (tok : Tokenizer) (limit : Nat) (text : Str) (cuts : List Nat)
    (found : Nat → α) (lo hi : Nat) (best : α) : Except Fault α :=
  if lo < hi then
    let mid := lo + (hi - lo) / 2
    match cuts[mid]? with
    | none => .error .panic
    | some cut => do
      let n ← tokenCount tok (← sliceBytes text 0 cut)
      if n ≤ limit then searchCut tok limit text cuts found (mid + 1) hi (found cut)
      else searchCut tok limit text cuts found lo mid best
  else .ok best
termination_by hi - lo

/-- The interior offsets at which a whitespace character starts. -/
def wsBoundaries (text : Str) : List Nat :=
  ((charIndices text).filter fun ic => decide (0 < ic.1) && isWhitespace ic.2).map Prod.fst

/-- The offsets of all characters but the first. -/
def charBoundaries (text : Str) : List Nat := ((charIndices text).map Prod.fst).drop 1

def findSplit (tok : Tokenizer) (limit : Nat) (text : Str) : Except Fault Nat := do
  if (← tokenCount tok text) ≤ limit then return byteLen text
  let ws := wsBoundaries text
  match ← searchCut tok limit text ws some 0 ws.length none with
  | some cut => return cut
  | none =>
    let cs := charBoundaries text
    let safeEnd ← searchCut tok limit text cs id 0 cs.length (cs.head?.getD (byteLen text))
    return max safeEnd 1

/-- The progress guard of both split loops: at least one byte past the frontier. -/
def forceProgress (frontier stop bound : Nat) : Nat :=
  if stop ≤ frontier then min (frontier + 1) bound else stop

theorem lt_forceProgress {frontier bound : Nat} (stop : Nat) (h : frontier < bound) :
    frontier < forceProgress frontier stop bound := by
  unfold forceProgress
  split <;> omega

/-- The loop of `split_oversized` from a byte offset of the block on. -/
def splitOversizedFrom {σ : Type} (src : Str) (block : Block) (limit : Nat) (tok : Tokenizer)
    (emit : σ → Str → Nat → Nat → Except Fault σ) (segStart : Nat) (acc : σ) : Except Fault σ :=
  if segStart < byteLen block.text then do
    let remaining ← sliceBytes block.text segStart (byteLen block.text)
    let segLen ← findSplit tok limit remaining
    let segEnd := forceProgress segStart (min (segStart + segLen) (byteLen block.text))
      (byteLen block.text)
    let absStart := block.charStart + segStart
    let absEnd := min (block.charStart + segEnd) (byteLen src)
    let segText ← sliceBytes src absStart absEnd
    let acc ← emit acc segText absStart absEnd
    splitOversizedFrom src block limit tok emit segEnd acc
  else .ok acc
termination_by byteLen block.text - segStart
decreasing_by exact Nat.sub_lt_sub_left ‹_› (lt_forceProgress _ ‹_›)

def splitOversized {σ : Type} (src : Str) (block : Block) (limit : Nat) (tok : Tokenizer)
    (emit : σ → Str → Nat → Nat → Except Fault σ) (acc : σ) : Except Fault σ :=
  splitOversizedFrom src block (max limit 1) tok emit 0 acc

end Splitting

section Parents

structure ParentWindow where
  text : Str
  sectionPath : Str
  blockType : Option BlockType
  charStart : Nat
  charEnd : Nat
  blocks : List Block
deriving DecidableEq, Repr

def ParentWindow.span (w : ParentWindow) : Span := ⟨w.charStart, w.charEnd⟩

def flushParentWindow (src : Str) (blocks : List Block) (charStart charEnd : Nat)
    (windows : List ParentWindow) : Except Fault (List ParentWindow) := do
  let text ← sliceBytes src charStart (min charEnd (byteLen src))
  return windows ++ [{
    text := text
    sectionPath := (blocks.head?.map Block.sectionPath).getD []
    blockType := blocks.head?.map Block.blockType
    charStart := charStart
    charEnd := charEnd
    blocks := blocks }]

def splitOversizedParentBlock (src : Str) (block : Block) (tok : Tokenizer) (limit : Nat)
    (windows : List ParentWindow) : Except Fault (List ParentWindow) :=
  splitOversized src block limit tok
    (fun windows segText absStart absEnd =>
      let subBlock : Block := {
        blockType := block.blockType
        sectionPath := block.sectionPath
        text := segText
        charStart := absStart
        charEnd := absEnd }
      .ok (windows ++ [{
        text := segText
        sectionPath := block.sectionPath
        blockType := some block.blockType
        charStart := absStart
        charEnd := absEnd
        blocks := [subBlock] }]))
    windows

/-- The locals of the parent packing loop. -/
structure ParentPack where
  windows : List ParentWindow
  blocks : List Block
  charStart : Nat
  charEnd : Nat
  tokens : Nat

def ParentPack.new : ParentPack := ⟨[], [], 0, 0, 0⟩

/-- Flushes the open window, if there is one. -/
def ParentPack.flush (src : Str) (st : ParentPack) : Except Fault ParentPack :=
  if st.blocks.isEmpty then .ok st
  else do
    let windows ← flushParentWindow src st.blocks st.charStart st.charEnd st.windows
    return { st with windows := windows, blocks := [], tokens := 0 }

def ParentPack.push (st : ParentPack) (block : Block) (blockTokens : Nat) : ParentPack where
  windows := st.windows
  blocks := st.blocks ++ [block]
  charStart := if st.blocks.isEmpty then block.charStart else st.charStart
  charEnd := block.charEnd
  tokens := st.tokens + blockTokens

def parentStep (src : Str) (tok : Tokenizer) (st : ParentPack) (block : Block) :
    Except Fault ParentPack := do
  let blockTokens ← tokenCount tok block.text
  if parentLimit < blockTokens then
    let st ← st.flush src
    let windows ← splitOversizedParentBlock src block tok parentLimit st.windows
    return { st with windows := windows }
  else if !st.blocks.isEmpty && decide (parentLimit < st.tokens + blockTokens) then
    return (← st.flush src).push block blockTokens
  else return st.push block blockTokens

def buildParentWindows (src : Str) (blocks : List Block) (tok : Tokenizer) :
    Except Fault (List ParentWindow) := do
  let st ← blocks.foldlM (parentStep src tok) ParentPack.new
  return (← st.flush src).windows

end Parents

section Children

/-- The open child window. -/
structure ChildAccumulator where
  blocks : List Block
  charStart : Nat
  charEnd : Nat
  tokens : Nat
deriving DecidableEq, Repr

def ChildAccumulator.new : ChildAccumulator := ⟨[], 0, 0, 0⟩

def ChildAccumulator.isEmpty (acc : ChildAccumulator) : Bool := acc.blocks.isEmpty

/-- Read-only context shared by all children of one parent. -/
structure ChildCtx where
  src : Str
  tok : Tokenizer
  parentId : String
  strategy : IdStrategy

/-- The locals of the child packing loop. -/
structure ChildPack where
  children : List Chunk
  runningTokenOffset : Nat
  acc : ChildAccumulator
  pendingOverlapStart : Option Nat
  childOrdinal : Nat

def ChildCtx.chunk (ctx : ChildCtx) (sectionPath text : Str) (charStart charEnd : Nat)
    (blockType : Option BlockType) (tokenStart tokenEnd ordinal : Nat) : Chunk where
  id := ctx.strategy.makeId 1 sectionPath text ordinal
  parentId := some ctx.parentId
  kind := .child
  level := 1
  sectionPath := sectionPath
  text := text
  tokenStart := tokenStart
  tokenEnd := tokenEnd
  charStart := charStart
  charEnd := charEnd
  blockType := blockType
  sourceAnchor := none

/-- `flush_child_window`: a fresh accumulator replaces the flushed one. -/
def flushChildWindow (ctx : ChildCtx) (st : ChildPack) : Except Fault ChildPack :=
  if st.acc.isEmpty then .ok st
  else do
    let stop := min st.acc.charEnd (byteLen ctx.src)
    let text ← sliceBytes ctx.src st.acc.charStart stop
    let toks ← tokenCount ctx.tok text
    let chunk := ctx.chunk ((st.acc.blocks.head?.map Block.sectionPath).getD []) text
      st.acc.charStart stop (st.acc.blocks.head?.map Block.blockType)
      st.runningTokenOffset (st.runningTokenOffset + toks) st.childOrdinal
    return { st with
      children := st.children ++ [chunk]
      runningTokenOffset := st.runningTokenOffset + toks
      acc := ChildAccumulator.new
      childOrdinal := st.childOrdinal + 1 }

/-- The offsets just after a whitespace character, strictly inside the span. -/
def overlapCandidates (text : Str) (prevStart prevEnd : Nat) : List Nat :=
  (((charIndices text).filter fun ic => isWhitespace ic.2).map
    fun ic => prevStart + ic.1 + ic.2.utf8Size).filter
    fun abs => decide (prevStart < abs) && decide (abs < prevEnd)

/-- The first candidate whose tail costs at most the overlap budget. -/
def chooseOverlap (src : Str) (tok : Tokenizer) (prevEnd : Nat) :
    List Nat → Except Fault (Option Nat)
  | [] => .ok none
  | b :: bs => do
    let tailTokens ← tokenCount tok (← sliceBytes src b prevEnd)
    if tailTokens ≤ CHILD_OVERLAP_TOKENS then return some b
    else chooseOverlap src tok prevEnd bs

def overlapBackOff (src : Str) (win : ParentWindow) (lastChild : Option Chunk)
    (tok : Tokenizer) : Except Fault (Option Nat) :=
  match lastChild with
  | none => .ok none
  | some prev =>
    if CHILD_OVERLAP_TOKENS = 0 then .ok none
    else
      let prevStart := prev.charStart
      let prevEnd := min prev.charEnd (byteLen src)
      if prevEnd ≤ prevStart then .ok none
      else do
        let text ← sliceBytes src prevStart prevEnd
        match ← chooseOverlap src tok prevEnd (overlapCandidates text prevStart prevEnd) with
        | some b => return if b < win.charEnd then some b else none
        | none => return none

def seedOverlapTokens (src : Str) (overlapStart blockStart : Nat) (tok : Tokenizer) :
    Except Fault Nat :=
  let stop := min blockStart (byteLen src)
  if stop ≤ overlapStart then .ok 0
  else do tokenCount tok (← sliceBytes src overlapStart stop)

/-- Opens a child window with one block, after the pending overlap when that fits. -/
def openChildWindow (ctx : ChildCtx) (limit : Nat) (block : Block) (blockTokens : Nat)
    (st : ChildPack) : Except Fault ChildPack := do
  let overlapTokens ← match st.pendingOverlapStart with
    | some ov => seedOverlapTokens ctx.src ov block.charStart ctx.tok
    | none => pure 0
  if limit < overlapTokens + blockTokens then
    return { st with
      pendingOverlapStart := none
      acc := ⟨[block], block.charStart, block.charEnd, blockTokens⟩ }
  else
    return { st with
      acc := ⟨[block], st.pendingOverlapStart.getD block.charStart, block.charEnd,
        overlapTokens + blockTokens⟩ }

/-- The overlap is used only when it lies before the frontier. -/
def windowStart (overlap : Option Nat) (consumedEnd : Nat) : Nat :=
  match overlap with
  | some ov => if ov < consumedEnd then ov else consumedEnd
  | none => consumedEnd

/-- One iteration of `split_oversized_child_block`, from the frontier `consumedEnd`. -/
def splitChildOnce (ctx : ChildCtx) (win : ParentWindow) (block : Block) (limit : Nat)
    (blockEnd consumedEnd : Nat) (st : ChildPack) : Except Fault (Nat × ChildPack) := do
  let overlap ← overlapBackOff ctx.src win st.children.getLast? ctx.tok
  let winStart := windowStart overlap consumedEnd
  let remaining ← sliceBytes ctx.src winStart blockEnd
  let segLen ← findSplit ctx.tok limit remaining
  let absEnd := forceProgress consumedEnd (min (winStart + segLen) blockEnd) blockEnd
  let segText ← sliceBytes ctx.src winStart absEnd
  let segTokens ← tokenCount ctx.tok segText
  let chunk := ctx.chunk block.sectionPath segText winStart absEnd (some block.blockType)
    st.runningTokenOffset (st.runningTokenOffset + segTokens) st.childOrdinal
  return (absEnd, { st with
    children := st.children ++ [chunk]
    runningTokenOffset := st.runningTokenOffset + segTokens
    childOrdinal := st.childOrdinal + 1 })

theorem splitChildOnce_progress {ctx : ChildCtx} {win : ParentWindow} {block : Block}
    {limit blockEnd consumedEnd absEnd : Nat} {st st' : ChildPack}
    (h : splitChildOnce ctx win block limit blockEnd consumedEnd st = .ok (absEnd, st'))
    (hlt : consumedEnd < blockEnd) : consumedEnd < absEnd := by
  unfold splitChildOnce at h
  simp only [Outcome.bind_eq_ok] at h
  obtain ⟨overlap, _, remaining, _, segLen, _, segText, _, segTokens, _, h⟩ := h
  obtain ⟨rfl, _⟩ := Prod.mk.inj (Except.ok.inj h)
  exact lt_forceProgress _ hlt

/-- The loop of `split_oversized_child_block` with the frontier at `consumedEnd`. -/
def splitChildFrom (ctx : ChildCtx) (win : ParentWindow) (block : Block) (limit : Nat)
    (blockEnd consumedEnd : Nat) (st : ChildPack) : Except Fault ChildPack :=
  if consumedEnd < blockEnd then
    match _h : splitChildOnce ctx win block limit blockEnd consumedEnd st with
    | .error e => .error e
    | .ok (absEnd, st') => splitChildFrom ctx win block limit blockEnd absEnd st'
  else .ok st
termination_by blockEnd - consumedEnd
decreasing_by exact Nat.sub_lt_sub_left ‹_› (splitChildOnce_progress _h ‹_›)

def splitOversizedChildBlock (ctx : ChildCtx) (win : ParentWindow) (block : Block)
    (limit : Nat) (st : ChildPack) : Except Fault ChildPack :=
  splitChildFrom ctx win block (max limit 1)
    (min (block.charStart + byteLen block.text) (byteLen ctx.src)) block.charStart st

def childStep (ctx : ChildCtx) (win : ParentWindow) (limit : Nat) (st : ChildPack)
    (block : Block) : Except Fault ChildPack := do
  let blockTokens ← tokenCount ctx.tok block.text
  if limit < blockTokens then
    let st ← flushChildWindow ctx st
    splitOversizedChildBlock ctx win block limit { st with pendingOverlapStart := none }
  else if st.acc.isEmpty then openChildWindow ctx limit block blockTokens st
  else if limit < st.acc.tokens + blockTokens then
    let st ← flushChildWindow ctx st
    let overlap ← overlapBackOff ctx.src win st.children.getLast? ctx.tok
    openChildWindow ctx limit block blockTokens { st with pendingOverlapStart := overlap }
  else
    return { st with acc := {
      blocks := st.acc.blocks ++ [block]
      charStart := st.acc.charStart
      charEnd := block.charEnd
      tokens := st.acc.tokens + blockTokens } }

/-- Returns the children and the advanced child ordinal. -/
def buildChildChunks (src : Str) (win : ParentWindow) (tok : Tokenizer) (parentId : String)
    (parentTokenStart : Nat) (strategy : IdStrategy) (childOrdinal : Nat) :
    Except Fault (List Chunk × Nat) := do
  let ctx : ChildCtx := ⟨src, tok, parentId, strategy⟩
  let st ← win.blocks.foldlM (childStep ctx win childLimit)
    ⟨[], parentTokenStart, ChildAccumulator.new, none, childOrdinal⟩
  let st ← flushChildWindow ctx st
  return (st.children, st.childOrdinal)

def prefixTokens (src : Str) (win : ParentWindow) (tok : Tokenizer) (boundary : Nat) :
    Except Fault Nat :=
  let stop := min boundary (byteLen src)
  if stop ≤ win.charStart then .ok 0
  else do tokenCount tok (← sliceBytes src win.charStart stop)

/-- Only the token offsets of the children change. -/
def retileFrom (src : Str) (win : ParentWindow) (tok : Tokenizer)
    (parentTokenStart parentTokenEnd : Nat) (tileStart : Nat) :
    List Chunk → Except Fault (List Chunk)
  | [] => .ok []
  | [last] => do
    let before ← prefixTokens src win tok tileStart
    return [{ last with tokenStart := parentTokenStart + before, tokenEnd := parentTokenEnd }]
  | child :: next :: rest => do
    let childEnd := min child.charEnd (byteLen src)
    let before ← prefixTokens src win tok tileStart
    let upTo ← prefixTokens src win tok childEnd
    let tail ← retileFrom src win tok parentTokenStart parentTokenEnd (max childEnd tileStart)
      (next :: rest)
    return { child with
      tokenStart := parentTokenStart + before
      tokenEnd := parentTokenStart + upTo } :: tail

def retileChildTokenOffsets (src : Str) (win : ParentWindow) (tok : Tokenizer)
    (parentTokenStart parentTokenEnd : Nat) (children : List Chunk) :
    Except Fault (List Chunk) :=
  retileFrom src win tok parentTokenStart parentTokenEnd win.charStart children

end Children

section Chunking

def nonBlankBlocks (blocks : List Block) : List Block :=
  blocks.filter fun b => !(trim b.text).isEmpty

/-- The locals of the loop over the parent windows. -/
structure ChunkRun where
  result : List Chunk
  runningTokenOffset : Nat
  childOrdinal : Nat
  parentOrdinal : Nat

def parentChunk (strategy : IdStrategy) (win : ParentWindow)
    (parentOrdinal tokenStart tokenEnd : Nat) : Chunk where
  id := strategy.makeId 0 win.sectionPath win.text parentOrdinal
  parentId := none
  kind := .parent
  level := 0
  sectionPath := win.sectionPath
  text := win.text
  tokenStart := tokenStart
  tokenEnd := tokenEnd
  charStart := win.charStart
  charEnd := win.charEnd
  blockType := win.blockType
  sourceAnchor := none

def emitParent (src : Str) (tok : Tokenizer) (strategy : IdStrategy) (st : ChunkRun)
    (win : ParentWindow) : Except Fault ChunkRun := do
  let parentTokenCount ← tokenCount tok win.text
  let parentTokenStart := st.runningTokenOffset
  let parentTokenEnd := st.runningTokenOffset + parentTokenCount
  let parent := parentChunk strategy win st.parentOrdinal parentTokenStart parentTokenEnd
  let (children, childOrdinal) ←
    buildChildChunks src win tok parent.id parentTokenStart strategy st.childOrdinal
  let children ← retileChildTokenOffsets src win tok parentTokenStart parentTokenEnd children
  return {
    result := st.result ++ parent :: children
    runningTokenOffset := parentTokenEnd
    childOrdinal := childOrdinal
    parentOrdinal := st.parentOrdinal + 1 }

def chunkBlocksInner (src : Str) (blocks : List Block) (tok : Tokenizer)
    (strategy : IdStrategy) : Except Fault (List Chunk) := do
  let blocks := nonBlankBlocks blocks
  if blocks.isEmpty then return []
  let windows ← buildParentWindows src blocks tok
  let run ← windows.foldlM (emitParent src tok strategy) ⟨[], 0, 0, 0⟩
  return run.result

def chunkBlocks (src : Str) (blocks : List Block) (tok : Tokenizer)
    (nowV7 : Nat → Nat → String) : Except Fault (List Chunk) :=
  chunkBlocksInner src blocks tok (.v7 nowV7)

def chunkBlocksDeterministic (src : Str) (blocks : List Block) (tok : Tokenizer)
    (sha256Hex : List UInt8 → String) : Except Fault (List Chunk) :=
  chunkBlocksInner src blocks tok (.contentDerived sha256Hex)

end Chunking

end LensLM
