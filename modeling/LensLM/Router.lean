import LensLM.Retrieval
import LensLM.Lib.Grouping
import LensLM.Lib.Ranking
import Mathlib.Data.Prod.Lex
import Mathlib.Order.BoundedOrder.Basic
import Mathlib.Order.OrderDual

/-!
# Assembly of the second retrieval tier

The fused hits are hydrated from the chunk rows, grouped by parent, merged into their parents
where at least half the children were retrieved, trimmed to a token budget by score and put in
document order.
-/

namespace LensLM

open ByteText Grouping Ranking

set_option autoImplicit false

structure ChunkRow where
  id : String
  sourceId : String
  parentId : Option String
  text : Str
  sourceAnchor : Option Str
  sectionPath : Str
  level : Int
  tokenStart : Int
deriving DecidableEq, Repr

structure SourceFlags where
  id : String
  trashedAt : Option Str
  selected : Bool
deriving DecidableEq, Repr

/-- The rows of an ingested notebook: a child names a parent row of its own source, and a
parent has no parent. -/
structure Notebook where
  chunks : List ChunkRow
  sources : List SourceFlags
  ids_nodup : (chunks.map ChunkRow.id).Nodup
  parent_row : ∀ c ∈ chunks, ∀ pid, c.parentId = some pid →
    ∃ r ∈ chunks, r.id = pid ∧ r.sourceId = c.sourceId ∧ r.parentId = none

/-- `RETRIEVAL_LIVE_WHERE` of the joined source. -/
def Notebook.live (nb : Notebook) (sourceId : String) : Bool :=
  nb.sources.any fun s => s.id = sourceId && s.trashedAt.isNone && s.selected

/-- The live rows of a list of ids. -/
def Notebook.liveRows (nb : Notebook) (ids : List String) : List ChunkRow :=
  nb.chunks.filter fun c => ids.contains c.id && nb.live c.sourceId

/-- The texts of a list of ids. -/
def hydrateTextsMap (nb : Notebook) (ids : List String) (id : String) : Option Str :=
  (nb.chunks.find? fun c => c.id = id && ids.contains c.id).map ChunkRow.text

section Hydrate

variable {κ : Type}

structure RetrievalHit (κ : Type) where
  chunkId : String
  score : κ
  source : HitSource
deriving DecidableEq, Repr

structure RetrievedChunk (κ : Type) where
  chunkId : String
  sourceId : String
  parentId : Option String
  text : Str
  locator : Option Str
  source : HitSource
  graphConfidence : Option κ
  score : κ
  level : Int
  tokenStart : Int
deriving DecidableEq, Repr

def retrievedChunk (graphConf : String → Option κ) (text : String → Option Str)
    (h : RetrievalHit κ) (m : ChunkRow) : RetrievedChunk κ where
  chunkId := h.chunkId
  sourceId := m.sourceId
  parentId := m.parentId
  text := (text h.chunkId).getD []
  locator := some (m.sourceAnchor.getD m.sectionPath)
  source := h.source
  graphConfidence := if h.source = .graph then graphConf h.chunkId else none
  score := h.score
  level := m.level
  tokenStart := m.tokenStart

/-- The loop over the hits; a row once used is removed from the map. -/
def hydrateLoop (graphConf : String → Option κ) (text : String → Option Str) :
    List (RetrievalHit κ) → List ChunkRow → List (RetrievedChunk κ)
  | [], _ => []
  | h :: hits, rows =>
    match rows.find? fun m => m.id = h.chunkId with
    | some m => retrievedChunk graphConf text h m ::
        hydrateLoop graphConf text hits (rows.filter fun m => m.id ≠ h.chunkId)
    | none => hydrateLoop graphConf text hits rows

def hydrateRetrieved (nb : Notebook) (hits : List (RetrievalHit κ))
    (graphConf : String → Option κ) (prehydrated : String → Option Str) :
    List (RetrievedChunk κ) :=
  let ids := hits.map RetrievalHit.chunkId
  let rows := nb.liveRows ids
  let missing := ids.filter fun id =>
    (rows.any fun m => m.id = id) && (prehydrated id).isNone
  let text := fun id => (prehydrated id).or (hydrateTextsMap nb missing id)
  hydrateLoop graphConf text hits rows

end Hydrate

def parentChildCount (nb : Notebook) (parentId : String) : Nat :=
  (nb.chunks.filter fun c => c.parentId = some parentId).length

/-- Half the children at least. -/
def shouldMerge (retrievedChildren totalChildren : Nat) : Bool :=
  0 < totalChildren && totalChildren ≤ retrievedChildren * 2

def isCjk (c : Char) : Bool :=
  let n := c.toNat
  (0x3040 ≤ n && n ≤ 0x30FF) || (0x3400 ≤ n && n ≤ 0x4DBF) || (0x4E00 ≤ n && n ≤ 0x9FFF) ||
    (0xF900 ≤ n && n ≤ 0xFAFF) || (0xAC00 ≤ n && n ≤ 0xD7AF)

def estimateTokens (text : Str) : Nat :=
  let cjk := text.countP isCjk
  let other := text.countP fun c => !isCjk c
  cjk + other / 4

section Assembly

variable {κ : Type}

structure Candidate (κ : Type) where
  chunkId : String
  sourceId : String
  parentId : Option String
  text : Str
  locator : Option Str
  provenance : Provenance κ
  score : κ
  level : Int
  tokenStart : Int
deriving DecidableEq, Repr

def Candidate.ofRetrieved (rc : RetrievedChunk κ) : Candidate κ where
  chunkId := rc.chunkId
  sourceId := rc.sourceId
  parentId := rc.parentId
  text := rc.text
  locator := rc.locator
  provenance := { source := rc.source, graphConfidence := rc.graphConfidence }
  score := rc.score
  level := rc.level
  tokenStart := rc.tokenStart

/-- The retrieved children of every parent. -/
def byParent (retrieved : List (RetrievedChunk κ)) : List (String × List (RetrievedChunk κ)) :=
  group Prod.fst [] (fun children x => children ++ [x.2])
    (retrieved.filterMap fun rc => rc.parentId.map fun pid => (pid, rc))

abbrev DocOrderKey := Nat ×ₗ Int ×ₗ Int

def docOrderKey (sourceRank : String → Option Nat) (c : Candidate κ) : DocOrderKey :=
  toLex ((sourceRank c.sourceId).getD (2 ^ 64 - 1), toLex (c.level, c.tokenStart))

/-- The best candidates while the budget lasts; the first is always taken. -/
def takeBudget (cap : Nat) : List (Candidate κ) → Nat → List (Candidate κ) → List (Candidate κ)
  | [], _, chosen => chosen
  | c :: rest, running, chosen =>
    let est := estimateTokens c.text
    if cap < running + est ∧ chosen ≠ [] then chosen
    else takeBudget cap rest (running + est) (chosen ++ [c])

def toUnit (c : Candidate κ) (orderIndex : Nat) : ContextUnit κ where
  text := c.text
  sourceId := c.sourceId
  chunkId := c.chunkId
  parentId := c.parentId
  locator := c.locator
  orderIndex := orderIndex
  provenance := c.provenance

def totalTokens (candidates : List (Candidate κ)) : Nat :=
  (candidates.map fun c => estimateTokens c.text).sum

variable [LinearOrder κ]

def mergedProvenance (children : List (RetrievedChunk κ)) : Provenance κ :=
  let graphConf := ((children.filter fun c => c.source = .graph).filterMap
    RetrievedChunk.graphConfidence).foldl (fun acc x => some (acc.elim x fun a => max a x)) none
  match graphConf with
  | some conf => { source := .graph, graphConfidence := some conf }
  | none =>
    let hasDense := children.any fun c => c.source = .dense || c.source = .both
    let hasBm25 := children.any fun c => c.source = .bm25 || c.source = .both
    let source := match hasDense, hasBm25 with
      | true, true => HitSource.both
      | false, true => .bm25
      | _, _ => .dense
    { source := source, graphConfidence := none }

def trimAndOrder (candidates : List (Candidate κ)) (sourceRank : String → Option Nat)
    (tier2Cap : Nat) : List (ContextUnit κ) :=
  let key := docOrderKey sourceRank
  let survivors := if totalTokens candidates ≤ tier2Cap then candidates
    else takeBudget tier2Cap
      (sortByKey (fun c => toLex (OrderDual.toDual c.score, key c)) candidates) 0 []
  (sortByKey key survivors).zipIdx.map fun x => toUnit x.1 x.2

variable [OrderBot κ]

/-- The parent in place of its children, with the best of their scores. -/
def mergedCandidate (parentId : String) (parent : ChunkRow) (children : List (RetrievedChunk κ)) :
    Candidate κ where
  chunkId := parent.id
  sourceId := parent.sourceId
  parentId := some parentId
  text := parent.text
  locator := some (parent.sourceAnchor.getD parent.sectionPath)
  provenance := mergedProvenance children
  score := (children.map RetrievedChunk.score).foldl max ⊥
  level := parent.level
  tokenStart := parent.tokenStart

def groupCandidates (nb : Notebook) (mergeIds : List String)
    (g : String × List (RetrievedChunk κ)) : List (Candidate κ) :=
  if shouldMerge g.2.length (parentChildCount nb g.1) then
    match (nb.liveRows mergeIds).find? fun r => r.id = g.1 with
    | some parent => [mergedCandidate g.1 parent g.2]
    | none => []
  else g.2.map Candidate.ofRetrieved

def buildCandidates (order : IterationOrder) (nb : Notebook)
    (groups : List (String × List (RetrievedChunk κ))) (orphans : List (RetrievedChunk κ)) :
    List (Candidate κ) :=
  let mergeIds := (groups.filter fun g =>
    shouldMerge g.2.length (parentChildCount nb g.1)).map Prod.fst
  (order.arrange groups).flatMap (groupCandidates nb mergeIds) ++
    orphans.map Candidate.ofRetrieved

def assembleCandidates (order : IterationOrder) (nb : Notebook) (hits : List (RetrievalHit κ))
    (graphConf : String → Option κ) (prehydrated : String → Option Str) : List (Candidate κ) :=
  let retrieved := hydrateRetrieved nb hits graphConf prehydrated
  buildCandidates order nb (byParent retrieved) (retrieved.filter fun rc => rc.parentId.isNone)

def assembleTier2 (order : IterationOrder) (nb : Notebook) (hits : List (RetrievalHit κ))
    (graphConf : String → Option κ) (sourceRank : String → Option Nat) (tier2Cap : Nat)
    (prehydrated : String → Option Str) : List (ContextUnit κ) :=
  trimAndOrder (assembleCandidates order nb hits graphConf prehydrated) sourceRank tier2Cap

end Assembly

end LensLM
