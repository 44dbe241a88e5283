import LensLM.DenseSearch
import LensLM.Engine
import LensLM.RankFusion
import LensLM.RouterOrder
import LensLM.StructuralQuery
import Mathlib.Data.String.Basic
import Mathlib.Order.WithBot

/-!
# The tiered search

A search reads the database many times, and between two reads sources are trashed, deselected,
purged or indexed anew. Every row is therefore read together with the flags of its source, and a
unit of context comes from such a row alone.
-/

namespace LensLM

open ByteText Grouping Ranking

set_option autoImplicit false

/-! ## The reads -/

structure ChunkPlace where
  kind : StoredKind
  charStart : Int
  charEnd : Int
deriving DecidableEq, Repr

structure SourceCard where
  notebookId : Str
  createdAt : String
  tokenCount : Option Int
deriving DecidableEq, Repr

structure SectionSpan where
  sourceId : String
  title : Str
  charStart : Int
  charEnd : Int
  level : Int
deriving DecidableEq, Repr

/-- The database at one time; the rows of all notebooks are in it. -/
structure Corpus extends Notebook where
  place : String → ChunkPlace
  card : String → SourceCard
  sections : List SectionSpan

/-- The queries of a search; a batched one is sent once for each batch of its ids. -/
inductive SearchRead where
  | selectedSources
  | sections (sourceId : String)
  | sectionParents (sourceId : String)
  | storedText (sourceId : String)
  | exactText (sourceId : String)
  | parentRows (sourceId : String)
  | denseLive
  | graphLive
  | rerankTexts (batch : Nat)
  | chunkMeta (batch : Nat)
  | texts (batch : Nat)
  | childCounts (batch : Nat)
  | parents (batch : Nat)
deriving DecidableEq, Repr

/-- What the database holds at each read. -/
abbrev Readings := SearchRead → Corpus

def BIND_BATCH : Nat := 500

def fetchBatched {α : Type} (db : Readings) (read : Nat → SearchRead)
    (rowsFor : Corpus → List String → List α) (ids : List String) : List α :=
  (batches (BIND_BATCH - 1) ids).zipIdx.flatMap fun b => rowsFor (db (read b.2)) b.1

/-- The live and selected sources of a notebook with their token counts, the oldest first. -/
def resolveSelectedSources (c : Corpus) (notebookId : Str) : List (String × Option Int) :=
  (sortByKey (fun s : SourceFlags => toLex ((c.card s.id).createdAt, s.id))
    (c.sources.filter fun s =>
      (c.card s.id).notebookId = notebookId && s.selected && s.trashedAt.isNone)).map
    fun s => (s.id, (c.card s.id).tokenCount)

/-- Filters ids to those of live chunks, in their order. -/
def liveChunkIds (c : Corpus) (chunkIds : List String) : List String :=
  chunkIds.filter fun id => c.chunks.any fun r => r.id = id && c.live r.sourceId

def Corpus.parentsOf (c : Corpus) (sourceId : String) : List ChunkRow :=
  c.chunks.filter fun r => r.sourceId = sourceId && (c.place r.id).kind = .hierarchy .parent

def Corpus.parentText (c : Corpus) (sourceId : String) : Str :=
  (c.parentsOf sourceId).flatMap ChunkRow.text

def Corpus.textRows (c : Corpus) (ids : List String) : List (String × Str) :=
  (c.chunks.filter fun r => ids.contains r.id).map fun r => (r.id, r.text)

/-- The texts of a list of ids, by id. -/
def fetchTexts (db : Readings) (read : Nat → SearchRead) (ids : List String) (id : String) :
    Option Str :=
  ((fetchBatched db read Corpus.textRows ids).find? fun p => p.1 = id).map Prod.snd

/-! ## Budgets -/

def RESERVED_OUTPUT : Nat := 2048

def SYSTEM_OVERHEAD : Nat := 512

def MARGIN : Nat := 256

def ABS_CAP_SMALL : Nat := 4000

def ABS_CAP_MEDIUM : Nat := 20000

def ABS_CAP_LARGE : Nat := 48000

structure TierCap where
  tier1Cap : Nat
  tier2Cap : Nat
deriving DecidableEq, Repr

structure TierThresholds where
  tier1TokenCap : Nat
  tier2TokenCap : Nat
deriving DecidableEq, Repr

def usableInput (ctx : Nat) : Nat := ctx - RESERVED_OUTPUT - SYSTEM_OVERHEAD

def absCap (ctx : Nat) : Nat :=
  if ctx ≤ 8192 then ABS_CAP_SMALL else if ctx ≤ 32768 then ABS_CAP_MEDIUM else ABS_CAP_LARGE

/-- `half` and `share` are the float products with 0.5 and 0.65, cut to integers. -/
def deriveTierCaps (half share : Nat → Nat) (ctx reservedHistory : Nat)
    (fallback : TierThresholds) : TierCap :=
  if ctx = 0 then ⟨fallback.tier1TokenCap, fallback.tier2TokenCap⟩
  else
    let reserved := min reservedHistory (half (usableInput ctx))
    let usable := usableInput ctx - reserved
    ⟨min (share usable) (absCap ctx), usable⟩

@[irreducible] def estimateWithinMargin (estimate cap : Nat) : Bool :=
  cap - MARGIN ≤ estimate && estimate ≤ cap + MARGIN

/-- The first entries while the budget lasts; the first is always taken. -/
def takeWithin {α : Type} (cost : α → Nat) (cap : Nat) : List α → Nat → List α → List α
  | [], _, chosen => chosen
  | x :: rest, running, chosen =>
    if cap < running + cost x ∧ chosen ≠ [] then chosen
    else takeWithin cost cap rest (running + cost x) (chosen ++ [x])

/-- A unit that is injected as it stands. -/
def injectedUnit {κ : Type} (r : ChunkRow) (orderIndex : Nat) : ContextUnit κ where
  text := r.text
  sourceId := r.sourceId
  chunkId := r.id
  parentId := none
  locator := some (r.sourceAnchor.getD r.sectionPath)
  orderIndex := orderIndex
  provenance := { source := .dense, graphConfidence := none }

def injectWithin {κ : Type} (cost : Str → Nat) (cap : Nat) (rows : List ChunkRow) :
    List (ContextUnit κ) :=
  (takeWithin (fun r => cost r.text) cap rows 0 []).zipIdx.map fun x => injectedUnit x.1 x.2

/-! ## The raw corpus -/

section Tier1

variable (db : Readings)

def tier1Sum (sources : List (String × Option Int)) : Nat :=
  (sources.map fun s =>
    let estimate := estimateTokens ((db (.storedText s.1)).parentText s.1)
    match s.2 with
    | some n => if 0 ≤ n then n.toNat else estimate
    | none => estimate).sum

def exactTier1Sum (tokenizer : Str → Except LensError Nat) (sourceIds : List String) :
    Except LensError Nat :=
  sourceIds.foldlM (fun sum sourceId => do
    let n ← tokenizer ((db (.exactText sourceId)).parentText sourceId)
    pure (sum + n)) 0

/-- The live parents of each source in document order. -/
def loadParentRows (sourceIds : List String) : List ChunkRow :=
  sourceIds.flatMap fun sourceId =>
    let c := db (.parentRows sourceId)
    sortByKey (fun r => toLex (r.level, r.tokenStart))
      ((c.parentsOf sourceId).filter fun r => c.live r.sourceId)

/-- The exact count of a text if there is a tokenizer that takes it, else the estimate. -/
def textCost (tokenizer : Option (Str → Except LensError Nat)) (text : Str) : Nat :=
  match tokenizer with
  | some tk => (tk text).toOption.getD (estimateTokens text)
  | none => estimateTokens text

def assembleTier1 {κ : Type} (sourceIds : List String) (tier1Cap : Nat)
    (tokenizer : Option (Str → Except LensError Nat)) : List (ContextUnit κ) :=
  injectWithin (textCost tokenizer) tier1Cap (loadParentRows db sourceIds)

end Tier1

/-! ## Sections -/

section Tier0

def StructuralKind.titleKeyword : StructuralKind → Str
  | .chapter => "chapter".toList
  | .sectionUnit => "section".toList
  | .part => "part".toList

def NamedSection.titleKeywords : NamedSection → List Str
  | .introduction => ["introduction".toList, "intro".toList]
  | .conclusion => ["conclusion".toList, "concluding".toList]

/-- A word of the title, whatever its case. -/
def titleHasWord (isAlphanumeric : Char → Bool) (title word : Str) : Bool :=
  (title.splitOnP fun c => !isAlphanumeric c).any fun tok =>
    tok.map Char.toLower = word.map Char.toLower

/-- The section of one source that the target names. -/
def pickSection (isAlphanumeric : Char → Bool) (target : StructuralTarget)
    (sections : List SectionSpan) : Option SectionSpan :=
  match target with
  | .ordinal kind ordinal =>
    let n := ordinal - 1
    let byTitle := sections.filter fun s => titleHasWord isAlphanumeric s.title kind.titleKeyword
    if byTitle ≠ [] then byTitle[n]?
    else match (sections.map SectionSpan.level).min? with
      | some minLevel => (sections.filter fun s => s.level = minLevel)[n]?
      | none => none
  | .named name =>
    sections.find? fun s => name.titleKeywords.any fun kw => titleHasWord isAlphanumeric s.title kw

def sectionsOf (c : Corpus) (sourceId : String) : List SectionSpan :=
  sortByKey SectionSpan.charStart (c.sections.filter fun s => s.sourceId = sourceId)

/-- The live parents whose middle lies in the section. -/
def sectionParents (c : Corpus) (sourceId : String) (span : SectionSpan) : List ChunkRow :=
  sortByKey (fun r => (c.place r.id).charStart)
    ((c.parentsOf sourceId).filter fun r =>
      let middle := ((c.place r.id).charStart + (c.place r.id).charEnd).tdiv 2
      span.charStart ≤ middle && middle < span.charEnd && c.live r.sourceId)

def resolveStructural {κ : Type} (db : Readings) (isAlphanumeric : Char → Bool)
    (sourceIds : List String) (sourceRank : String → Option Nat) (target : StructuralTarget)
    (cap : Nat) : Option (List (ContextUnit κ)) :=
  let spans := sourceIds.filterMap fun sourceId =>
    (pickSection isAlphanumeric target (sectionsOf (db (.sections sourceId)) sourceId)).map
      fun span => (sourceId, span)
  if spans = [] then none
  else
    let rows := spans.flatMap fun s =>
      let c := db (.sectionParents s.1)
      let rank := (sourceRank s.1).getD (2 ^ 64 - 1)
      (sectionParents c s.1 s.2).map fun r => (toLex (rank, (c.place r.id).charStart), r)
    if rows = [] then none
    else some (injectWithin estimateTokens cap ((sortByKey Prod.fst rows).map Prod.snd))

end Tier0

/-! ## Fused retrieval -/

section Tier2

def OVERFETCH : Nat := 50

def MAX_OVERFETCH : Nat := 500

def RRF_K : Nat := 60

/-- The order and the scores of the model, by index; any failure leaves the order as it is. -/
def rerankWithFallback (enabled : Bool) (answer : List Str → Option (List (Nat × ℚ)))
    (candidates : List (RetrievalHit ℚ)) (texts : List Str) (limit : Nat) :
    List (RetrievalHit ℚ) :=
  if !enabled then candidates.take limit
  else if candidates = [] then candidates
  else if candidates.length ≠ texts.length then candidates.take limit
  else match answer texts with
    | none => candidates.take limit
    | some results =>
      let reordered := results.filterMap fun r =>
        candidates[r.1]?.map fun c => { c with score := r.2 }
      if reordered = [] then candidates.take limit else reordered.take limit

/-- The hits and the texts that were read for the reranker. -/
def fuseAndRerank (db : Readings) (order : IterationOrder) (enabled : Bool)
    (answer : List Str → Option (List (Nat × ℚ))) (denseIds bm25Ids graphIds : List String)
    (pool : Nat) : List (RetrievalHit ℚ) × (String → Option Str) :=
  let overfetch := max OVERFETCH (min pool MAX_OVERFETCH)
  let fused := rrfMerge3 order denseIds bm25Ids graphIds RRF_K overfetch
  if !enabled || fused.isEmpty then (fused.take pool, fun _ => none)
  else
    let ids := fused.map RetrievalHit.chunkId
    let textsById := fetchTexts db .rerankTexts ids
    let texts := ids.map fun id => (textsById id).getD []
    (rerankWithFallback enabled answer fused texts pool, textsById)

section Assembly

variable {κ : Type} (db : Readings)

def hydrateReads (hits : List (RetrievalHit κ)) (graphConf : String → Option κ)
    (prehydrated : String → Option Str) : List (RetrievedChunk κ) :=
  let ids := hits.map RetrievalHit.chunkId
  let rows := fetchBatched db .chunkMeta (fun c => c.liveRows) ids
  let missing := ids.filter fun id =>
    (rows.any fun m => m.id = id) && (prehydrated id).isNone
  let fetched := fetchTexts db .texts missing
  hydrateLoop graphConf (fun id => (prehydrated id).or (fetched id)) hits rows

/-- The child counts of a list of parents, by id. -/
def parentChildCounts (parentIds : List String) (pid : String) : Nat :=
  (((fetchBatched db .childCounts
    (fun c ids => ids.map fun pid => (pid, parentChildCount c.toNotebook pid)) parentIds).find?
      fun p => p.1 = pid).map Prod.snd).getD 0

def loadParents (parentIds : List String) : List ChunkRow :=
  fetchBatched db .parents (fun c => c.liveRows) parentIds

variable [LinearOrder κ] [OrderBot κ]

/-- A group as `groupCandidates` has it, from the counts and the parents that were read. -/
def groupOf (counts : String → Nat) (parents : List ChunkRow)
    (g : String × List (RetrievedChunk κ)) : List (Candidate κ) :=
  if shouldMerge g.2.length (counts g.1) then
    match parents.find? fun r => r.id = g.1 with
    | some parent => [mergedCandidate g.1 parent g.2]
    | none => []
  else g.2.map Candidate.ofRetrieved

def candidateReads (order : IterationOrder) (retrieved : List (RetrievedChunk κ)) :
    List (Candidate κ) :=
  let groups := order.arrange (byParent retrieved)
  let counts := parentChildCounts db (groups.map Prod.fst)
  let mergeIds := (groups.filter fun g => shouldMerge g.2.length (counts g.1)).map Prod.fst
  let parents := loadParents db mergeIds
  groups.flatMap (groupOf counts parents) ++
    (retrieved.filter fun rc => rc.parentId.isNone).map Candidate.ofRetrieved

def assembleReads (order : IterationOrder) (hits : List (RetrievalHit κ))
    (graphConf : String → Option κ) (sourceRank : String → Option Nat) (tier2Cap : Nat)
    (prehydrated : String → Option Str) : List (ContextUnit κ) :=
  trimAndOrder (candidateReads db order (hydrateReads db hits graphConf prehydrated)) sourceRank
    tier2Cap

end Assembly

end Tier2

/-! ## The search -/

inductive Tier where
  | tier0
  | tier1
  | tier2
deriving DecidableEq, Repr

structure RouterOutput (κ : Type) where
  tier : Tier
  units : List (ContextUnit κ)
  totalTokens : Nat
deriving DecidableEq, Repr

structure SeedResolution where
  seeds : List (Str × EntityKind)
  signal : Bool
deriving DecidableEq, Repr

/-- The entity graph: what the query resolves to, and the chunks that the seeds lead to. -/
structure GraphArm where
  resolution : Except LensError SeedResolution
  compose : List (Str × EntityKind) → Nat → Except LensError (List String × List (String × ℚ))

/-- What is around a search: the index as its query finds it, the lexical answer, the graph, the
models, and the arithmetic of floats. -/
structure SearchSurroundings (δ : Type) [LinearOrder δ] where
  table : Option (VectorQuery δ)
  bm25Search : Nat → Except LensError (List String)
  graph : Option GraphArm
  rerank : List Str → Option (List (Nat × ℚ))
  tokenizer : Option (Str → Except LensError Nat)
  order : IterationOrder
  half : Nat → Nat
  share : Nat → Nat
  toLowercase : Str → Str
  isAlphanumeric : Char → Bool

structure SearchArgs where
  coord : Coordinate
  queryText : Str
  queryLen : Nat
  context : Nat
  pool : Nat
  hybridEnabled : Bool
  rerankerEnabled : Bool
  graphRetrievalEnabled : Bool
  notebookGraphFlag : Option Bool
  thresholds : TierThresholds
  reservedHistoryTokens : Nat

def effectiveGraphFlag (notebookFlag : Option Bool) (appWide : Bool) : Bool :=
  notebookFlag.getD appWide

def shouldRunGraph (resolution : SeedResolution) (effectiveFlag : Bool) : Bool :=
  !resolution.seeds.isEmpty && effectiveFlag && resolution.signal

/-- The float nearest to 0.1. -/
def GRAPH_MIN_CONFIDENCE : ℚ := 13421773 / 134217728

section Search

variable {δ : Type} [LinearOrder δ] (e : SearchSurroundings δ) (args : SearchArgs) (db : Readings)

/-- The pairs of the graph above the floor; none where the graph stays off. -/
def graphPairs (overfetch : Nat) : Except LensError (List (String × ℚ)) :=
  match e.graph with
  | none => .ok []
  | some g => do
    let resolution ← g.resolution
    let flag := effectiveGraphFlag args.notebookGraphFlag args.graphRetrievalEnabled
    if shouldRunGraph resolution flag then
      let found ← g.compose resolution.seeds overfetch
      let pairs := mergeRankedPairs e.order 1 found.1 found.2 overfetch
      pure (pairs.filter fun p => GRAPH_MIN_CONFIDENCE ≤ p.2)
    else pure []

def lexicalIds (overfetch : Nat) : Except LensError (List String) :=
  if args.hybridEnabled then e.bm25Search overfetch else .ok []

/-- The first of the confidences of an id. -/
def confidenceOf (pairs : List (String × ℚ)) (id : String) : Option (WithBot ℚ) :=
  (pairs.lookup id).map WithBot.some

def RetrievalHit.toWithBot (h : RetrievalHit ℚ) : RetrievalHit (WithBot ℚ) :=
  ⟨h.chunkId, h.score, h.source⟩

def outputOf {κ : Type} (tier : Tier) (units : List (ContextUnit κ)) : RouterOutput κ :=
  ⟨tier, units, (units.map fun u => estimateTokens u.text).sum⟩

def searchTier2 (sourceIds : List String) (sourceRank : String → Option Nat) (tier2Cap : Nat) :
    Except LensError (RouterOutput (WithBot ℚ)) := do
  let overfetch := max OVERFETCH (min args.pool MAX_OVERFETCH)
  let denseIds ← denseSearchPrefiltered e.table args.coord args.queryLen overfetch sourceIds
  let denseIds := liveChunkIds (db .denseLive) denseIds
  let bm25Ids ← lexicalIds e args overfetch
  let pairs ← graphPairs e args overfetch
  let graphIds := liveChunkIds (db .graphLive) (pairs.map Prod.fst)
  let fused := fuseAndRerank db e.order args.rerankerEnabled e.rerank denseIds bm25Ids graphIds
    args.pool
  pure (outputOf .tier2 (assembleReads db e.order (fused.1.map RetrievalHit.toWithBot)
    (confidenceOf pairs) sourceRank tier2Cap fused.2))

/-- A near sum is counted anew if there is a tokenizer. -/
def tier1Confirmed (sourceIds : List String) (totalSum tier1Cap : Nat) : Except LensError Bool :=
  if estimateWithinMargin totalSum tier1Cap then
    match e.tokenizer with
    | some tk => do
      let exact ← exactTier1Sum db tk sourceIds
      pure (exact ≤ tier1Cap)
    | none => pure true
  else pure true

/-- A source over the cap by itself; a negative count is a large one in the cast to `usize`. -/
def anyOversized (tier1Cap : Nat) (sources : List (String × Option Int)) : Bool :=
  sources.any fun s => (s.2.map fun n => decide (tier1Cap < (n % 2 ^ 64).toNat)).getD false

/-- Whether the raw corpus is injected. -/
def corpusFits (caps : TierCap) (sources : List (String × Option Int)) : Except LensError Bool :=
  let totalSum := tier1Sum db sources
  if totalSum ≤ caps.tier1Cap && !anyOversized caps.tier1Cap sources then
    tier1Confirmed e db (sources.map Prod.fst) totalSum caps.tier1Cap
  else .ok false

def tierCaps : TierCap :=
  deriveTierCaps e.half e.share args.context args.reservedHistoryTokens args.thresholds

def tieredSearch : Except LensError (RouterOutput (WithBot ℚ)) :=
  let caps := tierCaps e args
  let sources := resolveSelectedSources (db .selectedSources) args.coord.notebook
  if sources.isEmpty then .ok ⟨.tier2, [], 0⟩
  else
    let sourceIds := sources.map Prod.fst
    let sourceRank := fun id => sourceIds.idxOf? id
    let structural := (detectStructuralTarget e.toLowercase e.isAlphanumeric args.queryText).bind
      fun target =>
        resolveStructural db e.isAlphanumeric sourceIds sourceRank target caps.tier2Cap
    match structural with
    | some units => .ok (outputOf .tier0 units)
    | none => do
      let fits ← corpusFits e db caps sources
      if fits then pure (outputOf .tier1 (assembleTier1 db sourceIds caps.tier1Cap e.tokenizer))
      else searchTier2 e args db sourceIds sourceRank caps.tier2Cap

end Search

end LensLM
