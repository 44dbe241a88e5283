import LensLM.LlmBudget
import LensLM.Reembed
import LensLM.Relations

/-!
# The enrichment worker

A job marks its source as enriching, asks the model, writes what it found, re-embeds the source
and marks it as enriched. The repository calls that the job makes itself are told apart from
those of the re-embedding, whose failures it handles.
-/

namespace LensLM

open ByteText Programs Program

set_option autoImplicit false

def ENRICHMENT_SIZE_GATE_TOKENS : Nat := 2000
def ENRICHMENT_MAX_TOKENS_PER_JOB : Nat := 50000
def RELATIONS_ENTITY_DENSITY_FLOOR : Nat := 8
def CO_OCCURRENCE_MAX_ENTITIES : Nat := 30
def MAP_QUALITY_OK : String := "ok"
def MAP_QUALITY_FALLBACK : String := "fallback"
def MAP_QUALITY_SKIPPED : String := "skipped"

structure EnrichmentMeta where
  cacheKey : String
  mapQuality : String
  budgetExceeded : Bool
  tokensSpent : Nat
  callsMade : Nat
  failureReason : Option String
deriving DecidableEq

structure ChunkEnrichmentUpdate where
  chunkId : String
  embeddingText : Str
  enrichmentJson : Option Str
deriving DecidableEq

/-- Columns of a chunk that only the enrichment reads. -/
structure ChunkColumns where
  parentId : Option String
  sectionPath : Str
  blockType : Option String
deriving DecidableEq

/-- The engine's stores with the tables and columns of the enrichment. -/
structure EnrichmentState where
  engine : EngineState
  enrichmentMeta : AList fun _ : String => Str
  chunkColumns : AList fun _ : String => ChunkColumns
  chunkEnrichment : AList fun _ : String => Str
  graph : AList fun _ : String => EntityGraphRows
  relationTypes : List Str
  relationTypeAliases : List (Str × Str)

namespace EnrichmentState

def source? (s : EnrichmentState) (id : String) : Option Source := s.engine.source? id

def enrichmentChunk (s : EnrichmentState) (c : StoredChunk) : EnrichmentChunk :=
  let columns := (s.chunkColumns.lookup c.id).getD ⟨none, [], none⟩
  { id := c.id
    parentId := columns.parentId
    level := c.level
    sectionPath := columns.sectionPath
    text := c.text
    blockType := columns.blockType }

/-- `ORDER BY level ASC, token_start ASC`. -/
def chunksForEnrichment (s : EnrichmentState) (id : String) : List EnrichmentChunk :=
  ((s.engine.chunksOf id).insertionSort EngineState.ReembedBefore).map s.enrichmentChunk

def setStatus (s : EnrichmentState) (id : String) (status : EnrichmentStatus) : EnrichmentState :=
  { s with engine := s.engine.updateSource id fun x => { x with enrichmentStatus := status } }

def writeUpdate (s : EnrichmentState) (u : ChunkEnrichmentUpdate) : EnrichmentState :=
  { s with
    engine := { s.engine with chunks := s.engine.chunks.map fun c =>
      if c.id = u.chunkId then { c with embeddingText := some u.embeddingText } else c }
    chunkEnrichment := match u.enrichmentJson with
      | some json => s.chunkEnrichment.insert u.chunkId json
      | none => s.chunkEnrichment }

/-- The foreign keys of the rows: the source, and the chunks of the edges and mentions. -/
def GraphRefs (s : EnrichmentState) (graph : EntityGraphRows) : Prop :=
  (graph.nodes = [] ∨ (s.source? graph.sourceId).isSome) ∧
    (∀ e ∈ graph.edges, ∃ c ∈ s.engine.chunks, c.id = e.chunkId) ∧
    ∀ m ∈ graph.mentions, ∃ c ∈ s.engine.chunks, c.id = m.chunkId

instance (s : EnrichmentState) (graph : EntityGraphRows) : Decidable (s.GraphRefs graph) :=
  inferInstanceAs (Decidable (_ ∧ _ ∧ _))

end EnrichmentState

inductive EnrichCmd where
  | getSource (id : String)
  | updateEnrichmentStatus (id : String) (status : EnrichmentStatus)
  | updateEnrichmentStatusAndMeta (id : String) (status : EnrichmentStatus) (metaJson : Str)
  | listChunksForEnrichment (id : String)
  | writeChunkEnrichment (updates : List ChunkEnrichmentUpdate)
  | listRelationTypeNames
  | listRelationTypeAliases
  | writeEnrichmentAndGraph (updates : List ChunkEnrichmentUpdate) (graph : EntityGraphRows)
  /-- A command of the re-embedding. -/
  | within (c : Cmd)

namespace EnrichCmd

abbrev Reply : EnrichCmd → Type
  | .getSource _ => Option (Source × Option Str)
  | .listChunksForEnrichment _ => List EnrichmentChunk
  | .listRelationTypeNames => List Str
  | .listRelationTypeAliases => List (Str × Str)
  | .within c => c.Reply
  | _ => Unit

/-- The effect of a repository call that is carried out. -/
def run : (c : EnrichCmd) → EnrichmentState → Except LensError (c.Reply × EnrichmentState)
  | .getSource id, s =>
    .ok ((s.source? id).map fun x => (x, s.enrichmentMeta.lookup id), s)
  | .updateEnrichmentStatus id status, s => .ok ((), s.setStatus id status)
  | .updateEnrichmentStatusAndMeta id status json, s =>
    .ok ((), { s.setStatus id status with
      enrichmentMeta := if (s.source? id).isSome then s.enrichmentMeta.insert id json
        else s.enrichmentMeta })
  | .listChunksForEnrichment id, s => .ok (s.chunksForEnrichment id, s)
  | .writeChunkEnrichment updates, s =>
    .ok ((), updates.foldl EnrichmentState.writeUpdate s)
  | .listRelationTypeNames, s => .ok (s.relationTypes, s)
  | .listRelationTypeAliases, s => .ok (s.relationTypeAliases, s)
  | .writeEnrichmentAndGraph updates graph, s =>
    if s.GraphRefs graph then
      .ok ((), { updates.foldl EnrichmentState.writeUpdate s with
        graph := s.graph.insert graph.sourceId graph })
    else .error (.validation "referenced record does not exist")
  | .within c, s => (c.run s.engine).map fun r => (r.1, { s with engine := r.2 })

/-- The permit of the re-embedding is given back without fail. -/
def canFail : EnrichCmd → Bool
  | .within c => c.canFail
  | _ => true

def blocked (s : EnrichmentState) : EnrichCmd → Bool
  | .within c => c.blocked s.engine
  | _ => false

def react (c : EnrichCmd) (fault : Option LensError) (s : EnrichmentState) :
    Option (Except Stop c.Reply × EnrichmentState) :=
  if blocked s c then none
  else match fault with
    | some e => if c.canFail then some (.error (.failed e), s) else none
    | none => match c.run s with
      | .ok (a, s') => some (.ok a, s')
      | .error e => some (.error (.failed e), s)

end EnrichCmd

abbrev EnrichJob := Program EnrichCmd EnrichCmd.Reply Stop

/-- A job of the engine inside of an enrichment job. -/
def within {α : Type} (p : Job α) : EnrichJob α := p.embed EnrichCmd.within

/-- What a job meets outside of the stores: the configuration, the provider and the passes of the
model, the tokenizer, the serializer and the clock. -/
structure EnrichmentHost where
  enabled : Bool
  corefInline : Bool
  relationsOn : Bool
  /-- The composite key of a content hash, where there is a provider. -/
  cacheKey : Option (String → String)
  preflight : Option String
  reachable : Bool
  maxCallsPerJob : Nat
  countTokens : Str → Nat
  /-- The text to embed, of a summary, a section path and a body. -/
  composeText : Str → Str → Str → Str
  applySubstitutions : Str → List CorefSub → List Str → Str
  buildMap : Budget → List Str → Except MapError MapOutcome × Budget
  corefBatch : Budget → List (Nat × Str) → List Str →
    Except MapError (Nat → Option (List CorefSub)) × Budget
  extractRelations : Budget → List EnrichmentChunk → List Str → NodeIndex → List Str →
    List (Str × Str) → Except MapError (List RelationTriple) × Budget
  mapJson : StructuralMap → Str
  metaJson : EnrichmentMeta → Str
  parseMeta : Str → Option EnrichmentMeta
  text : TextHost
  newId : Nat → String
  newEdgeId : Nat → String
  now : String
  summaryId : String

section Job

variable (host : EnrichmentHost) (sourceId : String)

def metaOf (cacheKey mapQuality : String) (budgetExceeded : Bool) (budget : Budget) :
    EnrichmentMeta where
  cacheKey := cacheKey
  mapQuality := mapQuality
  budgetExceeded := budgetExceeded
  tokensSpent := budget.jobTokens
  callsMade := budget.jobCalls
  failureReason := none

/-- The meta record of plain strings and numbers always serializes. -/
def persistMeta (status : EnrichmentStatus) (info : EnrichmentMeta) : EnrichJob Unit :=
  perform (.updateEnrichmentStatusAndMeta sourceId status (host.metaJson info) : EnrichCmd)

def failBudgetExceeded (cacheKey : String) (budget : Budget) : EnrichJob Unit :=
  persistMeta host sourceId .failed (metaOf cacheKey "" true budget)

def writePrefixOnly (chunks : List EnrichmentChunk) : EnrichJob Unit :=
  perform (.writeChunkEnrichment (chunks.map fun c =>
    { chunkId := c.id
      embeddingText := host.composeText [] c.sectionPath c.text
      enrichmentJson := none }) : EnrichCmd)

def sourceIsProse (chunks : List EnrichmentChunk) : Bool :=
  (chunks.filter fun c => c.level = 0).any fun c => !isNonproseBlock c.blockType

def parentTexts (chunks : List EnrichmentChunk) : List Str :=
  (chunks.filter fun c => c.level = 0).map EnrichmentChunk.text

/-- What the passes of the model leave for the writes. -/
structure MapPass where
  json : Option Str
  map : StructuralMap
  quality : String

def emptyMap : StructuralMap := ⟨[], [], [], []⟩

def MapPass.of (host : EnrichmentHost) : MapOutcome → MapPass
  | .ok map => ⟨some (host.mapJson map), map, MAP_QUALITY_OK⟩
  | .fallback => ⟨none, emptyMap, MAP_QUALITY_FALLBACK⟩

/-- The map is attached to the first chunk without a parent. -/
def enrichmentUpdates (pass : MapPass) (corefSubs : Nat → Option (List CorefSub))
    (chunks : List EnrichmentChunk) : List ChunkEnrichmentUpdate :=
  let first := (chunks.zipIdx.find? fun c => c.1.parentId.isNone).map Prod.snd
  chunks.zipIdx.map fun c =>
    let body := match corefSubs c.2 with
      | some subs => if subs.isEmpty then c.1.text
        else host.applySubstitutions c.1.text subs pass.map.entities
      | none => c.1.text
    { chunkId := c.1.id
      embeddingText := host.composeText pass.map.summary c.1.sectionPath body
      enrichmentJson := if first = some c.2 then pass.json else none }

def semanticEdge (scope : RowScope) (triple : RelationTriple) (k : Nat) : EntityEdge where
  id := host.newEdgeId k
  notebookId := scope.notebookId
  sourceId := scope.sourceId
  chunkId := triple.chunkId
  fromNode := triple.fromNode
  toNode := triple.toNode
  relation := triple.relation
  weight := none
  confidence := triple.confidence
  createdAt := scope.createdAt

def graphWithTriples (notebook : Str) (pass : MapPass) (corefSubs : Nat → Option (List CorefSub))
    (chunks : List EnrichmentChunk) (triples : List RelationTriple) : EntityGraphRows :=
  let scope : RowScope := ⟨String.ofList notebook, sourceId, host.now⟩
  let rows := buildEntityGraphRows host.text scope host.newId chunks pass.map.entities
    pass.map.definitions pass.map.dates corefSubs CO_OCCURRENCE_MAX_ENTITIES
  { rows with edges := rows.edges ++ triples.mapIdx fun k t => semanticEdge host scope t k }

/-- Re-embeds, and marks the source as failed if that fails. -/
def reembedOrFail (cacheKey : String) (pass : MapPass) (budget : Budget) : EnrichJob Unit :=
  (within (reembedAndFlip sourceId pass.map.summary host.summaryId)).handle fun
    | .panicked => .fail .panicked
    | .failed _ => do
      match ← perform (.getSource sourceId : EnrichCmd) with
      | none => return ()
      | some _ => persistMeta host sourceId .failed (metaOf cacheKey pass.quality false budget)

def writeAndReembed (notebook : Str) (cacheKey : String) (chunks : List EnrichmentChunk)
    (pass : MapPass) (corefSubs : Nat → Option (List CorefSub)) (triples : List RelationTriple)
    (budget : Budget) : EnrichJob Unit := do
  perform (.writeEnrichmentAndGraph (enrichmentUpdates host pass corefSubs chunks)
    (graphWithTriples host sourceId notebook pass corefSubs chunks triples) : EnrichCmd)
  match ← perform (.getSource sourceId : EnrichCmd) with
  | none => return ()
  | some _ =>
    persistMeta host sourceId .enriching (metaOf cacheKey pass.quality false budget)
    reembedOrFail host sourceId cacheKey pass budget

/-- The relation pass, on a document with enough entities. -/
def relationPass (notebook : Str) (cacheKey : String) (chunks : List EnrichmentChunk)
    (pass : MapPass) (corefSubs : Nat → Option (List CorefSub)) (budget : Budget) :
    EnrichJob Unit := do
  if host.relationsOn ∧ pass.quality = MAP_QUALITY_OK ∧
      RELATIONS_ENTITY_DENSITY_FLOOR ≤ pass.map.entities.length then
    let predicateVocab ← perform (.listRelationTypeNames : EnrichCmd)
    let aliases ← perform (.listRelationTypeAliases : EnrichCmd)
    let nodeIndex := buildNodeIndex host.text sourceId pass.map.entities pass.map.definitions
      pass.map.dates
    match host.extractRelations budget chunks pass.map.entities nodeIndex predicateVocab aliases with
    | (.ok triples, budget) =>
      writeAndReembed host sourceId notebook cacheKey chunks pass corefSubs triples budget
    | (.error .budgetExceeded, budget) => failBudgetExceeded host sourceId cacheKey budget
    | (.error (.llm _), budget) =>
      writeAndReembed host sourceId notebook cacheKey chunks pass corefSubs [] budget
  else writeAndReembed host sourceId notebook cacheKey chunks pass corefSubs [] budget

/-- The coreference pass, which only a breach of the budget makes fail. -/
def corefPass (notebook : Str) (cacheKey : String) (chunks : List EnrichmentChunk)
    (pass : MapPass) (budget : Budget) : EnrichJob Unit :=
  if host.corefInline ∧ pass.quality = MAP_QUALITY_OK ∧ pass.map.entities ≠ [] then
    let corefChunks := chunks.zipIdx.map fun c => (c.2, c.1.text)
    match host.corefBatch budget corefChunks pass.map.entities with
    | (.ok subs, budget) => relationPass host sourceId notebook cacheKey chunks pass subs budget
    | (.error .budgetExceeded, budget) => failBudgetExceeded host sourceId cacheKey budget
    | (.error (.llm _), budget) =>
      relationPass host sourceId notebook cacheKey chunks pass (fun _ => none) budget
  else relationPass host sourceId notebook cacheKey chunks pass (fun _ => none) budget

/-- The structural map of the document. -/
def mapPass (notebook : Str) (cacheKey : String) (chunks : List EnrichmentChunk) (budget : Budget) :
    EnrichJob Unit :=
  match host.buildMap budget (parentTexts chunks) with
  | (.ok outcome, budget) =>
    corefPass host sourceId notebook cacheKey chunks (MapPass.of host outcome) budget
  | (.error .budgetExceeded, budget) => failBudgetExceeded host sourceId cacheKey budget
  | (.error (.llm _), budget) =>
    persistMeta host sourceId .failed (metaOf cacheKey "" false budget)

/-- The job once its source is marked as enriching. -/
def enrichMarked (notebook : Str) (cacheKey : Option String) : EnrichJob Unit := do
  match ← perform (.getSource sourceId : EnrichCmd) with
  | none => return ()
  | some _ =>
    let chunks ← perform (.listChunksForEnrichment sourceId : EnrichCmd)
    if chunks.isEmpty then
      perform (.updateEnrichmentStatus sourceId .pending : EnrichCmd)
    else if !(host.cacheKey.isSome && host.reachable) then
      perform (.updateEnrichmentStatus sourceId .pending : EnrichCmd)
    else
      let cacheKey := cacheKey.getD ""
      let budget := Budget.withCaps ENRICHMENT_MAX_TOKENS_PER_JOB host.maxCallsPerJob
      let totalTokens := ((parentTexts chunks).map host.countTokens).sum
      if !sourceIsProse chunks ∨ totalTokens < ENRICHMENT_SIZE_GATE_TOKENS then
        writePrefixOnly host chunks
        persistMeta host sourceId .skipped (metaOf cacheKey MAP_QUALITY_SKIPPED false budget)
      else mapPass host sourceId notebook cacheKey chunks budget

/-- The key of the job is that of the last enrichment. -/
def cacheHit (cacheKey : Option String) (source : Source) (metaJson : Option Str) : Bool :=
  match cacheKey, metaJson.bind host.parseMeta with
  | some key, some info => info.cacheKey = key && source.enrichmentStatus = .enriched
  | _, _ => false

def processJob (notebook : Str) : EnrichJob Unit := do
  if !host.enabled then return ()
  else
    match ← perform (.getSource sourceId : EnrichCmd) with
    | none => return ()
    | some (source, metaJson) =>
      if source.enrichmentStatus = .enriching then return ()
      else
        let cacheKey := host.cacheKey.map fun key => key (source.contentHash.getD "")
        if cacheHit host cacheKey source metaJson then return ()
        else match host.preflight with
          | some reason =>
            persistMeta host sourceId .failed
              { metaOf "" "" false (Budget.withCaps 0 0) with failureReason := some reason }
          | none =>
            perform (.updateEnrichmentStatus sourceId .enriching : EnrichCmd)
            enrichMarked host sourceId notebook cacheKey

end Job

end LensLM
