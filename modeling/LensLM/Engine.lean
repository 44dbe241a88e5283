import LensLM.Anchors
import LensLM.DenseSearch
import LensLM.ParseText
import LensLM.Section
import LensLM.Lib.Programs
import Mathlib.Data.List.AList

/-!
# The stores of the engine

One notebook's part of the relational store, the vector tables, the files beside the sources and
the ingest lock, and the atomic commands that the engine's jobs issue on them. Every command may
also fail without an effect, and the acquisition of the lock blocks while it is held.
-/

namespace LensLM

open ByteText Programs

set_option autoImplicit false

inductive SourceStatus where
  | pending
  | queued
  | parsing
  | embedding
  | indexed
  | error
  | needsOcr
  | needsJs
  | renderFailed
deriving DecidableEq, Repr

def SourceStatus.asStr : SourceStatus → String
  | .pending => "pending"
  | .queued => "queued"
  | .parsing => "parsing"
  | .embedding => "embedding"
  | .indexed => "indexed"
  | .error => "error"
  | .needsOcr => "needs_ocr"
  | .needsJs => "needs_js"
  | .renderFailed => "render_failed"

/-- The statuses that a restart turns into an error. -/
def SourceStatus.isTransient : SourceStatus → Bool
  | .parsing | .embedding => true
  | .pending | .queued | .indexed | .error | .needsOcr | .needsJs | .renderFailed => false

inductive EnrichmentStatus where
  | none
  | pending
  | enriching
  | enriched
  | failed
  | skipped
deriving DecidableEq, Repr

def SourceKind.isTextLike : SourceKind → Bool
  | .text | .markdown => true
  | .pdf | .docx | .url | .json | .jsonl | .yaml | .xml | .rtf | .odt | .epub | .xlsx | .xls | .csv
  | .audio | .file => false

structure Source where
  id : String
  kind : SourceKind
  status : SourceStatus
  trashed : Bool
  tokenCount : Option Nat
  contentHash : Option String
  enrichmentStatus : EnrichmentStatus
  forceJsRender : Bool
  errorMeta : Option ErrorMeta
  language : Option String
deriving DecidableEq, Repr

inductive StoredKind where
  | hierarchy (kind : ChunkKind)
  | summary
deriving DecidableEq, Repr

structure StoredChunk where
  id : String
  sourceId : String
  kind : StoredKind
  level : Nat
  text : Str
  tokenStart : Option Nat
  charStart : Nat
  charEnd : Nat
  embeddingText : Option Str
deriving DecidableEq, Repr

def Chunk.row (sourceId : String) (c : Chunk) : StoredChunk :=
  ⟨c.id, sourceId, .hierarchy c.kind, c.level, c.text, some c.tokenStart, c.charStart, c.charEnd,
    none⟩

structure ReembedChunk where
  id : String
  level : Nat
  embedText : Str
deriving DecidableEq, Repr

section Registry

inductive IndexStatus where
  | active
  | building
  | stale
deriving DecidableEq, Repr

structure RegistryRow where
  coord : Coordinate
  table : Str
  status : IndexStatus
deriving DecidableEq, Repr

def RegistryRow.Is (c : Coordinate) (status : IndexStatus) (row : RegistryRow) : Prop :=
  row.coord = c ∧ row.status = status

instance (c : Coordinate) (status : IndexStatus) : DecidablePred (RegistryRow.Is c status) :=
  fun _ => inferInstanceAs (Decidable (_ ∧ _))

/-- The coordinates of the rows with an active table. -/
def activeCoords (rows : List RegistryRow) : List Coordinate :=
  (rows.filter fun row => row.status = .active).map RegistryRow.coord

/-- The table `embedding_index` with its partial unique index. -/
structure Registry where
  rows : List RegistryRow
  uqActive : (activeCoords rows).Nodup
deriving DecidableEq

namespace Registry

/-- The rows, unless they violate the index. -/
def ofRows (rows : List RegistryRow) : Option Registry :=
  if h : (activeCoords rows).Nodup then some ⟨rows, h⟩ else none

theorem activeCoords_sublist {rows rows' : List RegistryRow} (h : rows'.Sublist rows) :
    (activeCoords rows').Sublist (activeCoords rows) := (h.filter _).map _

def names (r : Registry) (c : Coordinate) : List Str :=
  (r.rows.filter fun row => row.coord = c).map RegistryRow.table

def namesOf (r : Registry) (c : Coordinate) (status : IndexStatus) : List Str :=
  (r.rows.filter (RegistryRow.Is c status)).map RegistryRow.table

def activeName (r : Registry) (c : Coordinate) : Option Str :=
  (r.rows.find? (RegistryRow.Is c .active)).map RegistryRow.table

/-- A second active row of a coordinate is not inserted. -/
def register (r : Registry) (row : RegistryRow) : Registry := (ofRows (r.rows ++ [row])).getD r

def delete (r : Registry) (p : RegistryRow → Bool) : Registry where
  rows := r.rows.filter fun row => !p row
  uqActive := r.uqActive.sublist (activeCoords_sublist List.filter_sublist)

def demoteRow (c : Coordinate) (row : RegistryRow) : RegistryRow :=
  if row.Is c .active then { row with status := .stale } else row

theorem activeCoords_demote (rows : List RegistryRow) (c : Coordinate) :
    (activeCoords (rows.map (demoteRow c))).Sublist (activeCoords rows) := by
  induction rows with
  | nil => exact List.Sublist.refl _
  | cons row rows ih =>
    by_cases hc : row.Is c .active
    · have hs : row.status = .active := hc.2
      simp only [activeCoords, List.map_cons, demoteRow, if_pos hc, List.filter_cons, hs] at ih ⊢
      exact ih.cons _
    · simp only [activeCoords, List.map_cons, demoteRow, if_neg hc, List.filter_cons] at ih ⊢
      split
      · exact ih.cons_cons _
      · exact ih

def demote (r : Registry) (c : Coordinate) : Registry where
  rows := r.rows.map (demoteRow c)
  uqActive := r.uqActive.sublist (activeCoords_demote r.rows c)

def promoteRow (c : Coordinate) (building : Str) (row : RegistryRow) : RegistryRow :=
  if row.Is c .building ∧ row.table = building then { row with status := .active } else row

/-- One transaction: the active row is demoted, the building row promoted. -/
def flip (r : Registry) (c : Coordinate) (building : Str) : Except LensError Registry :=
  if building ∈ (r.demote c).namesOf c .building then
    match ofRows ((r.demote c).rows.map (promoteRow c building)) with
    | some r => .ok r
    | none => .error (.validation "a record with that value already exists")
  else .error (.validation (s!"no building embedding_index row named {String.ofList building} for " ++
    s!"({String.ofList c.notebook}, {String.ofList c.backend.asStr}, {String.ofList c.model}, " ++
    s!"{c.dim}) to promote"))

theorem mem_register {r : Registry} {x row : RegistryRow} (h : row ∈ (r.register x).rows) :
    row ∈ r.rows ∨ row = x := by
  unfold register ofRows at h
  split at h
  · simpa using h
  · exact .inl h

theorem activeName_eq_some {r : Registry} {c : Coordinate} {n : Str}
    (h : r.activeName c = some n) : ⟨c, n, .active⟩ ∈ r.rows := by
  obtain ⟨row, hrow, rfl⟩ := Option.map_eq_some_iff.mp h
  obtain ⟨hc, hs⟩ : row.Is c .active := by simpa using List.find?_some hrow
  have hmem := List.mem_of_find?_eq_some hrow
  cases row
  simp only at hc hs
  subst hc hs
  exact hmem

/-- Where a row comes from that a flip leaves. -/
theorem mem_flip {r r' : Registry} {c : Coordinate} {building : Str}
    (h : r.flip c building = .ok r') {row : RegistryRow} (hrow : row ∈ r'.rows) :
    ∃ old ∈ r.rows, old.coord = row.coord ∧ old.table = row.table ∧
      (row.status = .active → row.coord = c ∧ row.table = building ∨
        row.coord ≠ c ∧ old.status = .active) ∧
      (row.status = .building → old.status = .building ∧
        (row.coord = c → row.table ≠ building)) := by
  unfold flip ofRows at h
  split at h
  · split at h
    · rename_i hr
      split at hr
      · cases hr
        cases h
        obtain ⟨mid, hmid, rfl⟩ := List.mem_map.mp hrow
        obtain ⟨old, hold, rfl⟩ := List.mem_map.mp hmid
        refine ⟨old, hold, ?_⟩
        by_cases hold : old.Is c .active
        · have hne : ¬ (RegistryRow.Is c .building { old with status := .stale } ∧
              old.table = building) := fun h => by cases h.1.2
          rw [demoteRow, if_pos hold, promoteRow, if_neg hne]
          exact ⟨rfl, rfl, nofun, nofun⟩
        · rw [demoteRow, if_neg hold]
          by_cases hp : old.Is c .building ∧ old.table = building
          · rw [promoteRow, if_pos hp]
            exact ⟨rfl, rfl, fun _ => .inl ⟨hp.1.1, hp.2⟩, nofun⟩
          · rw [promoteRow, if_neg hp]
            refine ⟨rfl, rfl, fun ha => .inr ⟨fun hc => hold ⟨hc, ha⟩, ha⟩, fun hb => ⟨hb, ?_⟩⟩
            exact fun hc ht => hp ⟨⟨hc, hb⟩, ht⟩
      · cases hr
    · cases h
  · cases h

end Registry

end Registry

structure EngineState where
  notebook : Str
  embeddingModel : Option Str
  embeddingBackend : Option Str
  sources : List Source
  chunks : List StoredChunk
  sections : List (String × Section)
  registry : Registry
  tables : AList fun _ : Str => List VectorRow
  /-- The `.extracted.txt` files by source. -/
  extracted : AList fun _ : String => Str
  tableMarkdown : AList fun _ : String => Str
  ingestLock : Bool

namespace EngineState

/-- The embedding coordinate that the notebook's settings resolve to. -/
def coordinate (s : EngineState) : Coordinate :=
  let spec := resolve (s.embeddingModel.getD [])
  ⟨s.notebook, .fromOptStr s.embeddingBackend, spec.id, spec.dim⟩

def source? (s : EngineState) (id : String) : Option Source := s.sources.find? fun x => x.id = id

/-- The rows that an UPDATE by id changes. -/
def updateSource (s : EngineState) (id : String) (f : Source → Source) : EngineState :=
  { s with sources := s.sources.map fun x => if x.id = id then f x else x }

def chunksOf (s : EngineState) (id : String) : List StoredChunk :=
  s.chunks.filter fun c => c.sourceId = id

def withoutChunks (s : EngineState) (id : String) : EngineState :=
  { s with
    chunks := s.chunks.filter fun c => c.sourceId ≠ id
    sections := s.sections.filter fun x => x.1 ≠ id }

/-- `ORDER BY level ASC, token_start ASC`, an absent start first. -/
def ReembedBefore (a b : StoredChunk) : Prop :=
  a.level < b.level ∨ a.level = b.level ∧ a.tokenStart.elim 0 (· + 1) ≤ b.tokenStart.elim 0 (· + 1)

instance : DecidableRel ReembedBefore := fun _ _ => inferInstanceAs (Decidable (_ ∨ _ ∧ _))

def chunksForReembed (s : EngineState) (id : String) : List ReembedChunk :=
  ((s.chunksOf id).insertionSort ReembedBefore).map fun c =>
    ⟨c.id, c.level, c.embeddingText.getD c.text⟩

def withRegistry (s : EngineState) (r : Registry) : EngineState := { s with registry := r }

def withRows (s : EngineState) (name : Str) (rows : List VectorRow) : EngineState :=
  { s with tables := s.tables.insert name rows }

end EngineState

/-- How a job stops short: with a reported error, or in a panic. -/
inductive Stop where
  | failed (err : LensError)
  | panicked
deriving DecidableEq, Repr

inductive Cmd where
  /-- Work outside the stores, such as the loading of a model. -/
  | outside
  | acquire
  | release
  | getSource (id : String)
  | listSources
  | updateSourceStatus (id : String) (status : SourceStatus)
  | setSourceError (id : String) (info : ErrorMeta)
  | clearSourceErrorMeta (id : String)
  | updateEnrichmentStatus (id : String) (status : EnrichmentStatus)
  | updateSourceMetadata (id : String) (tokenCount : Nat) (contentHash : String)
      (language : Option String)
  | trashSource (id : String)
  | purgeSource (id : String)
  | setEmbeddingModel (model : Str) (backend : EmbeddingBackend)
  | recoverSources
  | recoverEnrichment
  | replaceChunks (id : String) (chunks : List Chunk) (sections : List Section)
  | wipeChunks (id : String)
  | insertSummaryChunk (id chunkId : String) (text : Str)
  | listChunksForReembed (id : String)
  | resolveNotebookEmbedding
  | activeLanceTableName (c : Coordinate)
  | activeCoordinates
  | lanceTableNamesForCoordinate (c : Coordinate)
  | buildingLanceTableNames (c : Coordinate)
  | register (c : Coordinate) (table : Str) (status : IndexStatus)
  | deleteBuildingRows (c : Coordinate)
  | deleteRowByTable (c : Coordinate) (table : Str)
  | flipActiveTxn (c : Coordinate) (building : Str)
  | demoteActiveToStale (c : Coordinate)
  | registeredTableNames
  | unfinishedTableNames
  | deleteUnfinishedRows
  | tableNames
  | openTable (name : Str)
  | createEmptyTable (name : Str)
  | addRows (name : Str) (rows : List VectorRow)
  | deleteRows (name : Str) (sourceId : String)
  | queryOthers (name : Str) (sourceId : String)
  | dropTable (name : Str)
  | persistExtracted (id : String) (text : Str)
  | persistTableMarkdown (id : String) (md : Str)
  | removeSiblings (id : String)

abbrev Cmd.Reply : Cmd → Type
  | .getSource _ => Option Source
  | .listSources => List Source
  | .listChunksForReembed _ => List ReembedChunk
  | .resolveNotebookEmbedding => Coordinate
  | .activeLanceTableName _ => Option Str
  | .activeCoordinates => List Coordinate
  | .lanceTableNamesForCoordinate _ => List Str
  | .buildingLanceTableNames _ => List Str
  | .flipActiveTxn _ _ => Option Str
  | .demoteActiveToStale _ => Option Str
  | .registeredTableNames => List Str
  | .unfinishedTableNames => List Str
  | .tableNames => List Str
  | .queryOthers _ _ => List VectorRow
  | _ => Unit

namespace Cmd

def noSource (id : String) : LensError := .validation s!"no source with id {id}"

/-- The effect of a command that is carried out, or the error of one that is not. -/
def run : (c : Cmd) → EngineState → Except LensError (c.Reply × EngineState)
  | .outside, s => .ok ((), s)
  | .acquire, s => .ok ((), { s with ingestLock := true })
  | .release, s => .ok ((), { s with ingestLock := false })
  | .getSource id, s => .ok (s.source? id, s)
  | .listSources, s => .ok (s.sources.filter fun x => !x.trashed, s)
  | .updateSourceStatus id status, s =>
    if (s.source? id).isSome then .ok ((), s.updateSource id fun x => { x with status })
    else .error (noSource id)
  | .setSourceError id info, s =>
    .ok ((), s.updateSource id fun x => { x with status := .error, errorMeta := some info })
  | .clearSourceErrorMeta id, s => .ok ((), s.updateSource id fun x => { x with errorMeta := none })
  | .updateEnrichmentStatus id status, s =>
    .ok ((), s.updateSource id fun x => { x with enrichmentStatus := status })
  | .updateSourceMetadata id tokenCount contentHash language, s =>
    if (s.source? id).isSome then
      .ok ((), s.updateSource id fun x =>
        { x with tokenCount := some tokenCount, contentHash := some contentHash, language })
    else .error (noSource id)
  | .trashSource id, s =>
    if (s.source? id).any fun x => !x.trashed then
      .ok ((), s.updateSource id fun x => { x with trashed := true })
    else .error (.validation s!"no live source with id {id}")
  | .purgeSource id, s =>
    if (s.source? id).any Source.trashed then
      .ok ((), { s.withoutChunks id with sources := s.sources.filter fun x => x.id ≠ id })
    else .error (.validation s!"no trashed source with id {id}")
  | .setEmbeddingModel model backend, s =>
    .ok ((), { s with embeddingModel := some model, embeddingBackend := some backend.asStr })
  | .recoverSources, s =>
    .ok ((), { s with sources := s.sources.map fun x =>
      if x.status.isTransient then { x with status := .error } else x })
  | .recoverEnrichment, s =>
    .ok ((), { s with sources := s.sources.map fun x =>
      if x.enrichmentStatus = .enriching then { x with enrichmentStatus := .pending } else x })
  | .replaceChunks id chunks sections, s =>
    if (s.source? id).isSome || chunks.isEmpty && sections.isEmpty then
      .ok ((), { s with
        chunks := (s.withoutChunks id).chunks ++ chunks.map (Chunk.row id)
        sections := (s.withoutChunks id).sections ++ sections.map fun x => (id, x) })
    else .error (.validation "referenced record does not exist")
  | .wipeChunks id, s => .ok ((), s.withoutChunks id)
  | .insertSummaryChunk id chunkId text, s =>
    if (s.source? id).isSome then
      .ok ((), { s with
        chunks := s.chunks.filter (fun c => ¬ (c.sourceId = id ∧ c.kind = .summary)) ++
          [⟨chunkId, id, .summary, 2, text, none, 0, 0, none⟩] })
    else .error (.validation "referenced record does not exist")
  | .listChunksForReembed id, s => .ok (s.chunksForReembed id, s)
  | .resolveNotebookEmbedding, s => .ok (s.coordinate, s)
  | .activeLanceTableName c, s => .ok (s.registry.activeName c, s)
  | .activeCoordinates, s => .ok (activeCoords s.registry.rows, s)
  | .lanceTableNamesForCoordinate c, s => .ok (s.registry.names c, s)
  | .buildingLanceTableNames c, s => .ok (s.registry.namesOf c .building, s)
  | .register c table status, s =>
    .ok ((), s.withRegistry (s.registry.register ⟨c, table, status⟩))
  | .deleteBuildingRows c, s =>
    .ok ((), s.withRegistry (s.registry.delete fun row => row.Is c .building))
  | .deleteRowByTable c table, s =>
    .ok ((), s.withRegistry (s.registry.delete fun row => row.coord = c ∧ row.table = table))
  | .flipActiveTxn c building, s =>
    (s.registry.flip c building).map fun r => (s.registry.activeName c, s.withRegistry r)
  | .demoteActiveToStale c, s =>
    .ok (s.registry.activeName c, s.withRegistry (s.registry.demote c))
  | .registeredTableNames, s => .ok (s.registry.rows.map RegistryRow.table, s)
  | .unfinishedTableNames, s =>
    .ok ((s.registry.rows.filter fun row => row.status ≠ .active).map RegistryRow.table, s)
  | .deleteUnfinishedRows, s =>
    .ok ((), s.withRegistry (s.registry.delete fun row => row.status ≠ .active))
  | .tableNames, s => .ok (s.tables.keys, s)
  | .openTable name, s =>
    if name ∈ s.tables then .ok ((), s) else .error (.vector "lancedb open_table failed")
  | .createEmptyTable name, s =>
    if name ∈ s.tables then .error (.vector "lancedb create_empty_table failed")
    else .ok ((), s.withRows name [])
  | .addRows name rows, s =>
    match s.tables.lookup name with
    | some old => .ok ((), s.withRows name (old ++ rows))
    | none => .error (.vector "lancedb add failed")
  | .deleteRows name sourceId, s =>
    match s.tables.lookup name with
    | some old => .ok ((), s.withRows name (old.filter fun r => r.sourceId ≠ sourceId))
    | none => .error (.vector "lancedb delete failed")
  | .queryOthers name sourceId, s =>
    match s.tables.lookup name with
    | some old => .ok (old.filter fun r => r.sourceId ≠ sourceId, s)
    | none => .error (.vector "lancedb seed scan failed")
  | .dropTable name, s =>
    if name ∈ s.tables then .ok ((), { s with tables := s.tables.erase name })
    else .error (.vector "lancedb drop_table failed")
  | .persistExtracted id text, s => .ok ((), { s with extracted := s.extracted.insert id text })
  | .persistTableMarkdown id md, s =>
    .ok ((), { s with tableMarkdown := s.tableMarkdown.insert id md })
  | .removeSiblings id, s =>
    .ok ((), { s with extracted := s.extracted.erase id, tableMarkdown := s.tableMarkdown.erase id })

/-- The permit is given back without fail. -/
def canFail : Cmd → Bool
  | .release => false
  | _ => true

/-- The command waits. -/
def blocked (s : EngineState) : Cmd → Bool
  | .acquire => s.ingestLock
  | _ => false

/-- One command, which fails with `fault` if there is one. -/
def react (c : Cmd) (fault : Option LensError) (s : EngineState) :
    Option (Except Stop c.Reply × EngineState) :=
  if blocked s c then none
  else match fault with
    | some e => if c.canFail then some (.error (.failed e), s) else none
    | none => match c.run s with
      | .ok (a, s') => some (.ok a, s')
      | .error e => some (.error (.failed e), s)

end Cmd

theorem find?_map_source {f : Source → Source} (hf : ∀ x, (f x).id = x.id) (sourceId : String)
    (l : List Source) : (l.map f).find? (fun x => x.id = sourceId) =
      (l.find? fun x => x.id = sourceId).map f := by
  rw [List.find?_map]
  have hid : (fun x : Source => decide (x.id = sourceId)) ∘ f =
      fun x => decide (x.id = sourceId) := by
    funext x
    rw [Function.comp, hf]
  rw [hid]

theorem source?_updateSource (s : EngineState) (id sourceId : String) {f : Source → Source}
    (hf : ∀ x, (f x).id = x.id) : (s.updateSource id f).source? sourceId =
      (s.source? sourceId).map fun x => if x.id = id then f x else x := by
  apply find?_map_source
  intro x
  split
  · exact hf x
  · rfl

abbrev Job := Program Cmd Cmd.Reply Stop

/-- A command that is carried out. -/
theorem Cmd.react_ok {c : Cmd} {fault : Option LensError} {s s' : EngineState} {a : c.Reply}
    (h : c.react fault s = some (.ok a, s')) :
    Cmd.blocked s c = false ∧ c.run s = .ok (a, s') := by
  unfold Cmd.react at h
  split at h
  · cases h
  · rename_i hb
    refine ⟨by simpa using hb, ?_⟩
    cases fault with
    | some e =>
      simp only at h
      split at h <;> cases h
    | none =>
      simp only at h
      split at h
      · rename_i hr
        cases h
        exact hr
      · cases h

/-- A command that fails, by itself or by a fault, and leaves the state as it is. -/
theorem Cmd.react_error {c : Cmd} {fault : Option LensError} {s s' : EngineState} {stop : Stop}
    (h : c.react fault s = some (.error stop, s')) :
    s' = s ∧ (∃ e, stop = .failed e) ∧ (c.canFail = true ∨ ∃ e, c.run s = .error e) := by
  unfold Cmd.react at h
  split at h
  · cases h
  · cases fault with
    | some e =>
      simp only at h
      split at h
      · rename_i hc
        cases h
        exact ⟨rfl, ⟨e, rfl⟩, .inl hc⟩
      · cases h
    | none =>
      simp only at h
      split at h
      · cases h
      · rename_i e hr
        cases h
        exact ⟨rfl, ⟨e, rfl⟩, .inr ⟨e, hr⟩⟩

theorem Cmd.release_succeeds {fault : Option LensError} {s s' : EngineState} {stop : Stop} :
    Cmd.release.react fault s ≠ some (.error stop, s') := by
  intro h
  obtain ⟨_, _, hc | ⟨e, he⟩⟩ := Cmd.react_error h
  · cases hc
  · cases he

end LensLM
