import LensLM.VectorTables

/-!
# Ingestion

A run reads a source, extracts its text, chunks and embeds it, and writes what it found to the
stores. What a run gets from outside the engine is fixed in its `Surroundings`.
-/

namespace LensLM

open ByteText Programs Program Ranking

set_option autoImplicit false

def MAX_ATTEMPTS : Nat := 2 ^ 32 - 1
def EMBED_BATCH : Nat := 32
def PDF_PREREAD_HARD_CEILING_BYTES : Nat := 500 * 1024 * 1024
def NEEDS_JS_MIN_CHARS : Nat := 200
def NEEDS_JS_SUFFICIENT_CHARS : Nat := 1000

/-- What one run of an ingest meets outside the engine: the files, the network, the extractors,
the speech engine, the tokenizer and the clock. -/
structure Surroundings (F T : Type) where
  maxSourceBytes : Nat
  fetchUrl : Except LensError (List UInt8)
  fileSize : Except LensError Nat
  readFile : Except LensError (List UInt8)
  sha256Hex : List UInt8 → String
  segments : Except LensError (List (TranscriptSegment F))
  floats : FloatFormat F T
  /-- The extractor of a kind, chosen by the content for JSON files. -/
  extract : SourceKind → List UInt8 → Except LensError (ExtractOutput T)
  /-- The float comparison of the share of readable text with its floor. -/
  belowTextRatio : Nat → Nat → Bool
  /-- The page renderer, where it is enabled and installed. -/
  renderer : Option (Except LensError (Option Str))
  extractHtml : Str → Except LensError (ExtractOutput T)
  detectLanguage : Str → Option String
  tokenizer : Except LensError Tokenizer
  nowV7 : Nat → Nat → String
  anchorJson : SourceAnchor T → Option Str
  now : String

def lift {α : Type} : Except LensError α → Job α
  | .ok a => .ret a
  | .error e => .fail (.failed e)

def liftFault {α : Type} : Except Fault α → Job α
  | .ok a => .ret a
  | .error (.parse msg) => .fail (.failed (.parse msg))
  | .error .panic => .fail .panicked

/-- A call whose error is only logged. -/
def ignoring (p : Job Unit) : Job Unit := p.handle fun _ => .ret ()

def overLimit (bytes limit : Nat) : LensError :=
  .validation s!"source is {bytes} bytes, exceeding the {limit}-byte ingest limit"

section Stages

variable {F T : Type} [LinearOrder T] [Zero T] (e : Surroundings F T)

/-- Vectors first, then the rows, so that no vector is ever left without its chunk. -/
def wipeSourceContent (sourceId : String) : Job Unit := do
  let coord ← perform (.resolveNotebookEmbedding : Cmd)
  dropSource coord sourceId
  perform (.outside : Cmd)
  perform (.wipeChunks sourceId : Cmd)

def setTerminalPending (sourceId : String) (status : SourceStatus) : Job Unit := do
  wipeSourceContent sourceId
  perform (.updateSourceStatus sourceId status : Cmd)

/-- The files beside the source: the buffer of a derived kind, and the tables for display. -/
def persistSiblings (source : Source) (out : ExtractOutput T) : Job Unit := do
  if source.kind.isTextLike then pure ()
  else
    perform (.outside : Cmd)
    perform (.persistExtracted source.id out.extractedText : Cmd)
  match out.tableMarkdown with
  | some md => perform (.persistTableMarkdown source.id md : Cmd)
  | none => return ()

def vectorRow (notebook : Str) (sourceId : String) (c : Chunk) : VectorRow :=
  ⟨c.id, sourceId, notebook⟩

def parentTokenTotal (chunks : List Chunk) : Nat :=
  ((chunks.filter fun c => c.level = 0).map fun c => c.tokenEnd - c.tokenStart).sum

/-- Chunks with their anchors. -/
def chunkOutput (out : ExtractOutput T) : Job (List Chunk) := do
  let tokenizer ← lift e.tokenizer
  let chunks ← liftFault (chunkBlocks out.extractedText out.blocks tokenizer e.nowV7)
  lift (attachAnchorsToChunks e.anchorJson chunks out.blocks out.anchors)

def finishIndexed (sourceId : String) (tokens : Nat) (contentHash : String)
    (language : Option String) : Job Unit := do
  perform (.updateSourceMetadata sourceId tokens contentHash language : Cmd)
  perform (.updateSourceStatus sourceId .indexed : Cmd)
  perform (.clearSourceErrorMeta sourceId : Cmd)

/-- Embeds one batch, which may fail, and goes on with its rows. -/
def populate (building : Str) (coord : Coordinate) (sourceId : String) (batch : List Chunk) :
    Job Unit := do
  perform (.outside : Cmd)
  addToTable building (batch.map (vectorRow coord.notebook sourceId))

/-- Sweep, create, seed, populate, flip. -/
def indexPdf (coord : Coordinate) (sourceId : String) (chunks : List Chunk) : Job Unit := do
  sweepOrphanBuildingTables coord
  let buildingName ← createBuildingTable coord
  seedBuildingFromActive coord buildingName sourceId
  forEach (batches EMBED_BATCH chunks) (populate buildingName coord sourceId)
  perform (.outside : Cmd)
  flipActive coord buildingName

/-- Embeds every batch, then adds all rows at once. -/
def indexDirect (coord : Coordinate) (sourceId : String) (chunks : List Chunk) : Job Unit := do
  forEach (batches EMBED_BATCH chunks) fun _ => perform (.outside : Cmd)
  addVectors coord (chunks.map (vectorRow coord.notebook sourceId))

/-- Replaces what the stores hold of a source. -/
def replaceContent (source : Source) (coord : Coordinate) (out : ExtractOutput T)
    (contentHash : String) : Job Unit := do
  perform (.updateSourceStatus source.id .parsing : Cmd)
  let chunks ← chunkOutput e out
  dropSource coord source.id
  perform (.outside : Cmd)
  perform (.replaceChunks source.id chunks (buildSections out.blocks) : Cmd)
  perform (.updateEnrichmentStatus source.id .none : Cmd)
  let language := e.detectLanguage out.extractedText
  if chunks.isEmpty then finishIndexed source.id 0 contentHash language
  else
    perform (.updateSourceStatus source.id .embedding : Cmd)
    perform (.outside : Cmd)
    if source.kind = .pdf then indexPdf coord source.id chunks
    else indexDirect coord source.id chunks
    finishIndexed source.id (parentTokenTotal chunks) contentHash language

/-- The content hash is that of the buffer for text and of the raw bytes for a derived kind; an
indexed text that did not change is left alone. -/
def indexExtractOutput (source : Source) (raw : List UInt8) (out : ExtractOutput T) : Job Unit := do
  if source.kind ≠ .pdf ∧ e.maxSourceBytes < byteLen out.extractedText then
    lift (.error (overLimit (byteLen out.extractedText) e.maxSourceBytes))
  else
    persistSiblings source out
    let contentHash :=
      e.sha256Hex (if source.kind.isTextLike then utf8 out.extractedText else raw)
    if source.kind.isTextLike ∧ source.status = .indexed ∧ source.contentHash = some contentHash
    then return ()
    else
      let coord ← perform (.resolveNotebookEmbedding : Cmd)
      replaceContent e source coord out contentHash

def needsJs (source : Source) (textLen rawLen : Nat) : Bool :=
  source.forceJsRender || textLen < NEEDS_JS_MIN_CHARS ||
    textLen < NEEDS_JS_SUFFICIENT_CHARS && e.belowTextRatio textLen rawLen

/-- What a rendered page gives, if it is any better than the static one. -/
def renderedOutput (html : Option Str) : Option (ExtractOutput T) :=
  match html with
  | none => none
  | some html =>
    if e.maxSourceBytes < byteLen html then none
    else match e.extractHtml html with
      | .error _ => none
      | .ok out => if NEEDS_JS_MIN_CHARS ≤ byteLen out.extractedText then some out else none

/-- Indexes the rendered page, or sets a terminal status. -/
def renderPage (source : Source) (raw : List UInt8) : Job Unit :=
  match e.renderer with
  | none => setTerminalPending source.id .needsJs
  | some (.error _) => setTerminalPending source.id .renderFailed
  | some (.ok html) =>
    match renderedOutput e html with
    | some out => indexExtractOutput e source raw out
    | none => setTerminalPending source.id .renderFailed

/-- The gate of URL sources; it tells whether it handled the source. -/
def tryJsRender (source : Source) (raw : List UInt8) (out : ExtractOutput T) : Job Bool := do
  if needsJs e source (byteLen out.extractedText) raw.length then
    renderPage e source raw
    return true
  else return false

/-- The bytes of a source, within the limits. -/
def readSource (kind : SourceKind) : Except LensError (List UInt8) := do
  let raw ← if kind = .url then e.fetchUrl
    else do
      let size ← e.fileSize
      if kind = .pdf then
        if PDF_PREREAD_HARD_CEILING_BYTES < size then
          .error (.validation (s!"PDF source is {size} bytes, exceeding the " ++
            s!"{PDF_PREREAD_HARD_CEILING_BYTES}-byte pre-read ceiling"))
        else e.readFile
      else if kind.isTextLike = false ∧ e.maxSourceBytes < size then
        .error (overLimit size e.maxSourceBytes)
      else e.readFile
  if kind.isTextLike = false ∧ kind ≠ .pdf ∧ e.maxSourceBytes < raw.length then
    .error (.validation (s!"source is {raw.length} raw bytes, exceeding the " ++
      s!"{e.maxSourceBytes}-byte ingest limit"))
  else .ok raw

/-- A scanned PDF has no text and waits for OCR. -/
def ingestExtracted (source : Source) (raw : List UInt8) : Job Unit := do
  let out ← lift (e.extract source.kind raw)
  if source.kind = .pdf ∧ (trim out.extractedText).isEmpty then
    setTerminalPending source.id .needsOcr
  else if source.kind = .url then
    if ← tryJsRender e source raw out then return ()
    else indexExtractOutput e source raw out
  else indexExtractOutput e source raw out

def runIngest (sourceId : String) : Job Unit := do
  match ← perform (.getSource sourceId : Cmd) with
  | none => lift (.error (Cmd.noSource sourceId))
  | some source =>
    let raw ← lift (readSource e source.kind)
    if source.kind.isTextLike = false ∧ source.status = .indexed ∧
        source.contentHash = some (e.sha256Hex raw) then return ()
    else if source.kind = .audio then
      let segments ← lift e.segments
      let out ← lift (transcriptExtractOutput e.floats segments)
      indexExtractOutput e source raw out
    else ingestExtracted e source raw

/-- A cancelled run goes back to the queue; any other error is kept with the source. -/
def recordFailure (sourceId : String) (err : LensError) : Job Unit :=
  match err with
  | .cancelled _ => do
    ignoring (perform (.updateSourceStatus sourceId .queued : Cmd))
    ignoring (perform (.clearSourceErrorMeta sourceId : Cmd))
  | _ => do
    let found ← (perform (.getSource sourceId : Cmd)).handle fun _ => .ret none
    let priorAttempts := ((found.bind Source.errorMeta).map ErrorMeta.attemptCount).getD 0
    ignoring (perform (.setSourceError sourceId
      (.fromError err e.now (min (priorAttempts + 1) MAX_ATTEMPTS)) : Cmd))

def onFailure (sourceId : String) : Stop → Job Unit
  | .panicked => .fail .panicked
  | .failed err => do
    recordFailure e sourceId err
    .fail (.failed err)

def withPermit {α : Type} (p : Job α) : Job α := do
  perform (.acquire : Cmd)
  p.ensuring (perform (.release : Cmd))

def ingestSource (sourceId : String) : Job Unit :=
  withPermit ((runIngest e sourceId).handle (onFailure e sourceId))

def retrySource (sourceId : String) : Job Unit := do
  match ← perform (.getSource sourceId : Cmd) with
  | none => lift (.error (Cmd.noSource sourceId))
  | some source =>
    if source.trashed then
      lift (.error (.validation "cannot retry a trashed source; restore it first"))
    else if source.status ≠ .error then
      lift (.error (.validation (s!"cannot retry source in status " ++
        s!"\"{source.status.asStr}\"; only errored sources can be retried")))
    else
      perform (.updateSourceStatus sourceId .parsing : Cmd)
      ingestSource e sourceId

end Stages

/-- A purge drops the vectors of every active coordinate before the rows. -/
def purgeSource (sourceId : String) : Job Unit :=
  withPermit do
    match ← perform (.getSource sourceId : Cmd) with
    | none => lift (.error (Cmd.noSource sourceId))
    | some _ =>
      let coords ← perform (.activeCoordinates : Cmd)
      forEach coords fun coord => do
        dropSource coord sourceId
        perform (.outside : Cmd)
      perform (.purgeSource sourceId : Cmd)
      ignoring (perform (.removeSiblings sourceId : Cmd))

section Commands

theorem indexPdf_onTables (coord : Coordinate) (sourceId : String) (chunks : List Chunk) :
    (indexPdf coord sourceId chunks).All Cmd.OnTables := by
  refine All.bind (sweep_onTables coord) fun _ => ?_
  refine All.bind (createBuildingTable_onTables coord) fun name => ?_
  refine All.bind (seed_onTables coord name sourceId) fun _ => ?_
  refine All.bind (all_forEach fun batch _ => ?_) fun _ => ?_
  · exact All.bind (all_perform trivial) fun _ => addToTable_onTables name _
  · exact All.bind (all_perform trivial) fun _ => flipActive_onTables coord name

theorem indexDirect_onTables (coord : Coordinate) (sourceId : String) (chunks : List Chunk) :
    (indexDirect coord sourceId chunks).All Cmd.OnTables := by
  refine All.bind (all_forEach fun _ _ => all_perform trivial) fun _ => ?_
  exact addVectors_onTables coord _

variable {F T : Type}

theorem ignoring_all {P : Cmd → Prop} {p : Job Unit} (h : p.All P) : (ignoring p).All P :=
  h.handle fun _ => trivial

/-- The handler of a failure only writes the source's row. -/
theorem onFailure_all {P : Cmd → Prop} {e : Surroundings F T} {sourceId : String}
    (hstatus : P (.updateSourceStatus sourceId .queued))
    (hclear : P (.clearSourceErrorMeta sourceId)) (hget : P (.getSource sourceId))
    (herror : ∀ info, P (.setSourceError sourceId info)) (stop : Stop) :
    (onFailure e sourceId stop).All P := by
  cases stop with
  | panicked => trivial
  | failed err =>
    refine All.bind ?_ fun _ => trivial
    unfold recordFailure
    split
    · exact All.bind (ignoring_all (all_perform hstatus)) fun _ =>
        ignoring_all (all_perform hclear)
    · refine All.bind ((all_perform hget).handle fun _ => trivial) fun found => ?_
      exact ignoring_all (all_perform (herror _))

theorem persistSiblings_all {P : Cmd → Prop} {source : Source} {out : ExtractOutput T}
    (houtside : P .outside) (hfile : P (.persistExtracted source.id out.extractedText))
    (htables : ∀ md, P (.persistTableMarkdown source.id md)) :
    (persistSiblings source out).All P := by
  unfold persistSiblings
  dsimp only
  split
  · cases out.tableMarkdown with
    | none => trivial
    | some md => exact all_perform (htables md)
  · refine All.bind (all_perform houtside) fun _ => ?_
    refine All.bind (all_perform hfile) fun _ => ?_
    cases out.tableMarkdown with
    | none => trivial
    | some md => exact all_perform (htables md)

variable [LinearOrder T]

/-- The chunking issues no commands. -/
theorem chunkOutput_cases (e : Surroundings F T) (out : ExtractOutput T) :
    (∃ chunks, chunkOutput e out = .ret chunks) ∨ ∃ stop, chunkOutput e out = .fail stop := by
  unfold chunkOutput
  cases e.tokenizer with
  | error err => exact .inr ⟨_, rfl⟩
  | ok tokenizer =>
    show (∃ chunks, (liftFault _).bind _ = _) ∨ ∃ stop, (liftFault _).bind _ = _
    cases chunkBlocks out.extractedText out.blocks tokenizer e.nowV7 with
    | error fault => cases fault <;> exact .inr ⟨_, rfl⟩
    | ok chunks =>
      show (∃ chunks', lift _ = .ret chunks') ∨ ∃ stop, lift _ = .fail stop
      cases attachAnchorsToChunks e.anchorJson chunks out.blocks out.anchors with
      | error err => exact .inr ⟨_, rfl⟩
      | ok chunks => exact .inl ⟨_, rfl⟩

end Commands

end LensLM
