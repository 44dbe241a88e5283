import LensLM.Ingest

/-!
# Re-embedding

Enrichment embeds one source anew, a model switch the whole notebook. Both fill a building table
without the ingest lock and take it for the flip only.
-/

namespace LensLM

open ByteText Programs Program Ranking

set_option autoImplicit false

def REEMBED_BATCH : Nat := 32

/-- Embeds one batch, which may fail, and goes on with its rows. -/
def reembedBatch (building : Str) (notebook : Str) (batch : List (String × ReembedChunk)) :
    Job Unit := do
  perform (.outside : Cmd)
  addToTable building (batch.map fun x => ⟨x.2.id, x.1, notebook⟩)

/-- The flip is skipped when the source is gone by then. -/
def flipUnlessPurged (coord : Coordinate) (building : Str) (sourceId : String) : Job Bool :=
  withPermit do
    match ← perform (.getSource sourceId : Cmd) with
    | none => return false
    | some _ =>
      flipActive coord building
      return true

def populateAndFlip (sourceId : String) (chunks : List ReembedChunk) : Job Unit := do
  let coord ← perform (.resolveNotebookEmbedding : Cmd)
  perform (.outside : Cmd)
  let buildingName ← createBuildingTable coord
  seedBuildingFromActive coord buildingName sourceId
  forEach (batches REEMBED_BATCH (chunks.map fun c => (sourceId, c)))
    (reembedBatch buildingName coord.notebook)
  if ← flipUnlessPurged coord buildingName sourceId then
    perform (.updateEnrichmentStatus sourceId .enriched : Cmd)
  else return ()

def reembedAndFlip (sourceId : String) (docSummary : Str) (summaryId : String) : Job Unit := do
  if (trim docSummary).isEmpty then pure ()
  else perform (.insertSummaryChunk sourceId summaryId docSummary : Cmd)
  let chunks ← perform (.listChunksForReembed sourceId : Cmd)
  if chunks.isEmpty then perform (.updateEnrichmentStatus sourceId .enriched : Cmd)
  else populateAndFlip sourceId chunks

end LensLM
