import LensLM.ChunkSlices
import LensLM.Ingest
import LensLM.Lib.Throughout

/-!
# The buffer beside a source

The text of a derived source is kept in a file beside it, which citations slice at the offsets of
the stored chunks. An ingest replaces the file first and the rows in a later transaction, with the
tokenizer, the chunker and the vector store in between.
-/

namespace LensLM

open ByteText Outcome Programs Program

set_option autoImplicit false

section Condition

namespace EngineState

variable (s : EngineState) (id : String)

/-- The stored rows are the slices of a text at their offsets. -/
def RowsFit (text : Str) : Prop :=
  ∀ row ∈ s.chunksOf id, slice text row.charStart row.charEnd = some row.text

/-- The stored rows are the slices of the file beside the source. -/
def BufferMatches : Prop :=
  ∀ row ∈ s.chunksOf id,
    (s.extracted.lookup id).bind (fun text => slice text row.charStart row.charEnd) = some row.text

instance (text : Str) : Decidable (s.RowsFit id text) := inferInstanceAs (Decidable (∀ _ ∈ _, _))
instance : Decidable (s.BufferMatches id) := inferInstanceAs (Decidable (∀ _ ∈ _, _))

end EngineState

/-- The text that a command writes beside the source. -/
def Cmd.textFor (id : String) : Cmd → Option Str
  | .persistExtracted id' text => if id' = id then some text else none
  | _ => none

def Cmd.storesFor (id : String) : Cmd → Bool
  | .replaceChunks id' _ _ => id' = id
  | _ => false

variable {F T : Type} [LinearOrder T] [Zero T]

/-- What the bytes of a source are indexed as, if they are. -/
def extractedOutput (e : Surroundings F T) (source : Source) (raw : List UInt8) :
    Option (ExtractOutput T) :=
  match e.extract source.kind raw with
  | .error _ => none
  | .ok out =>
    if source.kind = .pdf ∧ (trim out.extractedText).isEmpty then none
    else if source.kind = .url ∧ needsJs e source (byteLen out.extractedText) raw.length then
      match e.renderer with
      | some (.ok html) => renderedOutput e html
      | _ => none
    else some out

/-- What a run on a source indexes, if it comes to it. -/
def indexedOutput (e : Surroundings F T) (source : Source) : Option (ExtractOutput T) :=
  match readSource e source.kind with
  | .error _ => none
  | .ok raw =>
    if source.kind = .audio then
      match e.segments with
      | .error _ => none
      | .ok segments =>
        match transcriptExtractOutput e.floats segments with
        | .error _ => none
        | .ok out => some out
    else extractedOutput e source raw

def runOutput (e : Surroundings F T) (id : String) (s : EngineState) : Option (ExtractOutput T) :=
  (s.source? id).bind (indexedOutput e)

/-- The steps that do not tear the buffer from the rows. A command fails only while the rows are
slices of the buffer; a text is written only where they are slices of it too, or where the
tokenizer and the chunker accept it; and rows are stored only of blocks that end within it. -/
def Careful (e : Surroundings F T) (id : String) (c : Cmd) (fault : Option LensError)
    (s : EngineState) : Prop :=
  (fault.isSome → s.BufferMatches id) ∧
  (fault = none → ∀ text ∈ c.textFor id,
    s.RowsFit id text ∨ ∃ out ∈ runOutput e id s, (chunkOutput e out).Returned) ∧
  (fault = none → c.storesFor id →
    ∀ out ∈ runOutput e id s, EndWithin out.extractedText out.blocks)

instance (e : Surroundings F T) (id : String) (c : Cmd) (fault : Option LensError)
    (s : EngineState) : Decidable (Careful e id c fault s) :=
  inferInstanceAs (Decidable (_ ∧ _ ∧ _))

def carefully (e : Surroundings F T) (id : String) (c : Cmd) (fault : Option LensError)
    (s : EngineState) : Option (Except Stop c.Reply × EngineState) :=
  if Careful e id c fault s then c.react fault s else none

/-- An ingest of a source, or a retry, with what it meets outside the engine. -/
structure IngestOp (F T : Type) where
  surroundings : Surroundings F T
  sourceId : String
  retry : Bool

def IngestOp.job (op : IngestOp F T) : Job Unit :=
  if op.retry then retrySource op.surroundings op.sourceId
  else ingestSource op.surroundings op.sourceId

/-- The states after runs whose steps are those that `react` allows. -/
inductive IngestHistory (react : Surroundings F T → (c : Cmd) → Option LensError → EngineState →
    Option (Except Stop c.Reply × EngineState)) (start : EngineState) : EngineState → Prop
  | start : IngestHistory react start start
  | run {s s' : EngineState} {r : Except Stop Unit} (op : IngestOp F T) :
      IngestHistory react start s → Exec (react op.surroundings) op.job s r s' →
      IngestHistory react start s'

end Condition

section Frame

variable {id : String} {s s' : EngineState}

/-- What decides how a source is read and extracted. -/
def Source.nature (x : Source) : SourceKind × Bool := (x.kind, x.forceJsRender)

/-- The command neither writes the file beside the source nor stores rows of it. -/
def Cmd.Leaves (id : String) : Cmd → Prop
  | .persistExtracted id' _ | .replaceChunks id' _ _ | .removeSiblings id' | .purgeSource id'
  | .insertSummaryChunk id' _ _ => id' ≠ id
  | _ => True

/-- At most rows of the source are gone. -/
structure KeepsBuffer (id : String) (s s' : EngineState) : Prop where
  rows : s'.chunksOf id ⊆ s.chunksOf id
  file : s'.extracted.lookup id = s.extracted.lookup id
  source : (s'.source? id).map Source.nature = (s.source? id).map Source.nature

theorem KeepsBuffer.refl (id : String) (s : EngineState) : KeepsBuffer id s s :=
  ⟨List.Subset.refl _, rfl, rfl⟩

/-- The sources are updated where they stand. -/
theorem KeepsBuffer.map (id : String) {f : Source → Source} (hid : ∀ x, (f x).id = x.id)
    (hf : ∀ x, (f x).nature = x.nature) :
    KeepsBuffer id s { s with sources := s.sources.map f } := by
  refine ⟨List.Subset.refl _, rfl, ?_⟩
  show ((s.sources.map f).find? fun x => x.id = id).map Source.nature = _
  rw [find?_map_source hid, Option.map_map]
  exact Option.map_congr fun x _ => hf x

theorem KeepsBuffer.updateSource (s : EngineState) (id id' : String) {f : Source → Source}
    (hid : ∀ x, (f x).id = x.id) (hf : ∀ x, (f x).nature = x.nature) :
    KeepsBuffer id s (s.updateSource id' f) := by
  apply KeepsBuffer.map
  · intro x
    split
    · exact hid x
    · rfl
  · intro x
    split
    · exact hf x
    · rfl

theorem KeepsBuffer.of_eq (id : String) (hchunks : s'.chunks = s.chunks)
    (hfile : s'.extracted = s.extracted) (hsources : s'.sources = s.sources) :
    KeepsBuffer id s s' := by
  refine ⟨?_, by rw [hfile], by simp only [EngineState.source?, hsources]⟩
  intro row hrow
  rwa [EngineState.chunksOf, ← hchunks]

theorem chunksOf_withoutChunks (s : EngineState) (id id' : String) :
    (s.withoutChunks id').chunksOf id ⊆ s.chunksOf id := by
  intro row hrow
  obtain ⟨hrow, hid⟩ := List.mem_filter.mp hrow
  exact List.mem_filter.mpr ⟨(List.mem_filter.mp hrow).1, hid⟩

/-- Rows of another source do not count. -/
theorem mem_chunksOf_append {s t : EngineState} {old new : List StoredChunk} {row : StoredChunk}
    (hchunks : t.chunks = old ++ new) (hold : old ⊆ s.chunks)
    (hnew : ∀ row ∈ new, row.sourceId ≠ id) (hrow : row ∈ t.chunksOf id) : row ∈ s.chunksOf id := by
  obtain ⟨hrow, hid⟩ := List.mem_filter.mp hrow
  rw [hchunks] at hrow
  rcases List.mem_append.mp hrow with hrow | hrow
  · exact List.mem_filter.mpr ⟨hold hrow, hid⟩
  · exact absurd (of_decide_eq_true hid) (hnew row hrow)

theorem keepsBuffer_run {c : Cmd} (hc : c.Leaves id) {a : c.Reply}
    (hrun : c.run s = .ok (a, s')) : KeepsBuffer id s s' := by
  by_cases htables : c.OnTables
  · obtain ⟨registry, tables, rfl⟩ := htables.run hrun
    exact .of_eq id rfl rfl rfl
  cases c with
  | outside | acquire | release | getSource | listSources | setEmbeddingModel
  | listChunksForReembed | resolveNotebookEmbedding | persistTableMarkdown =>
    cases hrun
    exact .of_eq id rfl rfl rfl
  | updateSourceStatus id' status =>
    simp only [Cmd.run] at hrun
    split at hrun <;> cases hrun
    exact .updateSource s id id' (fun _ => rfl) fun _ => rfl
  | updateSourceMetadata id' tokenCount contentHash language =>
    simp only [Cmd.run] at hrun
    split at hrun <;> cases hrun
    exact .updateSource s id id' (fun _ => rfl) fun _ => rfl
  | trashSource id' =>
    simp only [Cmd.run] at hrun
    split at hrun <;> cases hrun
    exact .updateSource s id id' (fun _ => rfl) fun _ => rfl
  | setSourceError id' info =>
    cases hrun
    exact .updateSource s id id' (fun _ => rfl) fun _ => rfl
  | clearSourceErrorMeta id' =>
    cases hrun
    exact .updateSource s id id' (fun _ => rfl) fun _ => rfl
  | updateEnrichmentStatus id' status =>
    cases hrun
    exact .updateSource s id id' (fun _ => rfl) fun _ => rfl
  | purgeSource id' =>
    simp only [Cmd.run] at hrun
    split at hrun <;> cases hrun
    refine ⟨chunksOf_withoutChunks s id id', rfl, congrArg (Option.map _) ?_⟩
    show (s.sources.filter _).find? _ = s.sources.find? _
    rw [List.find?_filter]
    congr 1
    funext x
    by_cases hx : x.id = id
    · simp [hx, Ne.symm hc]
    · simp [hx]
  | recoverSources =>
    cases hrun
    exact .map id (fun x => by split <;> rfl) fun x => by split <;> rfl
  | recoverEnrichment =>
    cases hrun
    exact .map id (fun x => by split <;> rfl) fun x => by split <;> rfl
  | replaceChunks id' chunks sections =>
    simp only [Cmd.run] at hrun
    split at hrun <;> cases hrun
    refine ⟨fun row hrow => ?_, rfl, rfl⟩
    refine mem_chunksOf_append rfl ((List.filter_subset_self _)) ?_ hrow
    intro row hrow
    obtain ⟨c, _, rfl⟩ := List.mem_map.mp hrow
    exact hc
  | wipeChunks id' =>
    cases hrun
    exact ⟨chunksOf_withoutChunks s id id', rfl, rfl⟩
  | insertSummaryChunk id' chunkId text =>
    simp only [Cmd.run] at hrun
    split at hrun <;> cases hrun
    refine ⟨fun row hrow => ?_, rfl, rfl⟩
    refine mem_chunksOf_append rfl ((List.filter_subset_self _)) ?_ hrow
    intro row hrow
    rw [List.mem_singleton.mp hrow]
    exact hc
  | persistExtracted id' text =>
    cases hrun
    exact ⟨List.Subset.refl _, AList.lookup_insert_ne (Ne.symm hc), rfl⟩
  | removeSiblings id' =>
    cases hrun
    exact ⟨List.Subset.refl _, AList.lookup_erase_ne (Ne.symm hc), rfl⟩
  | _ => exact absurd trivial htables

/-- What holds between the commands that leave the buffer alone. -/
structure BufferKept (id : String) (s : EngineState) : Prop where
  derived : ∀ x, s.source? id = some x → x.kind.isTextLike = false
  fits : s.BufferMatches id

theorem KeepsBuffer.source_eq (h : KeepsBuffer id s s') {x' : Source}
    (hx' : s'.source? id = some x') : ∃ x, s.source? id = some x ∧ x.nature = x'.nature := by
  have hsource := h.source
  rw [hx', Option.map_some] at hsource
  obtain ⟨x, hx, hn⟩ := Option.map_eq_some_iff.mp hsource.symm
  exact ⟨x, hx, hn⟩

theorem BufferKept.keep (hs : BufferKept id s) (h : KeepsBuffer id s s') : BufferKept id s' := by
  constructor
  · intro x' hx'
    obtain ⟨x, hx, hn⟩ := h.source_eq hx'
    have hkind : x.kind = x'.kind := congrArg Prod.fst hn
    rw [← hkind]
    exact hs.derived x hx
  · intro row hrow
    rw [h.file]
    exact hs.fits row (h.rows hrow)

theorem keepsBuffer_react {c : Cmd} (hc : c.Leaves id) {fault : Option LensError}
    {r : Except Stop c.Reply} (h : c.react fault s = some (r, s')) : KeepsBuffer id s s' := by
  cases r with
  | ok a => exact keepsBuffer_run hc (Cmd.react_ok h).2
  | error e =>
    rw [(Cmd.react_error h).1]
    exact .refl id s

end Frame

section Leaving

variable {F T : Type} {e : Surroundings F T} {id : String}

theorem Cmd.OnTables.leaves (c : Cmd) (h : c.OnTables) : c.Leaves id := by
  cases c with
  | persistExtracted | replaceChunks | removeSiblings | purgeSource | insertSummaryChunk =>
    exact absurd h not_false
  | _ => trivial

theorem lift_all {α : Type} {P : Cmd → Prop} (x : Except LensError α) : (lift x).All P := by
  cases x <;> trivial

theorem liftFault_all {α : Type} {P : Cmd → Prop} (x : Except Fault α) : (liftFault x).All P := by
  cases x with
  | ok a => trivial
  | error e => cases e <;> trivial

theorem dropSource_leaves (c : Coordinate) (sourceId : String) :
    (dropSource c sourceId).All (Cmd.Leaves id) :=
  (dropSource_onTables c sourceId).mono Cmd.OnTables.leaves

theorem setTerminalPending_leaves (sourceId : String) (status : SourceStatus) :
    (setTerminalPending sourceId status).All (Cmd.Leaves id) := by
  refine All.bind ?_ fun _ => all_perform trivial
  refine All.bind (all_perform trivial) fun coord => ?_
  refine All.bind (dropSource_leaves coord sourceId) fun _ => ?_
  exact All.bind (all_perform trivial) fun _ => all_perform trivial

theorem finishIndexed_leaves (sourceId : String) (tokens : Nat) (contentHash : String)
    (language : Option String) :
    (finishIndexed sourceId tokens contentHash language).All (Cmd.Leaves id) := by
  refine All.bind (all_perform trivial) fun _ => ?_
  exact All.bind (all_perform trivial) fun _ => all_perform trivial

/-- What a run does once the rows are stored. -/
def afterReplaced (e : Surroundings F T) (source : Source) (coord : Coordinate)
    (out : ExtractOutput T) (contentHash : String) (chunks : List Chunk) : Job Unit := do
  perform (.updateEnrichmentStatus source.id .none : Cmd)
  let language := e.detectLanguage out.extractedText
  if chunks.isEmpty then finishIndexed source.id 0 contentHash language
  else
    perform (.updateSourceStatus source.id .embedding : Cmd)
    perform (.outside : Cmd)
    if source.kind = .pdf then indexPdf coord source.id chunks
    else indexDirect coord source.id chunks
    finishIndexed source.id (parentTokenTotal chunks) contentHash language

theorem afterReplaced_leaves (source : Source) (coord : Coordinate) (out : ExtractOutput T)
    (contentHash : String) (chunks : List Chunk) :
    (afterReplaced e source coord out contentHash chunks).All (Cmd.Leaves id) := by
  refine All.bind (all_perform trivial) fun _ => ?_
  dsimp only
  split
  · exact finishIndexed_leaves source.id _ _ _
  · refine All.bind (all_perform trivial) fun _ => ?_
    refine All.bind (all_perform trivial) fun _ => ?_
    split
    · exact ((indexPdf_onTables coord source.id chunks).mono Cmd.OnTables.leaves).bind fun _ =>
        finishIndexed_leaves source.id _ _ _
    · exact ((indexDirect_onTables coord source.id chunks).mono Cmd.OnTables.leaves).bind fun _ =>
        finishIndexed_leaves source.id _ _ _

end Leaving

end LensLM
