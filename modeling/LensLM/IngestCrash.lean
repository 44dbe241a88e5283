import LensLM.ExtractedBufferRuns
import LensLM.TableRegistry
import LensLM.VectorJobs

/-!
# Crashes of an ingest

An ingest that replaces a source's content marks the source as parsing first, so that a restart
after a crash reclaims it. One that ends in a terminal-pending status wipes the content first and
writes the status afterwards.
-/

namespace LensLM

open ByteText Programs Program

set_option autoImplicit false

section Definitions

variable {F T : Type} [LinearOrder T] [Zero T]

/-- No rendered page can be indexed. -/
def noRenderedPage (e : Surroundings F T) : Bool :=
  match e.renderer with
  | some (.ok html) => (renderedOutput e html).isNone
  | _ => true

/-- What was extracted makes the ingest set a terminal-pending status. -/
def pendingOutput (e : Surroundings F T) (source : Source) (raw : List UInt8)
    (out : ExtractOutput T) : Bool :=
  source.kind = .pdf && (trim out.extractedText).isEmpty ||
    source.kind = .url && needsJs e source (byteLen out.extractedText) raw.length &&
      noRenderedPage e

/-- An ingest of the source that comes to its end sets a terminal-pending status. -/
def endsPending (e : Surroundings F T) (source : Source) : Bool :=
  match readSource e source.kind with
  | .error _ => false
  | .ok raw =>
    if source.kind.isTextLike = false ∧ source.status = .indexed ∧
        source.contentHash = some (e.sha256Hex raw) ∨ source.kind = .audio then false
    else match e.extract source.kind raw with
      | .error _ => false
      | .ok out => pendingOutput e source raw out

/-- The ingest does not set a terminal-pending status of an indexed source with chunk rows. A retry
is of a source with an error. -/
def IngestOp.Spares (op : IngestOp F T) (s : EngineState) : Prop :=
  op.retry = false → ∀ x ∈ s.source? op.sourceId, endsPending op.surroundings x →
    s.Wipeable op.sourceId

instance (op : IngestOp F T) (s : EngineState) : Decidable (op.Spares s) :=
  inferInstanceAs (Decidable (_ → ∀ _ ∈ _, _ → _))

/-- The startup of the engine; its garbage collection may fail. -/
def startup (notebooks : Nat) : Job Unit := do
  perform (.release : Cmd)
  perform (.recoverSources : Cmd)
  perform (.recoverEnrichment : Cmd)
  ignoring (gcOrphanEmbeddingTables notebooks)

/-- Runs of ingests and retries from fresh stores, with crashes anywhere and startups. -/
abbrev IngestRun (Allowed : IngestOp F T → EngineState → Prop) (start : EngineState) :
    Bool → Recorded → Prop :=
  CrashRun Recorded.react (fun w p => ∃ op : IngestOp F T, Allowed op w.engine ∧ p = op.job)
    (fun p => ∃ notebooks, p = startup notebooks) ⟨start, fun _ => []⟩

end Definitions

variable {K : Coordinate → Prop} {c : Coordinate} {w : Recorded} {α : Type}

section Rules

/-- A job whose commands may be issued anywhere. -/
theorem yields_free {p : Job α} (hs : IndexSound K c w)
    (hp : p.All fun k => ∀ s, k.Safe K c s) : Yields K c (fun _ _ => True) p w := by
  refine (Throughout.quiet ?_ hp hs).mono fun _ _ _ _ _ _ => trivial
  intro k x t r t' hk ht hr
  obtain ⟨a, s, rfl, hrun, rfl⟩ | ⟨stop, rfl, rfl⟩ := Recorded.react_cases hr
  · exact ht.step (hk _) hrun
  · exact ht

/-- An error of the job is only logged. -/
theorem yields_ignoring {p : Job Unit} (h : Yields K c (fun _ _ => True) p w) :
    Yields K c (fun _ _ => True) (ignoring p) w := by
  apply Throughout.handle
  refine Throughout.mono h fun r t ht _ => ?_
  cases r with
  | ok a => exact fun _ _ => trivial
  | error e => exact Yields.ret ht trivial

theorem yields_lift {P : α → Recorded → Prop} (hs : IndexSound K c w) {x : Except LensError α}
    (h : ∀ a, x = .ok a → P a w) : Yields K c P (lift x) w := by
  cases x with
  | ok a => exact .ret hs (h a rfl)
  | error e => exact .fail hs _

theorem yields_resolve (hs : IndexSound K c w) :
    Yields K c (fun a t => a = c ∧ t = w) (perform (.resolveNotebookEmbedding : Cmd)) w :=
  (Yields.read (k := .resolveNotebookEmbedding) hs trivial rfl rfl).mono fun _ _ _ h =>
    ⟨h.1.trans hs.coordinate, h.2⟩

end Rules

section Content

/-- The chunk rows of a source that is not indexed are those of an ingest. -/
structure Stored (id : String) (chunks : List Chunk) (s : EngineState) : Prop where
  unindexed : s.Unindexed id
  rows : s.chunksOf id = chunks.map (Chunk.row id)

theorem EngineState.Unindexed.updateSource {s : EngineState} {id : String}
    (h : s.Unindexed id) (id' : String) {f : Source → Source} (hid : ∀ x, (f x).id = x.id)
    (hf : ∀ x, (f x).status = .indexed → x.status = .indexed) :
    (s.updateSource id' f).Unindexed id := by
  intro x hx
  obtain ⟨y, hy, rfl⟩ := List.mem_map.mp hx
  split
  · exact fun hyid hs => h y hy ((hid y).symm.trans hyid) (hf y hs)
  · exact h y hy

theorem unindexed_updateStatus (s : EngineState) (id : String) {status : SourceStatus}
    (hstatus : status ≠ .indexed) :
    (s.updateSource id fun x => { x with status }).Unindexed id := by
  intro x hx hxid
  obtain ⟨y, hy, rfl⟩ := List.mem_map.mp hx
  split at hxid
  · rw [if_pos ‹_›]
    exact hstatus
  · exact absurd hxid ‹_›

theorem SameContent.wipeable {t : Recorded} (h : SameContent w t) {id : String}
    (hid : w.engine.Wipeable id) : t.engine.Wipeable id := by
  refine hid.imp h.unindexed fun hnil => ?_
  rw [h.chunksOf]
  exact hnil

theorem SameContent.stored {t : Recorded} (h : SameContent w t) {id : String}
    {chunks : List Chunk} (hstored : Stored id chunks w.engine) : Stored id chunks t.engine :=
  ⟨h.unindexed hstored.unindexed, (h.chunksOf id).trans hstored.rows⟩

/-- A status other than indexed is written. -/
theorem yields_updateStatus (hs : IndexSound K c w) (id : String) (status : SourceStatus)
    (hstatus : status ≠ .indexed) :
    Yields K c (fun _ t => t.engine.Unindexed id ∧
      ∀ id', t.engine.chunksOf id' = w.engine.chunksOf id')
      (perform (.updateSourceStatus id status : Cmd)) w := by
  refine Yields.command (k := .updateSourceStatus id status) hs
    (fun h => absurd h hstatus) fun _ s' hrun => ?_
  simp only [Cmd.run] at hrun
  split at hrun <;> cases hrun
  exact ⟨unindexed_updateStatus w.engine id hstatus, fun _ => rfl⟩

end Content

section Jobs

variable {F T : Type} {e : Surroundings F T}

/-- The content is wiped while the source is not indexed, or has no chunk rows. -/
theorem yields_setTerminalPending (hs : IndexSound K c w) {id : String} {status : SourceStatus}
    (hstatus : status ≠ .indexed) (hid : w.engine.Wipeable id) :
    Yields K c (fun _ _ => True) (setTerminalPending id status) w := by
  refine Yields.bind (P := fun _ _ => True) ?_ fun _ t ht _ =>
    (yields_updateStatus ht id status hstatus).mono fun _ _ _ _ => trivial
  refine Yields.bind (yields_resolve hs) fun coord t ht h => ?_
  obtain ⟨rfl, rfl⟩ := h
  refine Yields.bind (Yields.frame (dropSource_onTables coord id) (yields_dropSource ht hid)) ?_
  intro _ u hu h
  have hid' := h.2.wipeable hid
  refine Yields.bind (yields_outside hu) fun _ v hv h => ?_
  subst h
  exact Yields.command (k := .wipeChunks id) hv hid' fun _ _ _ => trivial

/-- The source becomes indexed when its chunk rows have their vectors. -/
theorem yields_finishIndexed (hs : IndexSound K c w) {id : String}
    (hvectors : ∀ row ∈ w.engine.chunksOf id, row.VectorIn (w.engine.activeRows c))
    (tokens : Nat) (contentHash : String) (language : Option String) :
    Yields K c (fun _ _ => True) (finishIndexed id tokens contentHash language) w := by
  refine Yields.bind (Yields.command (k := .updateSourceMetadata id tokens contentHash language)
    (P := fun _ t => ∀ row ∈ t.engine.chunksOf id, row.VectorIn (t.engine.activeRows c))
    hs trivial ?_) fun _ t ht h => ?_
  · intro _ s' hrun
    simp only [Cmd.run] at hrun
    split at hrun <;> cases hrun
    exact hvectors
  · refine Yields.bind (Yields.command (k := .updateSourceStatus id .indexed)
      (P := fun _ _ => True) ht (fun _ => h) fun _ _ _ => trivial) fun _ u hu _ => ?_
    exact yields_free hu (all_perform fun _ => trivial)

/-- The index is asked for the vectors of the chunk rows. -/
theorem ChunksIn.vectorIn {id : String} {chunks : List Chunk} {rows : List VectorRow}
    (h : ChunksIn id chunks rows) : ∀ row ∈ chunks.map (Chunk.row id), row.VectorIn rows := by
  intro row hrow
  obtain ⟨chunk, hchunk, rfl⟩ := List.mem_map.mp hrow
  exact h chunk hchunk

/-- Once the rows are stored, they get their vectors before the source is indexed. -/
theorem yields_afterReplaced (hK : Distinguished K) (hc : K c) (hs : IndexSound K c w)
    {source : Source} {chunks : List Chunk} (hstored : Stored source.id chunks w.engine)
    (out : ExtractOutput T) (contentHash : String) :
    Yields K c (fun _ _ => True) (afterReplaced e source c out contentHash chunks) w := by
  have hfinish : ∀ (tokens : Nat) (language : Option String) (t : Recorded), IndexSound K c t →
      Stored source.id chunks t.engine → ChunksIn source.id chunks (t.engine.activeRows c) →
      Yields K c (fun _ _ => True) (finishIndexed source.id tokens contentHash language) t := by
    intro tokens language t ht hstored hin
    refine yields_finishIndexed ht ?_ tokens contentHash language
    rw [hstored.rows]
    exact hin.vectorIn
  refine Yields.bind (Yields.command (k := .updateEnrichmentStatus source.id .none)
    (P := fun _ t => Stored source.id chunks t.engine) hs trivial ?_) fun _ t ht hstored => ?_
  · intro _ s' hrun
    cases hrun
    exact ⟨hstored.unindexed.updateSource source.id (fun _ => rfl) fun _ h => h, hstored.rows⟩
  · show Yields K c _ (if chunks.isEmpty then _ else _) t
    split
    · rename_i hnil
      rw [List.isEmpty_iff.mp hnil] at hfinish hstored
      exact hfinish 0 _ t ht hstored (List.forall_mem_nil _)
    · refine Yields.bind (yields_updateStatus ht source.id .embedding
        fun h => by cases h) fun _ u hu h => ?_
      have hstored : Stored source.id chunks u.engine := ⟨h.1, (h.2 _).trans hstored.rows⟩
      refine Yields.bind (yields_outside hu) fun _ v hv h => ?_
      subst h
      split
      · refine Yields.bind (Yields.frame (indexPdf_onTables c source.id chunks)
          (yields_indexPdf hK hc hv hstored.unindexed chunks)) fun _ x hx h => ?_
        exact hfinish _ _ x hx (h.2.stored hstored) h.1
      · refine Yields.bind (Yields.frame (indexDirect_onTables c source.id chunks)
          (yields_indexDirect hK hc hv source.id chunks)) fun _ x hx h => ?_
        exact hfinish _ _ x hx (h.2.stored hstored) h.1

variable [LinearOrder T]

/-- The source is marked as parsing before its vectors and its rows go. -/
theorem yields_replaceContent (hK : Distinguished K) (hc : K c) (hs : IndexSound K c w)
    (source : Source) (out : ExtractOutput T) (contentHash : String) :
    Yields K c (fun _ _ => True) (replaceContent e source c out contentHash) w := by
  refine Yields.bind (yields_updateStatus hs source.id .parsing
    fun h => by cases h) fun _ t ht h => ?_
  have hid := h.1
  rcases chunkOutput_cases e out with ⟨chunks, hchunks⟩ | ⟨stop, hstop⟩
  · rw [hchunks]
    show Yields K c _ ((dropSource c source.id).bind _) t
    refine Yields.bind (Yields.frame (dropSource_onTables c source.id)
      (yields_dropSource ht (.inl hid))) fun _ u hu h => ?_
    have hid := h.2.unindexed hid
    refine Yields.bind (yields_outside hu) fun _ v hv h => ?_
    subst h
    refine Yields.bind (Yields.command (k := .replaceChunks source.id chunks _)
      (P := fun _ t => Stored source.id chunks t.engine) hv hid ?_) fun _ x hx hstored =>
        yields_afterReplaced hK hc hx hstored out contentHash
    intro _ s' hrun
    simp only [Cmd.run] at hrun
    split at hrun <;> cases hrun
    refine ⟨hid, ?_⟩
    show ((v.engine.withoutChunks source.id).chunks ++ _).filter _ = _
    have hold : (v.engine.withoutChunks source.id).chunks.filter
        (fun row => row.sourceId = source.id) = [] := chunksOf_wiped v.engine source.id
    rw [List.filter_append, hold, List.nil_append]
    apply List.filter_eq_self.mpr
    intro row hrow
    obtain ⟨chunk, _, rfl⟩ := List.mem_map.mp hrow
    exact decide_eq_true rfl
  · rw [hstop]
    exact .fail ht stop

theorem yields_indexExtractOutput (hK : Distinguished K) (hc : K c) (hs : IndexSound K c w)
    (source : Source) (raw : List UInt8) (out : ExtractOutput T) :
    Yields K c (fun _ _ => True) (indexExtractOutput e source raw out) w := by
  have hrest : ∀ (contentHash : String) (t : Recorded), IndexSound K c t →
      Yields K c (fun _ _ => True) (if source.kind.isTextLike ∧ source.status = .indexed ∧
        source.contentHash = some contentHash then return () else do
          let coord ← perform (.resolveNotebookEmbedding : Cmd)
          replaceContent e source coord out contentHash : Job Unit) t := by
    intro contentHash t ht
    split
    · exact .ret ht trivial
    · refine Yields.bind (yields_resolve ht) fun coord u hu h => ?_
      obtain ⟨rfl, rfl⟩ := h
      exact yields_replaceContent hK hc hu source out contentHash
  unfold indexExtractOutput
  split
  · exact .fail hs _
  · refine Yields.bind (yields_free hs ?_) fun _ t ht _ => hrest _ t ht
    exact persistSiblings_all (fun _ => trivial) (fun _ => trivial) fun _ _ => trivial

theorem yields_renderPage (hK : Distinguished K) (hc : K c) (hs : IndexSound K c w)
    {source : Source} (raw : List UInt8)
    (hid : noRenderedPage e → w.engine.Wipeable source.id) :
    Yields K c (fun _ _ => True) (renderPage e source raw) w := by
  unfold renderPage
  cases hrenderer : e.renderer with
  | none =>
    have hno : noRenderedPage e := by rw [noRenderedPage, hrenderer]
    exact yields_setTerminalPending hs (fun h => by cases h) (hid hno)
  | some rendered =>
    cases rendered with
    | error err =>
      have hno : noRenderedPage e := by rw [noRenderedPage, hrenderer]
      exact yields_setTerminalPending hs (fun h => by cases h) (hid hno)
    | ok html =>
      dsimp only
      cases hrendered : renderedOutput e html with
      | none =>
        have hno : noRenderedPage e := by
          simp only [noRenderedPage, hrenderer, hrendered, Option.isNone_none]
        exact yields_setTerminalPending hs (fun h => by cases h) (hid hno)
      | some out => exact yields_indexExtractOutput hK hc hs source raw out

theorem yields_ingestExtracted (hK : Distinguished K) (hc : K c) (hs : IndexSound K c w)
    {source : Source} {raw : List UInt8} (hid : ∀ out, e.extract source.kind raw = .ok out →
      pendingOutput e source raw out → w.engine.Wipeable source.id) :
    Yields K c (fun _ _ => True) (ingestExtracted e source raw) w := by
  unfold ingestExtracted
  cases hextract : e.extract source.kind raw with
  | error err => exact .fail hs _
  | ok out =>
    have hid := hid out hextract
    show Yields K c _ (if source.kind = .pdf ∧ (trim out.extractedText).isEmpty then _ else _) w
    split
    · rename_i hpdf
      refine yields_setTerminalPending hs (fun h => by cases h) (hid ?_)
      simp [pendingOutput, hpdf]
    · split
      · rename_i hurl
        show Yields K c _ ((tryJsRender e source raw out).bind _) w
        unfold tryJsRender
        by_cases hjs : needsJs e source (byteLen out.extractedText) raw.length
        · rw [if_pos hjs]
          refine Yields.bind (Yields.bind (yields_renderPage hK hc hs raw fun hno => hid ?_)
            fun _ t ht _ => Yields.ret (P := fun handled _ => handled = true) ht rfl)
            fun handled t ht h => ?_
          · simp [pendingOutput, hurl, hjs, hno]
          · rw [h]
            exact .ret ht trivial
        · rw [if_neg hjs]
          exact yields_indexExtractOutput hK hc hs source raw out
      · exact yields_indexExtractOutput hK hc hs source raw out

variable [Zero T]

theorem yields_runIngest (hK : Distinguished K) (hc : K c) (hs : IndexSound K c w) {id : String}
    (hid : ∀ x, w.engine.source? id = some x → endsPending e x → w.engine.Wipeable id) :
    Yields K c (fun _ _ => True) (runIngest e id) w := by
  refine Yields.bind (Yields.read (k := .getSource id) hs trivial rfl rfl) fun found t ht h => ?_
  obtain ⟨rfl, rfl⟩ := h
  cases hx : t.engine.source? id with
  | none => exact .fail ht _
  | some source =>
    have hsource : source.id = id := by simpa using List.find?_some hx
    have hid := hid source hx
    show Yields K c _ ((lift (readSource e source.kind)).bind _) t
    refine Yields.bind (yields_lift (P := fun raw u => readSource e source.kind = .ok raw ∧ u = t)
      ht fun raw h => ⟨h, rfl⟩) fun raw u hu h => ?_
    obtain ⟨hraw, rfl⟩ := h
    split
    · exact .ret hu trivial
    · rename_i hchanged
      split
      · refine Yields.bind (yields_lift (P := fun _ _ => True) hu fun _ _ => trivial)
          fun segments v hv _ => ?_
        refine Yields.bind (yields_lift (P := fun _ _ => True) hv fun _ _ => trivial)
          fun out x hx _ => ?_
        exact yields_indexExtractOutput hK hc hx source raw out
      · rename_i haudio
        refine yields_ingestExtracted hK hc hu fun out hextract hpending => ?_
        rw [hsource]
        refine hid ?_
        rw [endsPending, hraw]
        simp only [hextract]
        rw [if_neg fun h => h.elim hchanged haudio]
        exact hpending

theorem yields_ingestSource (hK : Distinguished K) (hc : K c) (hs : IndexSound K c w) {id : String}
    (hid : ∀ x, w.engine.source? id = some x → endsPending e x → w.engine.Wipeable id) :
    Yields K c (fun _ _ => True) (ingestSource e id) w := by
  refine Yields.bind (Yields.command (k := .acquire) (P := fun _ t =>
    ∀ x, t.engine.source? id = some x → endsPending e x → t.engine.Wipeable id) hs trivial ?_) ?_
  · intro _ s' hrun
    cases hrun
    exact hid
  · intro _ t ht hid
    have hrelease : ∀ u, IndexSound K c u →
        Yields K c (fun _ _ => True) (perform (.release : Cmd)) u :=
      fun u hu => yields_free hu (all_perform fun _ => trivial)
    have hrun : Yields K c (fun _ _ => True) ((runIngest e id).handle (onFailure e id)) t := by
      apply Throughout.handle
      refine Throughout.mono (yields_runIngest hK hc ht hid) fun r u hu _ => ?_
      cases r with
      | ok _ => exact fun _ _ => trivial
      | error stop =>
        exact yields_free hu (onFailure_all (fun _ h => by cases h) (fun _ => trivial)
          (fun _ => trivial) (fun _ _ => trivial) stop)
    apply Throughout.ensuring
    refine Throughout.mono hrun fun r u hu _ => ?_
    refine Throughout.mono (hrelease u hu) fun r' v _ _ => ?_
    cases r' <;> exact fun _ _ => trivial

/-- A retried source is marked as parsing before anything of it is touched. -/
theorem yields_retrySource (hK : Distinguished K) (hc : K c) (hs : IndexSound K c w)
    (id : String) : Yields K c (fun _ _ => True) (retrySource e id) w := by
  refine Yields.bind (Yields.read (k := .getSource id) hs trivial rfl rfl) fun found t ht h => ?_
  obtain ⟨rfl, rfl⟩ := h
  cases t.engine.source? id with
  | none => exact .fail ht _
  | some source =>
    show Yields K c _ (if _ then _ else _) t
    split
    · exact .fail ht _
    · split
      · exact .fail ht _
      · refine Yields.bind (yields_updateStatus ht id .parsing fun h => by cases h)
          fun _ u hu h => ?_
        exact yields_ingestSource hK hc hu fun _ _ _ => .inl h.1

theorem yields_ingestOp (hK : Distinguished K) (hc : K c) (hs : IndexSound K c w)
    {op : IngestOp F T} (hop : op.Spares w.engine) : Yields K c (fun _ _ => True) op.job w := by
  unfold IngestOp.job
  split
  · exact yields_retrySource hK hc hs op.sourceId
  · rename_i hretry
    exact yields_ingestSource hK hc hs (hop (by simpa using hretry))

end Jobs

section Startup

/-- Only tables that no row names are dropped. -/
theorem yields_gcUnregistered (hs : IndexSound K c w) (notebooks : Nat) :
    Yields K c (fun _ _ => True) (gcUnregisteredVecTables notebooks) w := by
  refine Yields.bind (P := fun _ _ => True) ?_ fun physical t ht _ => ?_
  · refine Yields.bind (Yields.read (k := .tableNames) hs trivial rfl rfl) fun names t ht _ => ?_
    exact .ret ht trivial
  · split
    · exact .ret ht trivial
    · refine Yields.bind (Yields.read (k := .registeredTableNames) ht trivial rfl rfl)
        fun registered u hu h => ?_
      obtain ⟨rfl, rfl⟩ := h
      split
      · exact .ret hu trivial
      · refine (Yields.forEach (I := fun _ v => v.engine.registry = u.engine.registry) ?_ hu
          rfl).mono fun _ _ _ _ => trivial
        intro name rest v hv hreg
        split
        · exact .ret hv hreg
        · rename_i hname
          have hunused : ∀ row ∈ v.engine.registry.rows, row.status = .active →
              row.table ∉ [name] := by
            intro row hrow _ hmem
            rw [hreg] at hrow
            exact hname (List.mem_map.mpr ⟨row, hrow, List.mem_singleton.mp hmem⟩)
          apply Throughout.handle
          refine Throughout.mono (throughout_dropTables hv hunused) fun r x hx h => ?_
          cases r with
          | ok _ => exact fun _ _ => h.1.trans hreg
          | error stop => exact Yields.ret hx (h.1.trans hreg)

theorem yields_gc (hs : IndexSound K c w) (notebooks : Nat) :
    Yields K c (fun _ _ => True) (gcOrphanEmbeddingTables notebooks) w := by
  refine Yields.bind (yields_gcUnregistered hs notebooks) fun _ t ht _ => ?_
  refine Yields.bind (Yields.read (k := .unfinishedTableNames) ht trivial rfl rfl)
    fun names u hu h => ?_
  obtain ⟨rfl, rfl⟩ := h
  split
  · exact .ret hu trivial
  · refine Yields.bind (yields_dropTables hu ?_) fun _ v hv _ =>
      yields_free hv (all_perform fun _ => trivial)
    intro row hrow hactive hmem
    obtain ⟨row', hrow', hname⟩ := List.mem_map.mp hmem
    obtain ⟨hrow', hunfinished⟩ := List.mem_filter.mp hrow'
    cases hu.kept.row_eq hrow' hrow hname
    exact of_decide_eq_true hunfinished hactive

theorem yields_startup (hs : IndexSound K c w) (notebooks : Nat) :
    Yields K c (fun _ _ => True) (startup notebooks) w := by
  refine Yields.bind (yields_free hs (all_perform fun _ => trivial)) fun _ t ht _ => ?_
  refine Yields.bind (yields_free ht (all_perform fun _ => trivial)) fun _ u hu _ => ?_
  refine Yields.bind (yields_free hu (all_perform fun _ => trivial)) fun _ v hv _ => ?_
  exact yields_ignoring (yields_gc hv notebooks)

end Startup

section Runs

variable {F T : Type} [LinearOrder T] [Zero T] {start : EngineState}

theorem indexSound_start (hfresh : start.registry.rows = [])
    (hsources : ∀ x ∈ start.sources, x.status ≠ .indexed) :
    IndexSound (· = start.coordinate) start.coordinate ⟨start, fun _ => []⟩ where
  coordinate := rfl
  kept := by
    refine ⟨?_, ?_, ?_⟩ <;> rw [hfresh]
    · exact List.forall_mem_nil _
    · exact List.forall_mem_nil _
    · exact List.nodup_nil
  first := by
    rw [hfresh]
    exact List.forall_mem_nil _
  rows x hx hs := absurd hs (hsources x hx)
  vectors x hx hs := absurd hs (hsources x hx)

end Runs

section Examples

/-- The state after ingests, some of which the process goes down in after a number of commands. -/
def afterCrashes (Allowed : IngestOp Unit Nat → EngineState → Prop)
    [∀ op s, Decidable (Allowed op s)] :
    List (IngestOp Unit Nat × Option Nat) → Recorded → Option Recorded
  | [], w => some w
  | (op, crash) :: ops, w =>
    if Allowed op w.engine then
      match crash with
      | none => (runWith Recorded.react none op.job w).bind fun out =>
        afterCrashes Allowed ops out.2
      | some n => (stopAfter Recorded.react none n op.job w).bind fun t =>
        (runWith Recorded.react none (startup 1) t).bind fun out =>
          if out.1.isOk then afterCrashes Allowed ops out.2 else none
    else none

theorem CrashRun.after {Allowed : IngestOp Unit Nat → EngineState → Prop}
    [∀ op s, Decidable (Allowed op s)] {start : EngineState} {w w' : Recorded}
    {ops : List (IngestOp Unit Nat × Option Nat)} (h : IngestRun Allowed start true w)
    (hrun : afterCrashes Allowed ops w = some w') : IngestRun Allowed start true w' := by
  induction ops generalizing w with
  | nil =>
    cases hrun
    exact h
  | cons next ops ih =>
    obtain ⟨op, crash⟩ := next
    unfold afterCrashes at hrun
    split at hrun
    · rename_i hop
      cases crash with
      | none =>
        obtain ⟨out, hout, hrun⟩ := Option.bind_eq_some_iff.mp hrun
        exact ih (h.ran ⟨op, hop, rfl⟩ (exec_of_runWith hout)) hrun
      | some n =>
        obtain ⟨t, ht, hrun⟩ := Option.bind_eq_some_iff.mp hrun
        obtain ⟨⟨r, u⟩, hout, hrun⟩ := Option.bind_eq_some_iff.mp hrun
        have hdown := h.crashed ⟨op, hop, rfl⟩ (stopped_of_stopAfter ht)
        cases r with
        | ok _ => exact ih (hdown.restarted ⟨1, rfl⟩ (exec_of_runWith hout)) hrun
        | error _ => cases hrun
    · cases hrun

def queuedPdf : EngineState :=
  ⟨"nb".toList, none, none,
    [⟨"a", .pdf, .queued, false, none, none, .none, false, none, none⟩], [], [],
    ⟨[], List.nodup_nil⟩, ∅, ∅, ∅, false⟩

def pdfIngest (text : Str) (retry : Bool) : IngestOp Unit Nat :=
  ⟨paragraphDocument text countedTokens, "a", retry⟩

end Examples

end LensLM
