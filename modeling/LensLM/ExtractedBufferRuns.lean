import LensLM.ChunkSlices
import LensLM.ExtractedBuffer

/-!
# The buffer beside a source in every history

Between the write of the file and the transaction that replaces the rows a run is in a window. A
careful run leaves it with the rows replaced, or ends in it only where the old rows fit the new
text as well.
-/

namespace LensLM

open ByteText Outcome Programs Program

set_option autoImplicit false

section Window

variable {F T : Type} [LinearOrder T] {e : Surroundings F T} {id : String} {s s' : EngineState}
variable {source : Source} {out : ExtractOutput T}

/-- The file beside the source has been replaced and its rows have not. -/
structure Window (e : Surroundings F T) (id : String) (source : Source) (out : ExtractOutput T)
    (s : EngineState) : Prop where
  source : (s.source? id).map Source.nature = some source.nature
  file : s.extracted.lookup id = some out.extractedText
  ready : s.RowsFit id out.extractedText ∨ (chunkOutput e out).Returned

theorem Window.keep (hs : Window e id source out s) (h : KeepsBuffer id s s') :
    Window e id source out s' := by
  refine ⟨h.source.trans hs.source, h.file.trans hs.file, ?_⟩
  exact hs.ready.imp_left fun hfit row hrow => hfit row (h.rows hrow)

theorem Window.derived (hs : Window e id source out s) (hkind : source.kind.isTextLike = false)
    (x : Source) (hx : s.source? id = some x) : x.kind.isTextLike = false := by
  have hsource := hs.source
  rw [hx, Option.map_some] at hsource
  have hx : x.kind = source.kind := congrArg Prod.fst (Option.some.inj hsource)
  rw [hx]
  exact hkind

theorem Window.kept (hs : Window e id source out s) (hkind : source.kind.isTextLike = false)
    (hfits : s.BufferMatches id) : BufferKept id s := ⟨hs.derived hkind, hfits⟩

theorem Window.matches (hs : Window e id source out s) (hfit : s.RowsFit id out.extractedText) :
    s.BufferMatches id := by
  intro row hrow
  rw [hs.file]
  exact hfit row hrow

end Window

section Chunked

variable {F T : Type} [LinearOrder T] {e : Surroundings F T} {out : ExtractOutput T}

theorem attachAnchors_values (toJson : SourceAnchor T → Option Str) {chunks : List Chunk}
    (blocks : List Block) (anchors : List (SourceAnchor T)) {src : Str}
    (h : ∀ c ∈ chunks, c.Verbatim src) :
    Meets (attachAnchorsToChunks toJson chunks blocks anchors) (fun cs => ∀ c ∈ cs, c.Verbatim src)
      fun _ => True := by
  unfold attachAnchorsToChunks
  split
  · exact h
  · split
    · trivial
    · intro c hc
      obtain ⟨d, hd, rfl⟩ := List.mem_map.mp hc
      have hcore := h d hd
      unfold anchored
      split
      · exact hcore
      · exact hcore

/-- The chunks of blocks that end within the buffer are slices of it. -/
theorem chunkOutput_verbatim (hends : EndWithin out.extractedText out.blocks) {chunks : List Chunk}
    (h : chunkOutput e out = .ret chunks) : ∀ c ∈ chunks, c.Verbatim out.extractedText := by
  unfold chunkOutput at h
  cases htok : e.tokenizer with
  | error err =>
    rw [htok] at h
    cases h
  | ok tokenizer =>
    rw [htok] at h
    replace h : (liftFault (chunkBlocks out.extractedText out.blocks tokenizer e.nowV7)).bind
      (fun chunks => lift (attachAnchorsToChunks e.anchorJson chunks out.blocks out.anchors)) =
        .ret chunks := h
    have hslices := chunkBlocks_values tokenizer hends e.nowV7
    cases hchunks : chunkBlocks out.extractedText out.blocks tokenizer e.nowV7 with
    | error fault =>
      rw [hchunks] at h
      cases fault <;> cases h
    | ok cs =>
      rw [hchunks] at h hslices
      replace h : lift (attachAnchorsToChunks e.anchorJson cs out.blocks out.anchors) =
        .ret chunks := h
      have hanchored := attachAnchors_values e.anchorJson out.blocks out.anchors hslices
      cases hattach : attachAnchorsToChunks e.anchorJson cs out.blocks out.anchors with
      | error err =>
        rw [hattach] at h
        cases h
      | ok cs' =>
        rw [hattach] at h hanchored
        cases h
        exact hanchored

variable {id : String}

/-- An ingest of another source leaves the buffer alone. -/
theorem indexExtractOutput_leaves {source : Source} (hid : source.id ≠ id) (raw : List UInt8) :
    (indexExtractOutput e source raw out).All (Cmd.Leaves id) := by
  have hsiblings : (persistSiblings source out).All (Cmd.Leaves id) :=
    persistSiblings_all trivial hid fun _ => trivial
  have hchunked : (chunkOutput e out).All (Cmd.Leaves id) :=
    All.bind (lift_all _) fun _ => All.bind (liftFault_all _) fun _ => lift_all _
  have hreplace : ∀ coord contentHash,
      (replaceContent e source coord out contentHash).All (Cmd.Leaves id) := by
    intro coord contentHash
    refine All.bind (all_perform trivial) fun _ => ?_
    refine All.bind hchunked fun chunks => ?_
    refine All.bind (dropSource_leaves coord source.id) fun _ => ?_
    refine All.bind (all_perform trivial) fun _ => ?_
    exact All.bind (all_perform hid) fun _ => afterReplaced_leaves source coord out _ chunks
  have hrest : ∀ contentHash : String, (if source.kind.isTextLike ∧ source.status = .indexed ∧
      source.contentHash = some contentHash then return () else do
        let coord ← perform (.resolveNotebookEmbedding : Cmd)
        replaceContent e source coord out contentHash : Job Unit).All (Cmd.Leaves id) := by
    intro contentHash
    split
    · trivial
    · exact All.bind (all_perform trivial) fun coord => hreplace coord contentHash
  unfold indexExtractOutput
  split
  · exact lift_all _
  · exact All.bind hsiblings fun _ => hrest _

end Chunked

section Leads

variable {F T : Type} [LinearOrder T] [Zero T] {e : Surroundings F T} {id : String}
variable {s s' : EngineState} {source : Source} {out : ExtractOutput T}

/-- Every careful execution of a job ends in `Q`. -/
abbrev Leads {α : Type} (e : Surroundings F T) (id : String)
    (Q : Except Stop α → EngineState → Prop) : Job α → EngineState → Prop :=
  Throughout (carefully e id) (fun _ => True) Q

theorem carefully_cases {c : Cmd} {fault : Option LensError} {r : Except Stop c.Reply}
    (h : carefully e id c fault s = some (r, s')) :
    Careful e id c fault s ∧ c.react fault s = some (r, s') := by
  unfold carefully at h
  split at h
  · exact ⟨‹_›, h⟩
  · cases h

/-- A job that leaves the buffer alone may fail anywhere. -/
theorem leads_leaves {α : Type} {p : Job α} (hp : p.All (Cmd.Leaves id)) (hs : BufferKept id s) :
    Leads e id (fun _ => BufferKept id) p s := by
  refine ((Throughout.quiet (J := BufferKept id) ?_ hp hs).weaken fun _ _ => trivial).mono
    fun _ _ _ h => h.1
  intro c x s r s' hc hs hr
  exact hs.keep (keepsBuffer_react hc (carefully_cases hr).2)

/-- What a run may end a part of the window with. -/
def WindowEnd (e : Surroundings F T) (id : String) (source : Source) (out : ExtractOutput T)
    {α : Type} (r : Except Stop α) (s : EngineState) : Prop :=
  match r with
  | .ok _ => Window e id source out s
  | .error _ => BufferKept id s

theorem leads_plain (hs : BufferKept id s) {c : Cmd} (hc : c.Leaves id) :
    Leads e id (fun _ => BufferKept id) (perform c) s := leads_leaves (all_perform hc) hs

/-- A command that its state does not refuse. -/
theorem leads_command {c : Cmd} {a : c.Reply} {Q : Except Stop c.Reply → EngineState → Prop}
    (hrun : c.run s = .ok (a, s')) (hok : Careful e id c none s → Q (.ok a) s')
    (herr : s.BufferMatches id → ∀ err, Q (.error err) s) : Leads e id Q (perform c) s := by
  refine Throughout.perform (c := c) trivial fun x r t hr => ?_
  obtain ⟨hcareful, hr⟩ := carefully_cases hr
  refine ⟨trivial, ?_⟩
  unfold Cmd.react at hr
  split at hr
  · cases hr
  · cases x with
    | none =>
      simp only [hrun] at hr
      cases hr
      exact hok hcareful
    | some fault =>
      simp only at hr
      split at hr
      · cases hr
        exact herr (hcareful.1 rfl) _
      · cases hr

/-- A command before the rest of a job. -/
theorem leads_next {c : Cmd} {a : c.Reply} {β : Type} {f : c.Reply → Job β}
    {Q : Except Stop β → EngineState → Prop} (hrun : c.run s = .ok (a, s'))
    (hok : Leads e id Q (f a) s') (herr : s.BufferMatches id → ∀ err, Q (.error err) s) :
    Leads e id Q ((perform c).bind f) s :=
  Throughout.bind (leads_command hrun (fun _ => hok) herr)

/-- A command of the window that leaves the buffer alone. -/
theorem leads_passed {c : Cmd} {a : c.Reply} (hs : Window e id source out s)
    (hkind : source.kind.isTextLike = false) (hc : c.Leaves id) (hrun : c.run s = .ok (a, s')) :
    Leads e id (WindowEnd e id source out) (perform c) s :=
  leads_command hrun (fun _ => hs.keep (keepsBuffer_run hc hrun)) fun h _ => hs.kept hkind h

theorem leads_dropSource (hs : Window e id source out s) (hkind : source.kind.isTextLike = false)
    (c : Coordinate) (sourceId : String) :
    Leads e id (WindowEnd e id source out) (dropSource c sourceId) s := by
  have hfail := fun (h : s.BufferMatches id) (_ : Stop) => hs.kept hkind h
  have hopen : ∀ name, Leads e id (fun r t => match r with
      | .ok found => t = s ∧ ∀ table, found = some table → table ∈ s.tables
      | .error _ => BufferKept id t) (openTableByName name) s := by
    intro name
    refine leads_next (a := s.tables.keys) rfl ?_ hfail
    split
    · rename_i hmem
      have hname : name ∈ s.tables := AList.mem_keys.mpr hmem
      have hrun : (Cmd.openTable name).run s = .ok ((), s) := by simp only [Cmd.run, if_pos hname]
      refine leads_next hrun ⟨trivial, rfl, ?_⟩ hfail
      intro table htable
      cases htable
      exact hname
    · exact ⟨trivial, rfl, fun table htable => by cases htable⟩
  have hdelete : ∀ table, table ∈ s.tables →
      Leads e id (WindowEnd e id source out) (perform (.deleteRows table sourceId : Cmd)) s := by
    intro table htable
    obtain ⟨rows, hrows⟩ := Option.isSome_iff_exists.mp (AList.lookup_isSome.mpr htable)
    have hrun : (Cmd.deleteRows table sourceId).run s =
        .ok ((), s.withRows table (rows.filter fun r => r.sourceId ≠ sourceId)) := by
      simp only [Cmd.run, hrows]
    exact leads_passed hs hkind trivial hrun
  apply Throughout.bind
  refine leads_next (a := s.registry.activeName c) rfl ?_ hfail
  cases s.registry.activeName c with
  | none => exact ⟨trivial, trivial, hs⟩
  | some name =>
    apply (hopen name).mono
    intro r t _ h
    cases r with
    | error err => exact h
    | ok found =>
      obtain ⟨rfl, hfound⟩ := h
      cases found with
      | none => exact ⟨trivial, hs⟩
      | some table => exact hdelete table (hfound table rfl)

/-- What a source is indexed as depends on its kind and on whether it is rendered. -/
theorem indexedOutput_congr {x y : Source} (h : x.nature = y.nature) :
    indexedOutput e x = indexedOutput e y := by
  have hkind : x.kind = y.kind := congrArg Prod.fst h
  have hforce : x.forceJsRender = y.forceJsRender := congrArg Prod.snd h
  unfold indexedOutput extractedOutput needsJs
  rw [hkind, hforce]

theorem Window.runOutput (hs : Window e id source out s)
    (hout : indexedOutput e source = some out) : runOutput e id s = some out := by
  obtain ⟨x, hx, hn⟩ := Option.map_eq_some_iff.mp hs.source
  rw [LensLM.runOutput, hx, Option.bind_some, indexedOutput_congr hn]
  exact hout

/-- The rows are replaced by the chunks of the text that is on disk. -/
theorem leads_replaceChunks (hs : Window e id source out s) (hid : source.id = id)
    (hkind : source.kind.isTextLike = false) (hout : indexedOutput e source = some out)
    {chunks : List Chunk} (hchunks : chunkOutput e out = .ret chunks) (sections : List Section) :
    Leads e id (fun _ => BufferKept id)
      (perform (.replaceChunks source.id chunks sections : Cmd)) s := by
  have hrun : (Cmd.replaceChunks source.id chunks sections).run s = .ok ((), { s with
      chunks := (s.withoutChunks id).chunks ++ chunks.map (Chunk.row id)
      sections := (s.withoutChunks id).sections ++ sections.map fun x => (id, x) }) := by
    have hfound : (s.source? id).isSome = true := by
      rw [← Option.isSome_map, hs.source]
      rfl
    simp only [Cmd.run, hid, hfound, Bool.true_or, if_true]
  refine leads_command hrun (fun hcareful => ?_) fun h _ => hs.kept hkind h
  have hends := hcareful.2.2 rfl (by simp [Cmd.storesFor, hid]) out (hs.runOutput hout)
  refine ⟨hs.derived hkind, fun row hrow => ?_⟩
  show (s.extracted.lookup id).bind _ = _
  rw [hs.file]
  obtain ⟨hrow, hrowId⟩ := List.mem_filter.mp hrow
  rcases List.mem_append.mp hrow with hold | hnew
  · exact absurd (of_decide_eq_true hrowId) (of_decide_eq_true (List.mem_filter.mp hold).2)
  · obtain ⟨c, hc, rfl⟩ := List.mem_map.mp hnew
    exact chunkOutput_verbatim hends hchunks c hc

theorem leads_replaceContent (hs : Window e id source out s) (hid : source.id = id)
    (hkind : source.kind.isTextLike = false) (hout : indexedOutput e source = some out)
    (coord : Coordinate) (contentHash : String) :
    Leads e id (fun _ => BufferKept id) (replaceContent e source coord out contentHash) s := by
  obtain ⟨x, hx, hn⟩ := Option.map_eq_some_iff.mp hs.source
  have hstatus : (Cmd.updateSourceStatus source.id .parsing).run s =
      .ok ((), s.updateSource source.id fun x => { x with status := .parsing }) := by
    simp only [Cmd.run, hid, hx, Option.isSome_some, if_true]
  apply Throughout.bind
  apply (leads_passed (c := .updateSourceStatus source.id .parsing) hs hkind trivial hstatus).mono
  intro r t _ h
  cases r with
  | error err => exact h
  | ok _ =>
    have ht : Window e id source out t := h
    rcases chunkOutput_cases e out with ⟨chunks, hchunks⟩ | ⟨stop, hstop⟩
    · rw [hchunks]
      show Leads e id _ ((dropSource coord source.id).bind _) t
      apply Throughout.bind
      apply (leads_dropSource ht hkind coord source.id).mono
      intro r u _ h
      cases r with
      | error err => exact h
      | ok _ =>
        have hu : Window e id source out u := h
        refine leads_next (c := .outside) rfl ?_ fun h _ => hu.kept hkind h
        apply Throughout.bind
        apply (leads_replaceChunks hu hid hkind hout hchunks (buildSections out.blocks)).mono
        intro r v _ hv
        cases r with
        | error err => exact hv
        | ok _ => exact leads_leaves (afterReplaced_leaves source coord out contentHash chunks) hv
    · rw [hstop]
      refine ⟨trivial, ht.kept hkind (ht.matches ?_)⟩
      rcases ht.ready with hfit | ⟨chunks, hchunks⟩
      · exact hfit
      · rw [hstop] at hchunks
        cases hchunks

/-- From the window on the rows are replaced. -/
theorem leads_replaced (hs : Window e id source out s) (hid : source.id = id)
    (hkind : source.kind.isTextLike = false) (hout : indexedOutput e source = some out)
    (contentHash : String) : Leads e id (fun _ => BufferKept id)
      (if source.kind.isTextLike ∧ source.status = .indexed ∧
        source.contentHash = some contentHash then return ()
      else do
        let coord ← perform (.resolveNotebookEmbedding : Cmd)
        replaceContent e source coord out contentHash : Job Unit) s := by
  rw [if_neg (by simp [hkind])]
  exact leads_next rfl (leads_replaceContent hs hid hkind hout s.coordinate contentHash)
    fun h _ => hs.kept hkind h

/-- The write of the file opens the window. -/
theorem leads_persistExtracted (hs : BufferKept id s) (hx : s.source? id = some source)
    (hout : indexedOutput e source = some out) :
    Leads e id (WindowEnd e id source out)
      (perform (.persistExtracted id out.extractedText : Cmd)) s := by
  refine leads_command rfl (fun hcareful => ?_) fun _ _ => hs
  have hwrites := hcareful.2.1 rfl out.extractedText (by simp [Cmd.textFor])
  refine ⟨?_, AList.lookup_insert _, hwrites.imp_right ?_⟩
  · show (s.source? id).map Source.nature = _
    rw [hx]
    rfl
  · intro h
    obtain ⟨out', hout', hret⟩ := h
    rw [runOutput, hx, Option.bind_some, hout] at hout'
    cases hout'
    exact hret

theorem leads_indexExtractOutput (hs : BufferKept id s) (hx : s.source? source.id = some source)
    (hout : indexedOutput e source = some out) (raw : List UInt8) :
    Leads e id (fun _ => BufferKept id) (indexExtractOutput e source raw out) s := by
  by_cases hid : source.id = id
  · subst hid
    have hkind := hs.derived source hx
    have hsiblings : Leads e source.id (WindowEnd e source.id source out)
        (persistSiblings source out) s := by
      unfold persistSiblings
      dsimp only
      rw [if_neg (by simp [hkind])]
      refine leads_next (c := .outside) rfl ?_ fun _ _ => hs
      apply Throughout.bind
      apply (leads_persistExtracted hs hx hout).mono
      intro r t _ h
      cases r with
      | error err => exact h
      | ok _ =>
        -- Once the file is written, the run is in the window.
        have ht : Window e source.id source out t := h
        cases out.tableMarkdown with
        | none => exact ⟨trivial, ht⟩
        | some md =>
          exact leads_passed (c := .persistTableMarkdown source.id md) ht hkind trivial rfl
    unfold indexExtractOutput
    split
    · exact ⟨trivial, hs⟩
    · apply Throughout.bind
      apply hsiblings.mono
      intro r t _ h
      cases r with
      | error err => exact h
      | ok _ => exact leads_replaced h rfl hkind hout _
  · exact leads_leaves (indexExtractOutput_leaves hid raw) hs

theorem leads_setTerminalPending (hs : BufferKept id s) (sourceId : String)
    (status : SourceStatus) :
    Leads e id (fun _ => BufferKept id) (setTerminalPending sourceId status) s :=
  leads_leaves (setTerminalPending_leaves sourceId status) hs

/-- The rendered page is indexed, or the source gets a terminal status. -/
theorem leads_renderPage (hs : BufferKept id s) (hx : s.source? source.id = some source)
    {raw : List UInt8} (hout : ∀ html out, e.renderer = some (.ok html) →
      renderedOutput e html = some out → indexedOutput e source = some out) :
    Leads e id (fun _ => BufferKept id) (renderPage e source raw) s := by
  unfold renderPage
  cases hrenderer : e.renderer with
  | none => exact leads_setTerminalPending hs _ _
  | some rendered =>
    cases rendered with
    | error err => exact leads_setTerminalPending hs _ _
    | ok html =>
      dsimp only
      cases hrendered : renderedOutput e html with
      | none => exact leads_setTerminalPending hs _ _
      | some out => exact leads_indexExtractOutput hs hx (hout html out hrenderer hrendered) raw

theorem leads_ingestExtracted (hs : BufferKept id s) (hx : s.source? source.id = some source)
    {raw : List UInt8} (hout : indexedOutput e source = extractedOutput e source raw) :
    Leads e id (fun _ => BufferKept id) (ingestExtracted e source raw) s := by
  unfold ingestExtracted
  cases hextract : e.extract source.kind raw with
  | error err => exact ⟨trivial, hs⟩
  | ok out =>
    rw [extractedOutput, hextract] at hout
    dsimp only at hout
    show Leads e id _ (if source.kind = .pdf ∧ (trim out.extractedText).isEmpty then _ else _) s
    split
    · exact leads_setTerminalPending hs _ _
    · rename_i hpdf
      rw [if_neg hpdf] at hout
      split
      · rename_i hurl
        show Leads e id _ ((tryJsRender e source raw out).bind _) s
        unfold tryJsRender
        by_cases hjs : needsJs e source (byteLen out.extractedText) raw.length
        · rw [if_pos ⟨hurl, hjs⟩] at hout
          rw [if_pos hjs]
          apply Throughout.bind
          apply Throughout.bind
          apply (leads_renderPage hs hx ?_).mono
          · intro r t _ ht
            cases r with
            | error err => exact ht
            | ok _ => exact ⟨trivial, trivial, ht⟩
          · intro html out' hrenderer hrendered
            rw [hout, hrenderer]
            exact hrendered
        · rw [if_neg fun h => hjs h.2] at hout
          rw [if_neg hjs]
          exact leads_indexExtractOutput hs hx hout raw
      · rename_i hurl
        rw [if_neg fun h => hurl h.1] at hout
        exact leads_indexExtractOutput hs hx hout raw

theorem leads_runIngest (hs : BufferKept id s) (sourceId : String) :
    Leads e id (fun _ => BufferKept id) (runIngest e sourceId) s := by
  refine leads_next (a := s.source? sourceId) rfl ?_ fun _ _ => hs
  cases hx : s.source? sourceId with
  | none => exact ⟨trivial, hs⟩
  | some source =>
    have hid : source.id = sourceId := by simpa using List.find?_some hx
    rw [← hid] at hx
    show Leads e id _ ((lift (readSource e source.kind)).bind _) s
    cases hraw : readSource e source.kind with
    | error err => exact ⟨trivial, hs⟩
    | ok raw =>
      show Leads e id _ (if _ then _ else _) s
      split
      · exact ⟨trivial, hs⟩
      · split
        · rename_i haudio
          show Leads e id _ ((lift e.segments).bind _) s
          cases hsegments : e.segments with
          | error err => exact ⟨trivial, hs⟩
          | ok segments =>
            show Leads e id _ ((lift (transcriptExtractOutput e.floats segments)).bind _) s
            cases htranscript : transcriptExtractOutput e.floats segments with
            | error err => exact ⟨trivial, hs⟩
            | ok out =>
              refine leads_indexExtractOutput hs hx ?_ raw
              simp only [indexedOutput, hraw, if_pos haudio, hsegments, htranscript]
        · rename_i haudio
          refine leads_ingestExtracted hs hx ?_
          simp only [indexedOutput, hraw, if_neg haudio]

theorem leads_ingestSource (hs : BufferKept id s) (sourceId : String) :
    Leads e id (fun _ => BufferKept id) (ingestSource e sourceId) s := by
  apply Throughout.bind
  apply (leads_plain (c := .acquire) hs trivial).mono
  intro r t _ ht
  cases r with
  | error err => exact ht
  | ok _ =>
    apply Throughout.ensuring
    apply Throughout.mono (Q := fun _ => BufferKept id)
    · apply Throughout.handle
      apply (leads_runIngest ht sourceId).mono
      intro r u _ hu
      cases r with
      | ok _ => exact hu
      | error stop =>
        exact leads_leaves (onFailure_all trivial trivial trivial (fun _ => trivial) stop) hu
    · intro r u _ hu
      apply (leads_plain (c := .release) hu trivial).mono
      intro r' v _ hv
      cases r' <;> exact hv

theorem leads_retrySource (hs : BufferKept id s) (sourceId : String) :
    Leads e id (fun _ => BufferKept id) (retrySource e sourceId) s := by
  refine leads_next (a := s.source? sourceId) rfl ?_ fun _ _ => hs
  cases s.source? sourceId with
  | none => exact ⟨trivial, hs⟩
  | some source =>
    show Leads e id _ (if _ then _ else _) s
    split
    · exact ⟨trivial, hs⟩
    · split
      · exact ⟨trivial, hs⟩
      · apply Throughout.bind
        apply (leads_plain (c := .updateSourceStatus sourceId .parsing) hs trivial).mono
        intro r t _ ht
        cases r with
        | error err => exact ht
        | ok _ => exact leads_ingestSource ht sourceId

end Leads

section Examples

/-- A document of one paragraph, with a tokenizer that may be out of reach. -/
def paragraphDocument (text : Str) (tokenizer : Except LensError Tokenizer) :
    Surroundings Unit Nat where
  maxSourceBytes := 100
  fetchUrl := .error (.io "offline")
  fileSize := .ok text.length
  readFile := .ok (utf8 text)
  sha256Hex raw := toString raw
  segments := .error (.model "no speech engine")
  floats := ⟨fun _ => some 0, fun _ => ""⟩
  extract _ _ := .ok ⟨text, [⟨.paragraph, [], text, 0, byteLen text⟩], [], none⟩
  belowTextRatio _ _ := false
  renderer := none
  extractHtml _ := .error (.parse "no page")
  detectLanguage _ := none
  tokenizer := tokenizer
  nowV7 level ordinal := toString (level, ordinal)
  anchorJson _ := none
  now := ""

def queuedDocument : EngineState :=
  ⟨"nb".toList, none, none,
    [⟨"a", .docx, .queued, false, none, none, .none, false, none, none⟩], [], [],
    ⟨[], List.nodup_nil⟩, ∅, ∅, ∅, false⟩

def paragraphIngest (text : Str) (tokenizer : Except LensError Tokenizer) : IngestOp Unit Nat :=
  ⟨paragraphDocument text tokenizer, "a", false⟩

/-- The state after ingests that no store failure interrupts. -/
def afterIngests (react : Surroundings Unit Nat → (c : Cmd) → Option LensError → EngineState →
    Option (Except Stop c.Reply × EngineState)) :
    List (IngestOp Unit Nat) → EngineState → Option EngineState
  | [], s => some s
  | op :: ops, s => (runWith (react op.surroundings) none op.job s).bind fun out =>
    afterIngests react ops out.2

theorem IngestHistory.after {react : Surroundings Unit Nat → (c : Cmd) → Option LensError →
    EngineState → Option (Except Stop c.Reply × EngineState)} {start s s' : EngineState}
    {ops : List (IngestOp Unit Nat)} (h : IngestHistory react start s)
    (hrun : afterIngests react ops s = some s') : IngestHistory react start s' := by
  induction ops generalizing s with
  | nil =>
    cases hrun
    exact h
  | cons op ops ih =>
    obtain ⟨out, hout, hrun⟩ := Option.bind_eq_some_iff.mp hrun
    exact ih (h.run op (exec_of_runWith hout)) hrun

def countedTokens : Except LensError Tokenizer := .ok (.ofCount List.length)

end Examples

end LensLM
