import LensLM.Engine
import LensLM.Settings
import LensLM.Lib.PathText

/-!
# The sources of a notebook and their files

What the add operations leave: a source of a file or of a text has a managed copy under the data
directory, one of a path or of a URL keeps what the user gave. Sources go to the trash and come
back, and a relocation rewrites the locators under the old data directory.
-/

namespace LensLM

open ByteText PathText

set_option autoImplicit false

/-- Columns of a source that only the library reads. -/
structure SourceColumns where
  locator : Str
  rawContentHash : Option String
deriving DecidableEq

structure DataDir where
  path : Path
  normal : ∀ n ∈ path, Normal n

/-- The engine's stores with the row of the notebook (`none` when it is gone, else whether it is in
the trash), the columns above, and the files. -/
structure LibraryState where
  engine : EngineState
  notebookTrashed : Option Bool
  columns : AList fun _ : String => SourceColumns
  files : AList fun _ : Path => Str
  dataDir : DataDir
  cwd : Path

namespace LibraryState

def source? (s : LibraryState) (id : String) : Option Source := s.engine.source? id

def locator (s : LibraryState) (id : String) : Str :=
  ((s.columns.lookup id).map SourceColumns.locator).getD []

def rawContentHash (s : LibraryState) (id : String) : Option String :=
  (s.columns.lookup id).bind SourceColumns.rawContentHash

/-- The live source with a hash, whose content counts as a duplicate. -/
def duplicate? (s : LibraryState) (rawContentHash : String) : Option Source :=
  s.engine.sources.find? fun x => !x.trashed && s.rawContentHash x.id = some rawContentHash

def updateSource (s : LibraryState) (id : String) (f : Source → Source) : LibraryState :=
  { s with engine := s.engine.updateSource id f }

end LibraryState

section Add

/-- The digest of a content, the normal form of a URL and the limit of a pasted text. -/
structure LibraryHost where
  sha256 : Str → String
  normalizeUrl : Str → Except LensError Str
  maxSourceBytes : Nat

structure AddSourceOutcome where
  source : Source
  wasExisting : Bool
deriving DecidableEq

def newSource (id : String) (kind : SourceKind) (status : SourceStatus) (forceJsRender : Bool) :
    Source :=
  ⟨id, kind, status, false, none, none, .none, forceJsRender, none, none⟩

/-- The row with its columns; the notebook is a foreign key. -/
def insertSource (s : LibraryState) (source : Source) (columns : SourceColumns) :
    Except LensError AddSourceOutcome × LibraryState :=
  if s.notebookTrashed.isNone then (.error (.validation "referenced record does not exist"), s)
  else
    (.ok ⟨source, false⟩,
      { s with
        engine := { s.engine with sources := s.engine.sources ++ [source] }
        columns := s.columns.insert source.id columns })

variable (host : LibraryHost) (id : String)

/-- The path is kept as it is, and nothing is read. -/
def addSource (locator : Str) (s : LibraryState) :
    Except LensError AddSourceOutcome × LibraryState :=
  let hash := host.sha256 locator
  match s.duplicate? hash with
  | some dup => (.ok ⟨dup, true⟩, s)
  | none => insertSource s (newSource id .file .pending false) ⟨locator, some hash⟩

/-- `{data_dir}/sources/{id}.{ext}` -/
def managedPath (dataDir : DataDir) (id : String) (ext : Str) : Path :=
  dataDir.path ++ ["sources".toList, id.toList ++ '.' :: ext]

/-- Writes the managed file, then inserts its row. -/
def addManaged (kind : SourceKind) (ext hash : Str) (content : Str) (s : LibraryState) :
    Except LensError AddSourceOutcome × LibraryState :=
  let path := managedPath s.dataDir id ext
  insertSource { s with files := s.files.insert path content } (newSource id kind .queued false)
    ⟨display path, some (String.ofList hash)⟩

def textExtension : SourceKind → Except LensError Str
  | .text => .ok "txt".toList
  | .markdown => .ok "md".toList
  | _ => .error (.validation "unknown text source kind; expected \"text\" or \"markdown\"")

def addTextSource (text : Str) (kind : SourceKind) (s : LibraryState) :
    Except LensError AddSourceOutcome × LibraryState :=
  if host.maxSourceBytes < byteLen text then
    (.error (.validation (s!"source text is {byteLen text} bytes, exceeding the " ++
      s!"{host.maxSourceBytes}-byte limit")), s)
  else
    match textExtension kind with
    | .error e => (.error e, s)
    | .ok ext =>
      let hash := host.sha256 text
      match s.duplicate? hash with
      | some dup => (.ok ⟨dup, true⟩, s)
      | none => addManaged id kind ext hash.toList text s

/-- The kind of a file and the extension of its copy. -/
def fileKind (ext : String) : Option (SourceKind × Str) :=
  match ext with
  | "pdf" => some (.pdf, "pdf".toList)
  | "docx" => some (.docx, "docx".toList)
  | "txt" => some (.text, "txt".toList)
  | "md" | "markdown" | "mdx" => some (.markdown, "md".toList)
  | "json" => some (.json, "json".toList)
  | "jsonl" => some (.jsonl, "jsonl".toList)
  | "ndjson" => some (.jsonl, "ndjson".toList)
  | "yaml" => some (.yaml, "yaml".toList)
  | "yml" => some (.yaml, "yml".toList)
  | "xml" => some (.xml, "xml".toList)
  | "rtf" => some (.rtf, "rtf".toList)
  | "odt" => some (.odt, "odt".toList)
  | "epub" => some (.epub, "epub".toList)
  | "xlsx" => some (.xlsx, "xlsx".toList)
  | "xls" => some (.xls, "xls".toList)
  | "csv" => some (.csv, "csv".toList)
  | "mp3" => some (.audio, "mp3".toList)
  | "m4a" => some (.audio, "m4a".toList)
  | "aac" => some (.audio, "aac".toList)
  | "wav" => some (.audio, "wav".toList)
  | "flac" => some (.audio, "flac".toList)
  | _ => none

/-- The part of a file name after its last dot, unless that dot is its first character. -/
def extension (p : Path) : Option String :=
  match p.getLast? with
  | none => none
  | some name =>
    let stem := (name.rdropWhile (· ≠ '.')).dropLast
    if stem = [] then none else some (String.ofList (name.rtakeWhile (· ≠ '.')))

/-- Copies the file that the user has named. -/
def addFileSource (srcPath : Str) (s : LibraryState) :
    Except LensError AddSourceOutcome × LibraryState :=
  let src := PathText.resolve s.cwd srcPath
  match (extension src).bind fun e => fileKind e.toLower with
  | none => (.error (.validation "unsupported file extension"), s)
  | some (kind, ext) =>
    match s.files.lookup src with
    | none => (.error (.io s!"hash {String.ofList srcPath}: entity not found"), s)
    | some content =>
      let hash := host.sha256 content
      match s.duplicate? hash with
      | some dup => (.ok ⟨dup, true⟩, s)
      | none => addManaged id kind ext hash.toList content s

/-- The locator is the URL as it was given. -/
def addUrlSource (url : Str) (forceJsRender : Bool) (s : LibraryState) :
    Except LensError AddSourceOutcome × LibraryState :=
  match host.normalizeUrl url with
  | .error e => (.error e, s)
  | .ok normal =>
    let hash := host.sha256 normal
    match s.duplicate? hash with
    | some dup => (.ok ⟨dup, true⟩, s)
    | none => insertSource s (newSource id .url .queued forceJsRender) ⟨url, some hash⟩

end Add

section Trash

inductive TrashEvent where
  | trashSource (id : String)
  | restoreSource (id : String)
  | trashNotebook
  | restoreNotebook
deriving DecidableEq

/-- Another live source with the content of a trashed one. -/
def LibraryState.hasLiveTwin (s : LibraryState) (id : String) : Bool :=
  s.engine.sources.any fun x => !x.trashed && x.id ≠ id && (s.rawContentHash id).isSome &&
    s.rawContentHash x.id = s.rawContentHash id

def TrashEvent.run (s : LibraryState) : TrashEvent → Except LensError LibraryState
  | .trashSource id =>
    if (s.source? id).any fun x => !x.trashed then
      .ok (s.updateSource id fun x => { x with trashed := true })
    else .error (.validation s!"no live source with id {id}")
  | .restoreSource id =>
    if (s.source? id).any Source.trashed then
      if s.hasLiveTwin id then
        .error (.validation "a source with this content already exists in the notebook")
      else .ok (s.updateSource id fun x => { x with trashed := false })
    else .error (.validation s!"no trashed source with id {id}")
  | .trashNotebook =>
    if s.notebookTrashed = some false then .ok { s with notebookTrashed := some true }
    else .error (.validation s!"no live notebook with id {String.ofList s.engine.notebook}")
  | .restoreNotebook =>
    if s.notebookTrashed = some true then .ok { s with notebookTrashed := some false }
    else .error (.validation s!"no trashed notebook with id {String.ofList s.engine.notebook}")

/-- Events one after the other; one that fails changes nothing. -/
def LibraryState.after (s : LibraryState) (events : List TrashEvent) : LibraryState :=
  events.foldl (fun s e => ((TrashEvent.run s e).toOption).getD s) s

end Trash

section Relocate

/-- A text that starts with the old prefix starts with the new one afterwards. -/
def rewritePath (oldPrefix newPrefix path : Str) : Str :=
  if oldPrefix <+: path then newPrefix ++ path.drop oldPrefix.length else path

/-- A relocation with its restart. The files are those that the copy and the cleanup leave. -/
def LibraryState.relocate (s : LibraryState) (dataDir : DataDir)
    (files : AList fun _ : Path => Str) : LibraryState :=
  { s with
    columns := s.engine.sources.foldl (fun columns x => columns.insert x.id
      ⟨rewritePath (display s.dataDir.path) (display dataDir.path) (s.locator x.id),
        s.rawContentHash x.id⟩) ∅
    files
    dataDir }

end Relocate

section Reachable

variable (host : LibraryHost)

/-- What can happen to a library. Identifiers are fresh and have no slash. -/
inductive LibraryStep (s : LibraryState) : LibraryState → Prop
  | addSource (id : String) (locator : Str) :
      s.source? id = none → '/' ∉ id.toList → LibraryStep s (addSource host id locator s).2
  | addTextSource (id : String) (text : Str) (kind : SourceKind) :
      s.source? id = none → '/' ∉ id.toList → LibraryStep s (addTextSource host id text kind s).2
  | addFileSource (id : String) (srcPath : Str) :
      s.source? id = none → '/' ∉ id.toList → LibraryStep s (addFileSource host id srcPath s).2
  | addUrlSource (id : String) (url : Str) (forceJsRender : Bool) :
      s.source? id = none → '/' ∉ id.toList →
        LibraryStep s (addUrlSource host id url forceJsRender s).2
  | trash (events : List TrashEvent) : LibraryStep s (s.after events)
  | relocate (dataDir : DataDir) (files : AList fun _ : Path => Str) :
      LibraryStep s (s.relocate dataDir files)
  /-- Jobs on the stores and purges, which leave the kinds of the sources. -/
  | work (engine : EngineState) (notebookTrashed : Option Bool) :
      (∀ x ∈ engine.sources, ∃ y ∈ s.engine.sources, y.id = x.id ∧ y.kind = x.kind) →
        LibraryStep s { s with engine, notebookTrashed }
  /-- The app and the user write and remove files. -/
  | files (files : AList fun _ : Path => Str) : LibraryStep s { s with files }

/-- The libraries that come from one without sources. -/
inductive Reachable : LibraryState → Prop
  | empty (s : LibraryState) : s.engine.sources = [] → Reachable s
  | step {s s' : LibraryState} : Reachable s → LibraryStep host s s' → Reachable s'

/-- The kinds of the sources that have a managed file. -/
def SourceKind.IsManaged (kind : SourceKind) : Prop := kind ≠ .file ∧ kind ≠ .url

instance (kind : SourceKind) : Decidable kind.IsManaged := inferInstanceAs (Decidable (_ ∧ _))

/-- The locator of a managed source is the path of its copy. -/
def Managed (s : LibraryState) : Prop :=
  ∀ x ∈ s.engine.sources, x.kind.IsManaged →
    ∃ n, Normal n ∧ s.locator x.id = display (s.dataDir.path ++ ["sources".toList, n])

theorem textExtension_normal {kind : SourceKind} {ext : Str} (h : textExtension kind = .ok ext) :
    Normal ext := by
  unfold textExtension at h
  split at h
  · cases h
    decide
  · cases h
    decide
  · cases h

theorem fileKind_normal {e : String} {kind : SourceKind} {ext : Str}
    (h : fileKind e = some (kind, ext)) : Normal ext ∧ kind.IsManaged := by
  unfold fileKind at h
  split at h
  all_goals
    cases h
    try exact ⟨by decide, by decide⟩

/-- The sources come from those before, and their columns stay. -/
structure KeepsSources (s s' : LibraryState) : Prop where
  rows : ∀ x ∈ s'.engine.sources, ∃ y ∈ s.engine.sources, y.id = x.id ∧ y.kind = x.kind
  columns : s'.columns = s.columns
  dataDir : s'.dataDir = s.dataDir

variable {s s' : LibraryState}

theorem KeepsSources.refl (s : LibraryState) : KeepsSources s s :=
  ⟨fun x hx => ⟨x, hx, rfl, rfl⟩, rfl, rfl⟩

theorem KeepsSources.trans {s'' : LibraryState} (h : KeepsSources s s')
    (h' : KeepsSources s' s'') : KeepsSources s s'' := by
  refine ⟨fun x hx => ?_, h'.columns.trans h.columns, h'.dataDir.trans h.dataDir⟩
  obtain ⟨y, hy, hid, hkind⟩ := h'.rows x hx
  obtain ⟨z, hz, hid', hkind'⟩ := h.rows y hy
  exact ⟨z, hz, hid'.trans hid, hkind'.trans hkind⟩

theorem keepsSources_update (s : LibraryState) (id : String) {f : Source → Source}
    (hid : ∀ x, (f x).id = x.id) (hkind : ∀ x, (f x).kind = x.kind) :
    KeepsSources s (s.updateSource id f) := by
  refine ⟨fun x hx => ?_, rfl, rfl⟩
  obtain ⟨y, hy, rfl⟩ := List.mem_map.mp hx
  refine ⟨y, hy, ?_⟩
  split
  · exact ⟨(hid y).symm, (hkind y).symm⟩
  · exact ⟨rfl, rfl⟩

theorem keepsSources_trashEvent {e : TrashEvent} (h : e.run s = .ok s') : KeepsSources s s' := by
  cases e with
  | trashSource id =>
    simp only [TrashEvent.run] at h
    split at h
    · cases h
      exact keepsSources_update s id (fun _ => rfl) fun _ => rfl
    · cases h
  | restoreSource id =>
    simp only [TrashEvent.run] at h
    split at h
    · split at h
      · cases h
      · cases h
        exact keepsSources_update s id (fun _ => rfl) fun _ => rfl
    · cases h
  | trashNotebook | restoreNotebook =>
    simp only [TrashEvent.run] at h
    split at h
    · cases h
      exact ⟨fun x hx => ⟨x, hx, rfl, rfl⟩, rfl, rfl⟩
    · cases h

theorem keepsSources_after (s : LibraryState) (events : List TrashEvent) :
    KeepsSources s (s.after events) := by
  induction events generalizing s with
  | nil => exact .refl s
  | cons e events ih =>
    have hstep : KeepsSources s ((TrashEvent.run s e).toOption.getD s) := by
      cases h : TrashEvent.run s e with
      | error err => exact .refl s
      | ok s' => exact keepsSources_trashEvent h
    exact hstep.trans (ih _)

theorem Managed.keeps (h : Managed s) (hk : KeepsSources s s') : Managed s' := by
  intro x hx hkind
  obtain ⟨y, hy, hid, hkind'⟩ := hk.rows x hx
  obtain ⟨n, hn, hloc⟩ := h y hy (hkind' ▸ hkind)
  refine ⟨n, hn, ?_⟩
  unfold LibraryState.locator at hloc ⊢
  rw [hk.columns, hk.dataDir, ← hid, hloc]

theorem Managed.insertSource (h : Managed s) {source : Source} {columns : SourceColumns}
    (hfresh : s.source? source.id = none) (hnew : source.kind.IsManaged → ∃ n, Normal n ∧
      columns.locator = display (s.dataDir.path ++ ["sources".toList, n])) :
    Managed (insertSource s source columns).2 := by
  unfold LensLM.insertSource
  split
  · exact h
  · intro x hx hkind
    unfold LibraryState.locator
    dsimp only at hx ⊢
    rcases List.mem_append.mp hx with hx | hx
    · have hne : x.id ≠ source.id := by
        intro he
        have hnone := List.find?_eq_none.mp hfresh x hx
        exact hnone (decide_eq_true he)
      rw [AList.lookup_insert_ne hne]
      exact h x hx hkind
    · rw [List.mem_singleton.mp hx] at hkind ⊢
      rw [AList.lookup_insert]
      exact hnew hkind

theorem Managed.addManaged (h : Managed s) {id : String} (hfresh : s.source? id = none)
    (hid : '/' ∉ id.toList) (kind : SourceKind) {ext : Str} (hext : Normal ext) (hash content : Str) :
    Managed (addManaged id kind ext hash content s).2 := by
  have hfiles : ∀ files, Managed { s with files } := fun files => h
  exact (hfiles _).insertSource hfresh fun _ => ⟨_, Normal.extended hid hext, rfl⟩

/-- Both prefixes are followed by the same rest. -/
theorem rewritePath_display (p q r : Path) :
    rewritePath (display p) (display q) (display (p ++ r)) = display (q ++ r) := by
  unfold rewritePath
  rw [display_append, display_append, if_pos (List.prefix_append _ _), List.drop_left]

theorem lookup_foldl_insert {α : Type} {β : Type} [DecidableEq α] (f : α → β) (l : List α)
    (a : α) (m : AList fun _ : α => β) (h : a ∈ l ∨ m.lookup a = some (f a)) :
    (l.foldl (fun m x => m.insert x (f x)) m).lookup a = some (f a) := by
  induction l generalizing m with
  | nil => exact h.resolve_left List.not_mem_nil
  | cons x l ih =>
    apply ih
    by_cases hx : a = x
    · rw [hx, AList.lookup_insert]
      exact .inr rfl
    · rw [AList.lookup_insert_ne hx]
      exact h.imp_left fun h => (List.mem_cons.mp h).resolve_left hx

theorem Managed.relocate (h : Managed s) (dataDir : DataDir) (files : AList fun _ : Path => Str) :
    Managed (s.relocate dataDir files) := by
  intro x hx hkind
  obtain ⟨n, hn, hloc⟩ := h x hx hkind
  refine ⟨n, hn, ?_⟩
  have hlookup := lookup_foldl_insert (fun id => SourceColumns.mk
    (rewritePath (display s.dataDir.path) (display dataDir.path) (s.locator id))
      (s.rawContentHash id)) (s.engine.sources.map Source.id) x.id ∅
        (.inl (List.mem_map.mpr ⟨x, hx, rfl⟩))
  rw [List.foldl_map] at hlookup
  unfold LibraryState.locator LibraryState.relocate
  dsimp only
  rw [hlookup]
  show rewritePath (display s.dataDir.path) (display dataDir.path) (s.locator x.id) = _
  rw [hloc]
  exact rewritePath_display _ _ _

/-- A duplicate changes nothing. -/
theorem Managed.unlessDuplicate (h : Managed s) (hash : String)
    {r : Except LensError AddSourceOutcome × LibraryState} (hr : Managed r.2) :
    Managed (match s.duplicate? hash with
      | some dup => (.ok ⟨dup, true⟩, s)
      | none => r : Except LensError AddSourceOutcome × LibraryState).2 := by
  split
  · exact h
  · exact hr

theorem Managed.addTextSource (h : Managed s) {id : String} (hfresh : s.source? id = none)
    (hid : '/' ∉ id.toList) (text : Str) (kind : SourceKind) :
    Managed (addTextSource host id text kind s).2 := by
  unfold LensLM.addTextSource
  split
  · exact h
  · split
    · exact h
    · rename_i ext hext
      exact h.unlessDuplicate _ (h.addManaged hfresh hid kind (textExtension_normal hext) _ _)

theorem Managed.addFileSource (h : Managed s) {id : String} (hfresh : s.source? id = none)
    (hid : '/' ∉ id.toList) (srcPath : Str) : Managed (addFileSource host id srcPath s).2 := by
  unfold LensLM.addFileSource
  dsimp only
  split
  · exact h
  · rename_i kind ext hkind
    obtain ⟨e, _, he⟩ := Option.bind_eq_some_iff.mp hkind
    split
    · exact h
    · exact h.unlessDuplicate _ (h.addManaged hfresh hid kind (fileKind_normal he).1 _ _)

theorem Managed.step (h : Managed s) (hs : LibraryStep host s s') : Managed s' := by
  cases hs with
  | addSource id locator hfresh =>
    exact h.unlessDuplicate _ (h.insertSource hfresh fun hkind => absurd rfl hkind.1)
  | addTextSource id text kind hfresh hid => exact h.addTextSource host hfresh hid text kind
  | addFileSource id srcPath hfresh hid => exact h.addFileSource host hfresh hid srcPath
  | addUrlSource id url forceJsRender hfresh =>
    unfold LensLM.addUrlSource
    split
    · exact h
    · exact h.unlessDuplicate _ (h.insertSource hfresh fun hkind => absurd rfl hkind.2)
  | trash events => exact h.keeps (keepsSources_after s events)
  | relocate dataDir files => exact h.relocate dataDir files
  | work engine notebookTrashed hrows => exact h.keeps ⟨hrows, rfl, rfl⟩
  | files files => exact h

theorem managed_of_reachable (h : Reachable host s) : Managed s := by
  induction h with
  | empty s hs =>
    intro x hx
    rw [hs] at hx
    cases hx
  | step _ hs ih => exact ih.step host hs

/-- Its digest is the content itself. -/
def plainLibraryHost : LibraryHost := ⟨String.ofList, .ok, 100000000⟩

/-- A live notebook without sources, with the user's own file in a home directory. -/
def newLibrary : LibraryState where
  engine := ⟨"n1".toList, none, none, [], [], [], ⟨[], List.nodup_nil⟩, ∅, ∅, ∅, false⟩
  notebookTrashed := some false
  columns := ∅
  files := AList.insert ["home".toList, "a.pdf".toList] "mine".toList ∅
  dataDir := ⟨["data".toList], by decide⟩
  cwd := []

theorem reachable_newLibrary : Reachable host newLibrary := .empty _ rfl

end Reachable

end LensLM
