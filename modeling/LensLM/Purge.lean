import LensLM.Library
import LensLM.Lib.Executions
import LensLM.VectorTables
import LensLM.Ingest

/-!
# Purges

A purge drops the vectors first, in the vector store. Then the database decides whether it is
allowed: its DELETE finds trashed rows only. The managed files go last.
-/

namespace LensLM

open ByteText Programs Program PathText

set_option autoImplicit false

/-- `ent__{notebook}__{backend}__{slug}__d{dim}` -/
def entityTablePrefix (notebook : Str) : Str := "ent__".toList ++ notebook ++ "__".toList

def entityTableName (c : Coordinate) : Str :=
  entityTablePrefix c.notebook ++ c.backend.asStr ++ "__".toList ++ modelSlug c.model ++
    "__d".toList ++ (toString c.dim).toList

/-- What a purge reads of a source. -/
structure SourceRef where
  notebookId : Str
  locator : Str
deriving DecidableEq

inductive PurgeCmd where
  | getSource (id : String)
  | activeCoordinates (notebook : Str)
  | sourceFiles (notebook : Str)
  | lanceTableNamesForNotebook (notebook : Str)
  | deleteSource (id : String)
  | deleteNotebook (notebook : Str)
  | removeFile (path : Str)
  /-- A command of the engine's stores. -/
  | store (c : Cmd)

namespace PurgeCmd

abbrev Reply : PurgeCmd → Type
  | .getSource _ => Option SourceRef
  | .activeCoordinates _ => List Coordinate
  | .sourceFiles _ => List (String × Str)
  | .lanceTableNamesForNotebook _ => List Str
  | .store c => c.Reply
  | _ => Unit

/-- Children of the notebook's row go with it. -/
def withoutNotebook (s : LibraryState) (notebook : Str) : LibraryState :=
  { s with
    engine := { s.engine with
      sources := []
      chunks := []
      sections := []
      registry := s.engine.registry.delete fun row => row.coord.notebook = notebook }
    notebookTrashed := none }

def run : (c : PurgeCmd) → LibraryState → Except LensError (c.Reply × LibraryState)
  | .getSource id, s =>
    .ok ((s.source? id).map fun _ => ⟨s.engine.notebook, s.locator id⟩, s)
  | .activeCoordinates notebook, s =>
    .ok ((activeCoords s.engine.registry.rows).filter fun c => c.notebook = notebook, s)
  | .sourceFiles notebook, s =>
    .ok (if s.engine.notebook = notebook then
      s.engine.sources.map fun x => (x.id, s.locator x.id) else [], s)
  | .lanceTableNamesForNotebook notebook, s =>
    .ok ((s.engine.registry.rows.filter fun row => row.coord.notebook = notebook).map
      RegistryRow.table, s)
  | .deleteSource id, s =>
    (Cmd.run (.purgeSource id) s.engine).map fun r => ((), { s with engine := r.2 })
  | .deleteNotebook notebook, s =>
    if s.engine.notebook = notebook ∧ s.notebookTrashed = some true then
      .ok ((), withoutNotebook s notebook)
    else .error (.validation s!"no trashed notebook with id {String.ofList notebook}")
  | .removeFile path, s => .ok ((), { s with files := s.files.erase (PathText.resolve s.cwd path) })
  | .store c, s => (c.run s.engine).map fun r => (r.1, { s with engine := r.2 })

/-- The removal of a file is a best effort, and the permit is given back without fail. -/
def canFail : PurgeCmd → Bool
  | .removeFile _ | .store (.removeSiblings _) => false
  | .store c => c.canFail
  | _ => true

def blocked (s : LibraryState) : PurgeCmd → Bool
  | .store c => c.blocked s.engine
  | _ => false

end PurgeCmd

/-- A failure of a store, which is never a refusal of a request. -/
structure StoreFault where
  error : LensError
  notValidation : error.kind ≠ "Validation"

/-- The environment's part in a step: a fault, and what the user trashes and restores before it. -/
structure PurgeChoice where
  fault : Option StoreFault
  others : List TrashEvent

def PurgeCmd.react (c : PurgeCmd) (x : PurgeChoice) (s : LibraryState) :
    Option (Except Stop c.Reply × LibraryState) :=
  let s := s.after x.others
  if blocked s c then none
  else match x.fault with
    | some e => if c.canFail then some (.error (.failed e.error), s) else none
    | none => match c.run s with
      | .ok (a, s') => some (.ok a, s')
      | .error e => some (.error (.failed e), s)

/-- A command ends in a fault, in an error of its own, or in its effect. -/
theorem PurgeCmd.react_cases {c : PurgeCmd} {x : PurgeChoice} {s s' : LibraryState}
    {r : Except Stop c.Reply} (h : PurgeCmd.react c x s = some (r, s')) :
    (∃ e : StoreFault, r = .error (.failed e.error) ∧ c.canFail = true ∧ s' = s.after x.others) ∨
    (∃ e, r = .error (.failed e) ∧ c.run (s.after x.others) = .error e ∧ s' = s.after x.others) ∨
    ∃ a, r = .ok a ∧ c.run (s.after x.others) = .ok (a, s') := by
  unfold PurgeCmd.react at h
  dsimp only at h
  split at h
  · cases h
  · split at h
    · rename_i e _
      split at h
      · rename_i hcan
        cases h
        exact .inl ⟨e, rfl, hcan, rfl⟩
      · cases h
    · split at h
      · rename_i hrun
        cases h
        exact .inr (.inr ⟨_, rfl, hrun⟩)
      · rename_i hrun
        cases h
        exact .inr (.inl ⟨_, rfl, hrun, rfl⟩)

abbrev PurgeJob := Program PurgeCmd PurgeCmd.Reply Stop

/-- A job of the engine's stores inside of a purge. -/
def inStore {α : Type} (p : Job α) : PurgeJob α := p.embed PurgeCmd.store

def underPermit {α : Type} (p : PurgeJob α) : PurgeJob α := do
  perform (.store .acquire : PurgeCmd)
  p.ensuring (perform (.store .release : PurgeCmd))

def dropEntitySource (c : Coordinate) (sourceId : String) : Job Unit := do
  match ← openTableByName (entityTableName c) with
  | none => return ()
  | some table => perform (.deleteRows table sourceId : Cmd)

/-- The locator's file and the files beside the source. -/
def removeManagedSourceFile (sourceId : String) (locator : Str) : PurgeJob Unit := do
  perform (.removeFile locator : PurgeCmd)
  perform (.store (.removeSiblings sourceId) : PurgeCmd)

def dropSourceVectors (sourceId : String) (c : Coordinate) : Job Unit := do
  dropSource c sourceId
  dropEntitySource c sourceId

def purgeSourceJob (sourceId : String) : PurgeJob Unit :=
  underPermit do
    match ← perform (.getSource sourceId : PurgeCmd) with
    | none => .fail (.failed (Cmd.noSource sourceId))
    | some source =>
      let coords ← perform (.activeCoordinates source.notebookId : PurgeCmd)
      inStore (forEach coords (dropSourceVectors sourceId))
      perform (.deleteSource sourceId : PurgeCmd)
      removeManagedSourceFile sourceId source.locator

def dropEntityTablesForNotebook (notebook : Str) : Job Unit := do
  let existing ← perform (.tableNames : Cmd)
  dropTables (existing.filter fun n => entityTablePrefix notebook <+: n)

def purgeNotebookJob (notebook : Str) : PurgeJob Unit :=
  underPermit do
    let sources ← perform (.sourceFiles notebook : PurgeCmd)
    let names ← perform (.lanceTableNamesForNotebook notebook : PurgeCmd)
    inStore (dropTables names)
    inStore (dropEntityTablesForNotebook notebook)
    perform (.deleteNotebook notebook : PurgeCmd)
    forEach sources fun x => removeManagedSourceFile x.1 x.2

/-- What is purged. -/
inductive Purge where
  | source (id : String)
  | notebook (id : Str)

def Purge.job : Purge → PurgeJob Unit
  | .source id => purgeSourceJob id
  | .notebook id => purgeNotebookJob id

/-- A complete execution of a purge. -/
abbrev PurgeRun {α : Type} : PurgeJob α → LibraryState → Except Stop α → LibraryState → Prop :=
  Exec PurgeCmd.react

end LensLM
