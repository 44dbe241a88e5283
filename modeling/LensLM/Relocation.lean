import LensLM.Settings

/-!
# Relocations and the cleanup at the next start

A relocation copies the data directory and leaves a marker that names the old one. The next start
opens the directory of the pointer, or the anchor if that one is missing, and empties the old
directory unless a check holds it back.
-/

namespace LensLM

namespace Relocate

open ByteText

set_option autoImplicit false

section Files

/-- An absolute path in the database, with the data directory that it is in. -/
structure AudioPath where
  dir : Path
  rel : Str
deriving DecidableEq

/-- What is committed in a database, the time of the last change of `lens.db`, and whether the log
holds commits that `lens.db` does not. -/
structure LensDb where
  sources : List Str
  activeTables : List Str
  readyAudio : List AudioPath
  modified : Nat
  log : Bool
deriving DecidableEq

/-- The entries of a data directory that the code knows, the small ones in `others`, and whether
there is anything else. -/
structure DirData where
  db : Option LensDb
  tables : List Str
  audio : List Str
  config : Bool
  others : Bool
  foreign : Bool
deriving DecidableEq

def DirData.empty : DirData := ⟨none, [], [], false, false, false⟩

/-- The ids of the rows, none without a database. -/
def DirData.sources (data : DirData) : List Str := (data.db.map LensDb.sources).getD []

structure Storage where
  dirs : Path → Option DirData
  location : Option DataLocation

def Storage.setDir (s : Storage) (d : Path) (data : DirData) : Storage :=
  { s with dirs := Function.update s.dirs d (some data) }

/-- The ids of the rows in a directory. -/
def Storage.sources (s : Storage) (d : Path) : List Str := ((s.dirs d).map DirData.sources).getD []

theorem Storage.sources_setDir (s : Storage) (d : Path) (data : DirData) (d' : Path) :
    (s.setDir d data).sources d' = if d' = d then data.sources else s.sources d' := by
  unfold Storage.sources Storage.setDir
  dsimp only
  split
  · rename_i h
    rw [h, Function.update_self]
    rfl
  · rename_i h
    rw [Function.update_of_ne h]

end Files

section Boot

/-- What a start meets: the directories that are missing, the state of the opened database, whether
it opens at all, and what the cleanup cannot remove or write. -/
structure BootChoice where
  missing : Path → Bool
  modified : Nat
  log : Bool
  opens : Bool
  keepsDb : Bool
  keepsTables : Bool
  keepsAudio : Bool
  keepsConfig : Bool
  keepsOthers : Bool
  writesPointer : Bool

variable (anchor : Path) (x : BootChoice)

/-- What the start finds at a path. The anchor is the directory of the app, which is always there. -/
def Storage.seen (s : Storage) (d : Path) : Option DirData :=
  if x.missing d ∧ d ≠ anchor then none else s.dirs d

def resolveDataDir (s : Storage) : Path :=
  match s.location with
  | some loc => if (s.seen anchor x loc.dataDir).isSome then loc.dataDir else anchor
  | none => anchor

/-- Opens the database, or makes an empty one, and loads the settings. -/
def init (dataDir : Path) (s : Storage) : Storage :=
  let data := (s.dirs dataDir).getD .empty
  let db := match data.db with
    | some db => { db with modified := x.modified, log := x.log }
    | none => ⟨[], [], [], x.modified, x.log⟩
  s.setDir dataDir { data with db := some db, config := true }

def oldDirIsNewer (old active : Option DirData) : Bool :=
  let modified (data : Option DirData) : Option Nat :=
    (data.bind DirData.db).map LensDb.modified
  match modified old, modified active with
  | some oldTime, some activeTime => decide (activeTime < oldTime)
  | none, _ => false
  | some _, none => true

def verifyActiveVectorTables (db : LensDb) (tables : List Str) : Bool :=
  db.activeTables.all (· ∈ tables)

/-- An audio that was in the old directory is in the new one. -/
def verifyReadyAudio (db : LensDb) (newDir : Path) (old new : List Str) : Bool :=
  db.readyAudio.all fun copied =>
    if copied.dir = newDir then !(copied.rel ∈ old) || copied.rel ∈ new else true

/-- The checks on the directory that is about to be the only copy. -/
def verifyBeforeDelete (active : Path) (old activeData : Option DirData) : Except String Unit :=
  match activeData.bind DirData.db with
  | none => .error "active_vector_table_unreadable"
  | some db =>
    let tables := (activeData.map DirData.tables).getD []
    let audio := (activeData.map DirData.audio).getD []
    if verifyActiveVectorTables db tables then
      if verifyReadyAudio db active ((old.map DirData.audio).getD []) audio then .ok ()
      else .error "ready_audio_missing_from_copy"
    else .error "active_vector_table_unreadable"

def eraseConfigFiles (data : DirData) : DirData :=
  { data with config := data.config && x.keepsConfig }

/-- The entries that can be removed are gone. -/
def removeEntries (data : DirData) : DirData where
  db := if x.keepsDb then data.db else none
  tables := if x.keepsTables then data.tables else []
  audio := if x.keepsAudio then data.audio else []
  config := data.config && x.keepsConfig
  others := data.others && x.keepsOthers
  foreign := data.foreign

/-- Changes a directory that is there. -/
def Storage.change (s : Storage) (d : Path) (f : DirData → DirData) : Storage :=
  match s.seen anchor x d with
  | some data => s.setDir d (f data)
  | none => s

def clearMarker (loc : DataLocation) (s : Storage) : Storage :=
  if x.writesPointer then { s with location := some { loc with cleanup := none } } else s

def runBootCleanup (active : Path) (s : Storage) : Storage :=
  match s.location with
  | none => s
  | some loc =>
    match loc.cleanup with
    | none => s
    | some old =>
      if old = active then clearMarker x loc s
      else if oldDirIsNewer (s.seen anchor x old) (s.seen anchor x active) then
        s.change anchor x old (eraseConfigFiles x)
      else
        match verifyBeforeDelete active (s.seen anchor x old) (s.seen anchor x active) with
        | .error _ => s.change anchor x old (eraseConfigFiles x)
        | .ok () => clearMarker x loc (s.change anchor x old (removeEntries x))

end Boot

section Move

variable (anchor : Path)

/-- What a relocation meets: a fault of the copy, the files that vanish meanwhile, what the rollback
cannot remove, the time of the copied database, and a fault of the pointer. -/
structure MoveChoice where
  fault : Option LensError
  vanishes : Str → Bool
  residue : DirData
  modified : Nat
  pointerFault : Option LensError

def isEmptyDir (target : Path) (s : Storage) : Bool :=
  (s.dirs target).getD .empty = .empty && (target ≠ anchor || s.location.isNone)

def validateTarget (source target : Path) (s : Storage) : Except LensError Unit :=
  if target = source then
    .error (.validation "the new location is the same as the current one")
  else if source <+: target then
    .error (.validation "the new location cannot be inside the current data folder")
  else if isEmptyDir anchor target s then .ok ()
  else .error (.validation "the new location must be an empty folder")

def rewritePaths (source target : Path) (db : LensDb) : LensDb :=
  { db with readyAudio := db.readyAudio.map fun a => if a.dir = source then ⟨target, a.rel⟩ else a }

/-- The copy of a data directory, whose database is a snapshot with its paths rewritten. -/
def copyDir (x : MoveChoice) (source target : Path) (data : DirData) (db : LensDb) : DirData where
  db := some { rewritePaths source target db with modified := x.modified, log := false }
  tables := data.tables.filter fun t => !x.vanishes t
  audio := data.audio.filter fun a => !x.vanishes a
  config := data.config
  others := data.others
  foreign := data.foreign

/-- The directory once it is copied, if the copy verifies. -/
def relocateInto (x : MoveChoice) (source target : Path) (data : DirData) (db : LensDb) :
    Except LensError DirData :=
  let copy := copyDir x source target data db
  match x.fault with
  | some e => .error e
  | none =>
    if verifyActiveVectorTables db copy.tables then
      if verifyReadyAudio (rewritePaths source target db) target data.audio copy.audio then .ok copy
      else .error (.io "an audio overview did not copy; the move was cancelled")
    else .error (.vector "vector table open failed")

/-- Copies the running directory and writes the pointer, in this order. -/
def relocateDataDir (x : MoveChoice) (source target : Path) (s : Storage) :
    Except LensError Unit × Storage :=
  match validateTarget anchor source target s with
  | .error e => (.error e, s)
  | .ok () =>
    match (s.dirs source).bind fun data => data.db.map fun db => (data, db) with
    | none => (.error (.internal "database error"), s)
    | some (data, db) =>
      match relocateInto x source target data db with
      | .error e => (.error e, s.setDir target x.residue)
      | .ok copy =>
        match x.pointerFault with
        | some e => (.error e, s.setDir target copy)
        | none => (.ok (), { s.setDir target copy with location := some ⟨target, some source⟩ })

end Move

section History

variable (anchor : Path)

/-- The app, with the directory that it runs on. -/
structure AppState where
  storage : Storage
  running : Option Path

/-- What happens to the app: it works on its directory, it relocates it, or it starts anew. -/
inductive Event where
  | work (data : DirData)
  | relocate (target : Path) (x : MoveChoice)
  | restart (x : BootChoice)

/-- The start up to the cleanup. -/
def opened (x : BootChoice) (s : Storage) : Storage := init x (resolveDataDir anchor x s) s

/-- A start that cannot open its database ends there. -/
def boot (x : BootChoice) (s : Storage) : AppState :=
  let dataDir := resolveDataDir anchor x s
  if x.opens then ⟨runBootCleanup anchor x dataDir (opened anchor x s), some dataDir⟩
  else ⟨opened anchor x s, none⟩

def AppState.step (a : AppState) : Event → AppState
  | .work data =>
    match a.running with
    | some d => { a with storage := a.storage.setDir d data }
    | none => a
  | .relocate target x =>
    match a.running with
    | some d => { a with storage := (relocateDataDir anchor x d target a.storage).2 }
    | none => a
  | .restart x => boot anchor x a.storage

def AppState.run (a : AppState) : List Event → AppState
  | [] => a
  | e :: events => (a.step anchor e).run events

end History

end Relocate

end LensLM
