import LensLM.Engine

/-!
# The vector store's operations

Each works on the physical tables and on the registry that names them, in steps of its own.
-/

namespace LensLM

open ByteText Programs Program

set_option autoImplicit false

/-- Opens a physical table by its exact name, or finds none. -/
def openTableByName (name : Str) : Job (Option Str) := do
  let existing ← perform (.tableNames : Cmd)
  if name ∈ existing then
    perform (.openTable name : Cmd)
    return some name
  else return none

def openActiveTable (c : Coordinate) : Job (Option Str) := do
  match ← perform (.activeLanceTableName c : Cmd) with
  | none => return none
  | some name => openTableByName name

/-- The write path: the table of the active row, or a first one. -/
def ensureTable (c : Coordinate) : Job Str := do
  match ← perform (.activeLanceTableName c : Cmd) with
  | some activeName =>
    match ← openTableByName activeName with
    | some table => return table
    | none =>
      perform (.createEmptyTable activeName : Cmd)
      return activeName
  | none =>
    let name := genTableName c 0
    let existing ← perform (.tableNames : Cmd)
    if name ∈ existing then perform (.openTable name : Cmd)
    else perform (.createEmptyTable name : Cmd)
    perform (.register c name .active : Cmd)
    return name

def addVectors (c : Coordinate) (rows : List VectorRow) : Job Unit := do
  if rows.isEmpty then return ()
  else
    let table ← ensureTable c
    perform (.addRows table rows : Cmd)

/-- Appends to a table by name; what is asked of a missing table is an error. -/
def addToTable (table : Str) (rows : List VectorRow) : Job Unit := do
  if rows.isEmpty then return ()
  else
    match ← openTableByName table with
    | none => .fail (.failed (.vector s!"no table named {String.ofList table} to add to"))
    | some table => perform (.addRows table rows : Cmd)

def dropSource (c : Coordinate) (sourceId : String) : Job Unit := do
  match ← openActiveTable c with
  | none => return ()
  | some table => perform (.deleteRows table sourceId : Cmd)

/-- Drops the tables that a snapshot of the live ones has. -/
def dropTables (names : List Str) : Job Unit := do
  if names.isEmpty then return ()
  else
    let existing ← perform (.tableNames : Cmd)
    forEach names fun name =>
      if name ∈ existing then perform (.dropTable name : Cmd) else return ()

/-- The first generation from 1 on whose name is not taken. -/
def freeTableName (c : Coordinate) (taken : List Str) : Str :=
  genTableName c (((List.range' 1 (taken.length + 1)).find? fun generation =>
    !taken.contains (genTableName c generation)).getD 1)

/-- The physical table first, then its registry row. -/
def createBuildingTable (c : Coordinate) : Job Str := do
  let existing ← perform (.lanceTableNamesForCoordinate c : Cmd)
  let physical ← perform (.tableNames : Cmd)
  let buildingName := freeTableName c (existing ++ physical)
  perform (.createEmptyTable buildingName : Cmd)
  perform (.register c buildingName .building : Cmd)
  return buildingName

def sweepOrphanBuildingTables (c : Coordinate) : Job Unit := do
  let names ← perform (.buildingLanceTableNames c : Cmd)
  if names.isEmpty then return ()
  else
    dropTables names
    perform (.deleteBuildingRows c : Cmd)

/-- Copies the other sources' vectors from the active table. -/
def seedBuildingFromActive (c : Coordinate) (buildingName : Str) (excludeSourceId : String) :
    Job Unit := do
  match ← openActiveTable c with
  | none => return ()
  | some active =>
    match ← openTableByName buildingName with
    | none => .fail (.failed (.vector s!"no building table {String.ofList buildingName} to seed"))
    | some building =>
      let rows ← perform (.queryOthers active excludeSourceId : Cmd)
      perform (.addRows building rows : Cmd)

/-- The table is dropped first, then its row is deleted. -/
def dropStale (c : Coordinate) (stale : Option Str) : Job Unit := do
  match stale with
  | none => return ()
  | some stale =>
    dropTables [stale]
    perform (.deleteRowByTable c stale : Cmd)

def flipActive (c : Coordinate) (buildingName : Str) : Job Unit := do
  let stale ← perform (.flipActiveTxn c buildingName : Cmd)
  dropStale c stale

def retireCoordinate (c : Coordinate) : Job Unit := do
  let stale ← perform (.demoteActiveToStale c : Cmd)
  dropStale c stale

section OnTables

/-- The commands on the tables and on the registry, and work outside the stores. -/
def Cmd.OnTables : Cmd → Prop
  | .outside | .activeLanceTableName _ | .activeCoordinates | .lanceTableNamesForCoordinate _
  | .buildingLanceTableNames _ | .register _ _ _ | .deleteBuildingRows _ | .deleteRowByTable _ _
  | .flipActiveTxn _ _ | .demoteActiveToStale _ | .registeredTableNames | .unfinishedTableNames
  | .deleteUnfinishedRows | .tableNames | .openTable _ | .createEmptyTable _ | .addRows _ _
  | .deleteRows _ _ | .queryOthers _ _ | .dropTable _ => True
  | _ => False

theorem Cmd.OnTables.run {c : Cmd} (hc : c.OnTables) {s s' : EngineState} {a : c.Reply}
    (hrun : c.run s = .ok (a, s')) :
    ∃ registry tables, s' = { s with registry := registry, tables := tables } := by
  cases c with
  | acquire | release | getSource | listSources | updateSourceStatus | setSourceError
  | clearSourceErrorMeta | updateEnrichmentStatus | updateSourceMetadata | trashSource
  | purgeSource | setEmbeddingModel | recoverSources | recoverEnrichment | replaceChunks
  | wipeChunks | insertSummaryChunk | listChunksForReembed | resolveNotebookEmbedding
  | persistExtracted | persistTableMarkdown | removeSiblings => exact absurd hc id
  | openTable | createEmptyTable | dropTable | addRows | deleteRows | queryOthers =>
    simp only [Cmd.run] at hrun
    split at hrun <;> cases hrun
    exact ⟨_, _, rfl⟩
  | flipActiveTxn c building =>
    simp only [Cmd.run] at hrun
    cases hf : s.registry.flip c building with
    | error e =>
      rw [hf] at hrun
      cases hrun
    | ok r =>
      rw [hf] at hrun
      cases hrun
      exact ⟨_, _, rfl⟩
  | _ =>
    cases hrun
    exact ⟨_, _, rfl⟩

theorem openTableByName_onTables (name : Str) : (openTableByName name).All Cmd.OnTables := by
  refine All.bind (all_perform trivial) fun existing => ?_
  split
  · exact All.bind (all_perform trivial) fun _ => trivial
  · trivial

theorem openActiveTable_onTables (c : Coordinate) : (openActiveTable c).All Cmd.OnTables := by
  refine All.bind (all_perform trivial) fun name => ?_
  cases name with
  | none => trivial
  | some name => exact openTableByName_onTables name

theorem ensureTable_onTables (c : Coordinate) : (ensureTable c).All Cmd.OnTables := by
  refine All.bind (all_perform trivial) fun name => ?_
  cases name with
  | some name =>
    refine All.bind (openTableByName_onTables name) fun table => ?_
    cases table with
    | some table => trivial
    | none => exact All.bind (all_perform trivial) fun _ => trivial
  | none =>
    refine All.bind (all_perform trivial) fun existing => ?_
    dsimp only
    split
    · refine All.bind (all_perform trivial) fun _ => ?_
      exact All.bind (all_perform trivial) fun _ => trivial
    · refine All.bind (all_perform trivial) fun _ => ?_
      exact All.bind (all_perform trivial) fun _ => trivial

theorem addVectors_onTables (c : Coordinate) (rows : List VectorRow) :
    (addVectors c rows).All Cmd.OnTables := by
  unfold addVectors
  split
  · trivial
  · exact All.bind (ensureTable_onTables c) fun _ => all_perform trivial

theorem addToTable_onTables (table : Str) (rows : List VectorRow) :
    (addToTable table rows).All Cmd.OnTables := by
  unfold addToTable
  split
  · trivial
  · refine All.bind (openTableByName_onTables table) fun found => ?_
    cases found with
    | none => trivial
    | some table => exact all_perform trivial

theorem dropSource_onTables (c : Coordinate) (sourceId : String) :
    (dropSource c sourceId).All Cmd.OnTables := by
  refine All.bind (openActiveTable_onTables c) fun table => ?_
  cases table with
  | none => trivial
  | some table => exact all_perform trivial

theorem dropTables_onTables (names : List Str) : (dropTables names).All Cmd.OnTables := by
  unfold dropTables
  split
  · trivial
  · refine All.bind (all_perform trivial) fun existing => ?_
    apply all_forEach
    intro name _
    split
    · exact all_perform trivial
    · trivial

theorem createBuildingTable_onTables (c : Coordinate) :
    (createBuildingTable c).All Cmd.OnTables := by
  refine All.bind (all_perform trivial) fun existing => ?_
  refine All.bind (all_perform trivial) fun physical => ?_
  refine All.bind (all_perform trivial) fun _ => ?_
  exact All.bind (all_perform trivial) fun _ => trivial

theorem sweep_onTables (c : Coordinate) : (sweepOrphanBuildingTables c).All Cmd.OnTables := by
  refine All.bind (all_perform trivial) fun names => ?_
  split
  · trivial
  · exact All.bind (dropTables_onTables names) fun _ => all_perform trivial

theorem seed_onTables (c : Coordinate) (buildingName : Str) (sourceId : String) :
    (seedBuildingFromActive c buildingName sourceId).All Cmd.OnTables := by
  refine All.bind (openActiveTable_onTables c) fun active => ?_
  cases active with
  | none => trivial
  | some active =>
    refine All.bind (openTableByName_onTables buildingName) fun building => ?_
    cases building with
    | none => trivial
    | some building => exact All.bind (all_perform trivial) fun _ => all_perform trivial

theorem flipActive_onTables (c : Coordinate) (buildingName : Str) :
    (flipActive c buildingName).All Cmd.OnTables := by
  refine All.bind (all_perform trivial) fun stale => ?_
  cases stale with
  | none => trivial
  | some stale => exact All.bind (dropTables_onTables _) fun _ => all_perform trivial

end OnTables

theorem genTableName_length_lt (c : Coordinate) {g : Nat} (hg : 0 < g) :
    (genTableName c 0).length < (genTableName c g).length := by
  unfold genTableName
  rw [if_pos rfl, if_neg hg.ne']
  simp

theorem genTableName_injective (c : Coordinate) : Function.Injective (genTableName c) := by
  intro g h hgh
  rw [genTableName_eq, genTableName_eq] at hgh
  simp only [List.append_cancel_left_eq, List.cons.injEq, true_and] at hgh
  exact (genSuffix_inj hgh).2

/-- A building table has a later generation's name. -/
theorem freeTableName_eq (c : Coordinate) (taken : List Str) :
    ∃ g, 0 < g ∧ freeTableName c taken = genTableName c g := by
  refine ⟨_, ?_, rfl⟩
  cases hf : (List.range' 1 (taken.length + 1)).find? fun generation =>
      !taken.contains (genTableName c generation) with
  | none => exact Nat.one_pos
  | some g => exact (List.mem_range'_1.mp (List.mem_of_find?_eq_some hf)).1

/-- The name of a building table is not taken: there is one candidate more than taken names. -/
theorem freeTableName_notMem (c : Coordinate) (taken : List Str) :
    freeTableName c taken ∉ taken := by
  unfold freeTableName
  cases hf : (List.range' 1 (taken.length + 1)).find? fun generation =>
      !taken.contains (genTableName c generation) with
  | some g => simpa using List.find?_some hf
  | none =>
    have hall : ∀ g ∈ List.range' 1 (taken.length + 1), genTableName c g ∈ taken := by
      intro g hg
      simpa using List.find?_eq_none.mp hf g hg
    have hnodup : ((List.range' 1 (taken.length + 1)).map (genTableName c)).Nodup :=
      (List.nodup_range' ..).map (genTableName_injective c)
    have hsub : (List.range' 1 (taken.length + 1)).map (genTableName c) ⊆ taken := by
      intro n hn
      obtain ⟨g, hg, rfl⟩ := List.mem_map.mp hn
      exact hall g hg
    have hlen := (List.subperm_of_subset hnodup hsub).length_le
    rw [List.length_map, List.length_range'] at hlen
    omega

end LensLM
