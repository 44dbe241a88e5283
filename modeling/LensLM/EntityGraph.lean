import LensLM.Resolution
import LensLM.Lib.Grouping
import Mathlib.Data.List.Sort

/-!
# The entity graph of a source

The rows are built in one pass: the nodes from the entities, dates and definitions, then for
every prose chunk the mentions and the pairs of nodes that occur in it together.
-/

namespace LensLM

open ByteText Grouping

set_option autoImplicit false

/-- What the text functions and the hash of the builder compute. -/
structure TextHost where
  toLowercase : Str → Str
  isAlphanumeric : Char → Bool
  -- the hexadecimal digest of the UTF-8 bytes
  digest : Str → String

/-- A chunk as the enrichment reads it. -/
structure EnrichmentChunk where
  id : String
  parentId : Option String
  level : Int
  sectionPath : Str
  text : Str
  blockType : Option String
deriving DecidableEq

structure Definition where
  term : Str
  definition : Str
deriving DecidableEq

structure CorefSub where
  charStart : Nat
  charEnd : Nat
  antecedent : Str
deriving DecidableEq

/-- A node as it is stored. -/
structure EntityNodeRow extends EntityNode where
  notebookId : String
  sourceId : String
  canonicalName : Option Str
  resolutionConf : Option Conf
  resolutionPromptVersion : Option String
  createdAt : String
deriving DecidableEq

inductive Relation where
  | coOccurs
  | semantic (name : Str)
deriving DecidableEq

structure EntityEdge where
  id : String
  notebookId : String
  sourceId : String
  chunkId : String
  fromNode : String
  toNode : String
  relation : Relation
  weight : Option Conf
  confidence : Option Conf
  createdAt : String
deriving DecidableEq

structure EntityMention where
  id : String
  notebookId : String
  entityNodeId : String
  chunkId : String
  charStart : Int
  charEnd : Int
  createdAt : String
deriving DecidableEq

structure EntityGraphRows where
  sourceId : String
  nodes : List EntityNodeRow
  edges : List EntityEdge
  mentions : List EntityMention
  droppedCooccurrence : Nat
deriving DecidableEq

def isNonproseBlock (blockType : Option String) : Bool :=
  blockType = some "code" || blockType = some "table" || blockType = some "html"

/-- The columns that are the same in all rows of a build. -/
structure RowScope where
  notebookId : String
  sourceId : String
  createdAt : String

section Nodes

variable (host : TextHost) (scope : RowScope)

/-- The digest of the source, the name and the kind, with zero bytes in between. -/
def nodeId (sourceId : String) (lowerName : Str) (kind : EntityKind) : String :=
  host.digest (sourceId.toList ++ Char.ofNat 0 :: (lowerName ++ Char.ofNat 0 :: kind.asStr))

def newNode (kind : EntityKind) (name : Str) (definition : Option Str) : EntityNodeRow where
  id := nodeId host scope.sourceId (host.toLowercase name) kind
  notebookId := scope.notebookId
  sourceId := scope.sourceId
  kind := kind
  name := name
  canonicalName := none
  definition := definition
  resolutionConf := none
  resolutionPromptVersion := none
  createdAt := scope.createdAt

/-- The nodes so far and the index from a lower-cased name to a position. The index finds every
node under its own name and nothing else. -/
structure NodeTable where
  nodes : List EntityNodeRow
  index : List (Str × Nat)
  found : ∀ k i, index.lookup k = some i ↔ ∃ node, nodes[i]? = some node ∧
    host.toLowercase node.name = k
  ids : ∀ node ∈ nodes, node.id = nodeId host scope.sourceId (host.toLowercase node.name) node.kind

namespace NodeTable

variable {host scope}

def empty : NodeTable host scope where
  nodes := []
  index := []
  found := by simp
  ids := by simp

/-- A node of a new name, at the end. -/
def push (t : NodeTable host scope) (kind : EntityKind) (name : Str) (definition : Option Str)
    (hnew : t.index.lookup (host.toLowercase name) = none) : NodeTable host scope where
  nodes := t.nodes ++ [newNode host scope kind name definition]
  index := (host.toLowercase name, t.nodes.length) :: t.index
  found := by
    intro k i
    have hold := t.found k i
    rw [List.lookup_cons]
    rcases Nat.lt_trichotomy i t.nodes.length with hi | rfl | hi
    · rw [List.getElem?_append_left hi, ← hold]
      by_cases hk : k = host.toLowercase name
      · subst hk
        rw [beq_self_eq_true, hnew]
        simp only [Option.some.injEq, reduceCtorEq, iff_false]
        omega
      · rw [beq_eq_false_iff_ne.mpr hk]
    · rw [List.getElem?_concat_length]
      rw [List.getElem?_eq_none (le_refl _)] at hold
      by_cases hk : k = host.toLowercase name
      · subst hk
        rw [beq_self_eq_true]
        simp [newNode]
      · rw [beq_eq_false_iff_ne.mpr hk]
        simp only [hold]
        simp [newNode, Ne.symm hk]
    · rw [List.getElem?_eq_none (by simp; omega)]
      rw [List.getElem?_eq_none (by omega)] at hold
      by_cases hk : k = host.toLowercase name
      · subst hk
        rw [beq_self_eq_true]
        simp only [Option.some.injEq, reduceCtorEq, false_and, exists_false, iff_false]
        omega
      · rw [beq_eq_false_iff_ne.mpr hk]
        simp only [hold]
  ids := by
    intro node hnode
    cases List.mem_append.mp hnode with
    | inl hnode => exact t.ids node hnode
    | inr hnode =>
      rw [List.mem_singleton.mp hnode]
      rfl

/-- A node of this kind, unless the name has one. -/
def insertNew (t : NodeTable host scope) (kind : EntityKind) (name : Str) : NodeTable host scope :=
  match h : t.index.lookup (host.toLowercase name) with
  | some _ => t
  | none => t.push kind name none h

def fillDefinition (definition : Str) (node : EntityNodeRow) : EntityNodeRow :=
  if node.definition.isNone then { node with definition := some definition } else node

theorem fillDefinition_keeps (definition : Str) (node : EntityNodeRow) :
    (fillDefinition definition node).name = node.name ∧
      (fillDefinition definition node).id = node.id ∧
      (fillDefinition definition node).kind = node.kind := by
  unfold fillDefinition
  split
  · exact ⟨rfl, rfl, rfl⟩
  · exact ⟨rfl, rfl, rfl⟩

def setDefinition (t : NodeTable host scope) (i : Nat) (definition : Str) :
    NodeTable host scope where
  nodes := t.nodes.modify i (fillDefinition definition)
  index := t.index
  found := by
    intro k j
    rw [t.found, List.getElem?_modify]
    cases t.nodes[j]? with
    | none => simp
    | some node =>
      have hname := (fillDefinition_keeps definition node).1
      by_cases hij : i = j
      · simp [hij, hname]
      · simp [hij]
  ids := by
    intro node hnode
    obtain ⟨j, hj⟩ := List.mem_iff_getElem?.mp hnode
    rw [List.getElem?_modify] at hj
    cases hold : t.nodes[j]? with
    | none => simp [hold] at hj
    | some old =>
      have hid := t.ids old (List.mem_of_getElem? hold)
      obtain ⟨hname, hsame, hkind⟩ := fillDefinition_keeps definition old
      by_cases hij : i = j
      · have hnode : fillDefinition definition old = node := by simpa [hold, hij] using hj
        rw [← hnode, hname, hsame, hkind]
        exact hid
      · have hnode : old = node := by simpa [hold, hij] using hj
        rw [← hnode]
        exact hid

/-- Fills the definition of the term's node, or makes a node of it. -/
def define (t : NodeTable host scope) (definition : Definition) : NodeTable host scope :=
  match h : t.index.lookup (host.toLowercase definition.term) with
  | some i => t.setDefinition i definition.definition
  | none => t.push .concept definition.term (some definition.definition) h

/-- The node of a lower-cased name. -/
def find (t : NodeTable host scope) (key : Str) : Option EntityNodeRow :=
  (t.index.lookup key).bind fun i => t.nodes[i]?

end NodeTable

def buildNodes (entities : List Str) (definitions : List Definition) (dates : List Str) :
    NodeTable host scope :=
  let t := entities.foldl (fun t entity => t.insertNew .concept entity) NodeTable.empty
  let t := dates.foldl (fun t date => t.insertNew .date date) t
  definitions.foldl (fun t definition => t.define definition) t

end Nodes

section Occurrences

variable (isAlphanumeric : Char → Bool) (chars needle : Str)

/-- The needle stands at `i`, and no letter or digit before or after it. -/
def wordAt (i : Nat) : Bool :=
  (chars.drop i).take needle.length = needle &&
    (i = 0 || !(chars[i - 1]?.any isAlphanumeric)) &&
    (i + needle.length = chars.length || !(chars[i + needle.length]?.any isAlphanumeric))

def wordOccurrences (hneedle : needle ≠ []) (i : Nat) : List (Nat × Nat) :=
  if i + needle.length ≤ chars.length then
    if wordAt isAlphanumeric chars needle i then
      (i, i + needle.length) :: wordOccurrences hneedle (i + needle.length)
    else wordOccurrences hneedle (i + 1)
  else []
termination_by chars.length + 1 - i
decreasing_by
  · have hpos := List.length_pos_iff.mpr hneedle
    omega
  · have hpos := List.length_pos_iff.mpr hneedle
    omega

/-- The codepoint ranges of the needle on word boundaries, none overlapping the one before. -/
def findWordBoundaryOccurrences : List (Nat × Nat) :=
  if hneedle : needle = [] then [] else wordOccurrences isAlphanumeric chars needle hneedle 0

end Occurrences

section Rows

variable (host : TextHost) (scope : RowScope) (ids : Nat → String)

/-- A mention with the next id: every id that the chunks draw is a mention's. -/
def pushMention (chunk : EnrichmentChunk) (node : EntityNodeRow) (charStart charEnd : Nat)
    (mentions : List EntityMention) : List EntityMention :=
  mentions ++ [{
    id := ids mentions.length
    notebookId := scope.notebookId
    entityNodeId := node.id
    chunkId := chunk.id
    charStart := charStart
    charEnd := charEnd
    createdAt := scope.createdAt }]

/-- Looks for one node in the text of a chunk. -/
def scanNode (chunk : EnrichmentChunk) (st : List EntityNodeRow × List EntityMention)
    (node : EntityNodeRow) : List EntityNodeRow × List EntityMention :=
  let nameLower := host.toLowercase node.name
  if nameLower.isEmpty then st
  else
    let occurrences := findWordBoundaryOccurrences host.isAlphanumeric
      (host.toLowercase chunk.text) nameLower
    (if occurrences.isEmpty then st.1 else st.1 ++ [node],
      occurrences.foldl (fun ms o => pushMention scope ids chunk node o.1 o.2 ms) st.2)

def corefMention (t : NodeTable host scope) (chunk : EnrichmentChunk)
    (mentions : List EntityMention) (sub : CorefSub) : List EntityMention :=
  match t.find (host.toLowercase sub.antecedent) with
  | some node => pushMention scope ids chunk node sub.charStart sub.charEnd mentions
  | none => mentions

/-- Each element with each one after it. -/
def pairsOf {α : Type} : List α → List (α × α)
  | [] => []
  | x :: xs => xs.map (x, ·) ++ pairsOf xs

def canonicalPair (a b : String) : String × String := if a ≤ b then (a, b) else (b, a)

abbrev PairCounts : Type := List ((String × String) × (Nat × String))

def addPair (chunkId : String) (pairs : PairCounts) (pair : EntityNodeRow × EntityNodeRow) :
    PairCounts :=
  upsert (canonicalPair pair.1.id pair.2.id) (0, chunkId) (fun v => (v.1 + 1, v.2)) pairs

/-- What the loop over the chunks accumulates. -/
structure ChunkPass where
  mentions : List EntityMention
  pairs : PairCounts
  dropped : Nat

def eligible (chunk : EnrichmentChunk) : Bool :=
  !(decide (chunk.level ≤ 0) || isNonproseBlock chunk.blockType)

def scanChunk (t : NodeTable host scope) (corefSubs : Nat → Option (List CorefSub))
    (maxEntitiesPerChunk : Nat) (acc : ChunkPass) (indexed : EnrichmentChunk × Nat) : ChunkPass :=
  let (chunk, i) := indexed
  if !eligible chunk then acc
  else
    let (present, mentions) := t.nodes.foldl (scanNode host scope ids chunk) ([], acc.mentions)
    let mentions := match corefSubs i with
      | some subs => subs.foldl (corefMention host scope ids t chunk) mentions
      | none => mentions
    let dropped := if present.length > maxEntitiesPerChunk then
        acc.dropped + (present.length - maxEntitiesPerChunk)
      else acc.dropped
    let present := present.take maxEntitiesPerChunk
    { mentions := mentions
      pairs := (pairsOf present).foldl (addPair chunk.id) acc.pairs
      dropped := dropped }

/-- The order of a map with pairs of ids as keys. -/
def pairLe (a b : (String × String) × (Nat × String)) : Bool :=
  a.1.1 < b.1.1 || (a.1.1 = b.1.1 && a.1.2 ≤ b.1.2)

/-- The edge of a pair; the ids go on after those of the mentions. -/
def newEdge (drawn k : Nat) (entry : (String × String) × (Nat × String)) : EntityEdge where
  id := ids (drawn + k)
  notebookId := scope.notebookId
  sourceId := scope.sourceId
  chunkId := entry.2.2
  fromNode := entry.1.1
  toNode := entry.1.2
  relation := .coOccurs
  weight := some (.ofRat entry.2.1)
  confidence := none
  createdAt := scope.createdAt

def buildEntityGraphRows (chunks : List EnrichmentChunk) (entities : List Str)
    (definitions : List Definition) (dates : List Str)
    (corefSubs : Nat → Option (List CorefSub)) (maxEntitiesPerChunk : Nat) : EntityGraphRows :=
  let t := buildNodes host scope entities definitions dates
  let pass := chunks.zipIdx.foldl (scanChunk host scope ids t corefSubs maxEntitiesPerChunk)
    { mentions := [], pairs := [], dropped := 0 }
  { sourceId := scope.sourceId
    nodes := t.nodes
    edges := (pass.pairs.mergeSort pairLe).mapIdx (newEdge scope ids pass.mentions.length)
    mentions := pass.mentions
    droppedCooccurrence := pass.dropped }

end Rows

end LensLM
