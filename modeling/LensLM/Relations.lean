import LensLM.EntityGraphRows
import LensLM.Error

/-!
# The relation pass

The names that the model gives for the ends of a relation are looked up in an index of its own,
which follows the rules of the graph builder.
-/

namespace LensLM

open ByteText Grouping

set_option autoImplicit false

structure ResolvedNode where
  id : String
  kind : EntityKind
deriving DecidableEq

abbrev NodeIndex : Type := List (Str × ResolvedNode)

/-- The entry of a key, or a new one. -/
def NodeIndex.orInsert (index : NodeIndex) (key : Str) (node : ResolvedNode) : NodeIndex :=
  match index.lookup key with
  | some _ => index
  | none => (key, node) :: index

def indexName (host : TextHost) (sourceId : String) (kind : EntityKind) (index : NodeIndex)
    (name : Str) : NodeIndex :=
  let key := host.toLowercase name
  index.orInsert key { id := nodeId host sourceId key kind, kind := kind }

def buildNodeIndex (host : TextHost) (sourceId : String) (entities : List Str)
    (definitions : List Definition) (dates : List Str) : NodeIndex :=
  let index := entities.foldl (indexName host sourceId .concept) []
  let index := dates.foldl (indexName host sourceId .date) index
  (definitions.map Definition.term).foldl (indexName host sourceId .concept) index

/-- A relation as the model gives it. -/
structure RawTriple where
  fromEntity : Str
  toEntity : Str
  predicate : Str
  chunkId : Str
  -- none for NaN
  confidence : Option Conf
deriving DecidableEq

structure RelationTriple where
  fromNode : String
  toNode : String
  relation : Relation
  chunkId : String
  confidence : Option Conf
deriving DecidableEq

def relationsMinConfidence : Conf := .ofRat (1 / 2)

/-- A predicate of the vocabulary. -/
def Relation.ofPredicate (name : Str) (vocab : List Str) : Except LensError Relation :=
  if name ∈ vocab then .ok (.semantic name)
  else .error (.parse ("unknown relation predicate: " ++ String.ofList name))

def confidenceInRange (confidence : Option Conf) : Bool :=
  match confidence with
  | some c => relationsMinConfidence ≤ c && c ≤ .ofRat 1
  | none => false

def validateTriple (host : TextHost) (nodeIndex : NodeIndex) (chunkIdMap : Str → Option String)
    (predicateVocab : List Str) (aliases : Str → Option Str) (t : RawTriple) :
    Option RelationTriple :=
  if !confidenceInRange t.confidence then none
  else do
    let realChunkId ← chunkIdMap t.chunkId
    let source ← nodeIndex.lookup (host.toLowercase t.fromEntity)
    let target ← nodeIndex.lookup (host.toLowercase t.toEntity)
    if source.id = target.id then none
    else
      let canonical := (aliases t.predicate).getD t.predicate
      match Relation.ofPredicate canonical predicateVocab with
      | .error _ => none
      | .ok relation => some {
          fromNode := source.id
          toNode := target.id
          relation := relation
          chunkId := realChunkId
          confidence := t.confidence }

def validateTriples (host : TextHost) (raw : List RawTriple) (nodeIndex : NodeIndex)
    (chunkIdMap : Str → Option String) (predicateVocab : List Str) (aliases : Str → Option Str) :
    List RelationTriple :=
  raw.filterMap (validateTriple host nodeIndex chunkIdMap predicateVocab aliases)

/-- The ends of an accepted triple are two nodes that the index gives for the raw names. -/
theorem validateTriple_ends {host : TextHost} {nodeIndex : NodeIndex}
    {chunkIdMap : Str → Option String} {predicateVocab : List Str} {aliases : Str → Option Str}
    {raw : RawTriple} {t : RelationTriple}
    (h : validateTriple host nodeIndex chunkIdMap predicateVocab aliases raw = some t) :
    ∃ source target, nodeIndex.lookup (host.toLowercase raw.fromEntity) = some source ∧
      nodeIndex.lookup (host.toLowercase raw.toEntity) = some target ∧
      source.id ≠ target.id ∧ t.fromNode = source.id ∧ t.toNode = target.id := by
  unfold validateTriple at h
  split at h
  · cases h
  · simp only [Option.bind_eq_bind, Option.bind_eq_some_iff] at h
    obtain ⟨realChunkId, _, source, hsource, target, htarget, h⟩ := h
    refine ⟨source, target, hsource, htarget, ?_⟩
    split at h
    · cases h
    · rename_i hne
      split at h
      · cases h
      · rw [Option.some.injEq] at h
        rw [← h]
        exact ⟨hne, rfl, rfl⟩

section Agreement

variable {host : TextHost} {scope : RowScope}

/-- What the index keeps of a node. -/
def EntityNodeRow.resolved (node : EntityNodeRow) : ResolvedNode where
  id := node.id
  kind := node.kind

/-- The index gives what the table gives. -/
def Agrees (index : NodeIndex) (t : NodeTable host scope) : Prop :=
  ∀ key, index.lookup key = (t.find key).map EntityNodeRow.resolved

theorem NodeTable.find_eq_none_iff (t : NodeTable host scope) (key : Str) :
    t.find key = none ↔ t.index.lookup key = none := by
  unfold NodeTable.find
  cases h : t.index.lookup key with
  | none => simp
  | some i =>
    obtain ⟨node, hnode, _⟩ := (t.found key i).mp h
    simp [hnode]

theorem NodeTable.find_push (t : NodeTable host scope) (kind : EntityKind) (name : Str)
    (definition : Option Str) (hnew : t.index.lookup (host.toLowercase name) = none) (key : Str) :
    (t.push kind name definition hnew).find key =
      if key = host.toLowercase name then some (newNode host scope kind name definition)
      else t.find key := by
  apply Option.ext
  intro node
  rw [NodeTable.find_iff]
  have hnodes : node ∈ (t.push kind name definition hnew).nodes ↔
      node ∈ t.nodes ∨ node = newNode host scope kind name definition := by
    simp [NodeTable.push]
  have hold : ∀ n ∈ t.nodes, host.toLowercase n.name ≠ host.toLowercase name := by
    intro n hn heq
    have hfind := NodeTable.find_iff.mpr ⟨hn, heq⟩
    rw [(NodeTable.find_eq_none_iff t _).mpr hnew] at hfind
    cases hfind
  rw [hnodes]
  split
  · rename_i hkey
    rw [Option.some.injEq, hkey]
    constructor
    · rintro ⟨hn | hn, hname⟩
      · exact absurd hname (hold node hn)
      · exact hn.symm
    · rintro rfl
      exact ⟨.inr rfl, rfl⟩
  · rename_i hkey
    rw [NodeTable.find_iff]
    constructor
    · rintro ⟨hn | rfl, hname⟩
      · exact ⟨hn, hname⟩
      · exact absurd hname.symm hkey
    · rintro ⟨hn, hname⟩
      exact ⟨.inl hn, hname⟩

theorem NodeTable.find_setDefinition (t : NodeTable host scope) (i : Nat) (definition key : Str) :
    ((t.setDefinition i definition).find key).map EntityNodeRow.resolved =
      (t.find key).map EntityNodeRow.resolved := by
  unfold NodeTable.find NodeTable.setDefinition
  dsimp only
  cases t.index.lookup key with
  | none => rfl
  | some j =>
    rw [Option.bind_some, Option.bind_some, List.getElem?_modify]
    cases t.nodes[j]? with
    | none => rfl
    | some node =>
      obtain ⟨_, hid, hkind⟩ := NodeTable.fillDefinition_keeps definition node
      by_cases hij : i = j
      · simp [hij, EntityNodeRow.resolved, hid, hkind]
      · simp [hij]

theorem Agrees.push {index : NodeIndex} {t : NodeTable host scope} (h : Agrees index t)
    (kind : EntityKind) (name : Str) (definition : Option Str)
    (hnew : t.index.lookup (host.toLowercase name) = none) :
    Agrees (indexName host scope.sourceId kind index name) (t.push kind name definition hnew) := by
  intro key
  have hnone : index.lookup (host.toLowercase name) = none := by
    rw [h, (NodeTable.find_eq_none_iff t _).mpr hnew]
    rfl
  unfold indexName NodeIndex.orInsert
  dsimp only
  rw [hnone, NodeTable.find_push, List.lookup_cons]
  by_cases hkey : key = host.toLowercase name
  · rw [if_pos hkey, beq_iff_eq.mpr hkey]
    rfl
  · rw [if_neg hkey, beq_eq_false_iff_ne.mpr hkey]
    exact h key

theorem Agrees.indexName_of_found {index : NodeIndex} {t : NodeTable host scope}
    (h : Agrees index t) (kind : EntityKind) {name : Str} {i : Nat}
    (hfound : t.index.lookup (host.toLowercase name) = some i) :
    indexName host scope.sourceId kind index name = index := by
  obtain ⟨node, hnode, _⟩ := (t.found _ i).mp hfound
  have hfind : t.find (host.toLowercase name) = some node := by
    unfold NodeTable.find
    rw [hfound]
    exact hnode
  unfold indexName NodeIndex.orInsert
  dsimp only
  rw [h, hfind]
  rfl

theorem Agrees.insertNew {index : NodeIndex} {t : NodeTable host scope} (h : Agrees index t)
    (kind : EntityKind) (name : Str) :
    Agrees (indexName host scope.sourceId kind index name) (t.insertNew kind name) := by
  unfold NodeTable.insertNew
  split
  · rename_i i hfound
    rw [h.indexName_of_found kind hfound]
    exact h
  · rename_i hnew
    exact h.push kind name none hnew

theorem Agrees.define {index : NodeIndex} {t : NodeTable host scope} (h : Agrees index t)
    (definition : Definition) :
    Agrees (indexName host scope.sourceId .concept index definition.term) (t.define definition) := by
  unfold NodeTable.define
  split
  · rename_i i hfound
    rw [h.indexName_of_found .concept hfound]
    intro key
    rw [NodeTable.find_setDefinition]
    exact h key
  · rename_i hnew
    exact h.push .concept definition.term (some definition.definition) hnew

theorem buildNodeIndex_agrees (entities : List Str) (definitions : List Definition)
    (dates : List Str) : Agrees (buildNodeIndex host scope.sourceId entities definitions dates)
      (buildNodes host scope entities definitions dates) := by
  unfold buildNodeIndex buildNodes
  dsimp only
  rw [List.foldl_map]
  have hempty : Agrees [] (NodeTable.empty : NodeTable host scope) := fun _ => rfl
  apply foldl_simulates (fun h definition => h.define definition)
  apply foldl_simulates (fun h date => h.insertNew .date date)
  exact foldl_simulates (fun h entity => h.insertNew .concept entity) entities hempty

/-- The index of the relation pass knows the nodes that the builder writes, so that the ends of
every accepted triple are among them. -/
theorem buildNodeIndex_of_buildEntityGraphRows (ids : Nat → String)
    (chunks : List EnrichmentChunk) (entities : List Str) (definitions : List Definition)
    (dates : List Str) (corefSubs : Nat → Option (List CorefSub)) (maxEntitiesPerChunk : Nat) :
    let rows := buildEntityGraphRows host scope ids chunks entities definitions dates corefSubs
      maxEntitiesPerChunk
    let index := buildNodeIndex host scope.sourceId entities definitions dates
    (∀ key resolved, index.lookup key = some resolved ↔ ∃ node ∈ rows.nodes,
      host.toLowercase node.name = key ∧ resolved.id = node.id ∧ resolved.kind = node.kind) ∧
    ∀ raw chunkIdMap predicateVocab aliases,
      ∀ t ∈ validateTriples host raw index chunkIdMap predicateVocab aliases,
        (∃ node ∈ rows.nodes, t.fromNode = node.id) ∧ ∃ node ∈ rows.nodes, t.toNode = node.id := by
  intro rows index
  have hagrees : Agrees index (buildNodes host scope entities definitions dates) :=
    buildNodeIndex_agrees entities definitions dates
  have hiff : ∀ key resolved, index.lookup key = some resolved ↔ ∃ node ∈ rows.nodes,
      host.toLowercase node.name = key ∧ resolved.id = node.id ∧ resolved.kind = node.kind := by
    intro key resolved
    rw [hagrees, Option.map_eq_some_iff]
    simp only [NodeTable.find_iff, and_assoc]
    constructor
    · rintro ⟨node, hmem, hname, rfl⟩
      exact ⟨node, hmem, hname, rfl, rfl⟩
    · rintro ⟨node, hmem, hname, hid, hkind⟩
      obtain ⟨id, kind⟩ := resolved
      simp only at hid hkind
      subst hid hkind
      exact ⟨node, hmem, hname, rfl⟩
  refine ⟨hiff, ?_⟩
  intro raw chunkIdMap predicateVocab aliases t ht
  obtain ⟨r, _, hr⟩ := List.mem_filterMap.mp ht
  obtain ⟨source, target, hsource, htarget, _, hfrom, hto⟩ := validateTriple_ends hr
  obtain ⟨a, ha, _, hida, _⟩ := (hiff _ source).mp hsource
  obtain ⟨b, hb, _, hidb, _⟩ := (hiff _ target).mp htarget
  exact ⟨⟨a, ha, hfrom.trans hida⟩, b, hb, hto.trans hidb⟩

end Agreement

end LensLM
