import LensLM.NodeConfidences
import LensLM.Lib.Effects
import LensLM.Lib.Grouping
import LensLM.Lib.Whitespace
import Mathlib.Algebra.Order.Field.Rat
import Mathlib.Data.Rat.Defs
import Mathlib.Order.WithBot

/-!
# Cross-document entity resolution

The nodes of a notebook that name one entity are joined in three tiers: exact names and
coreference, nearest neighbours, and adjudication of the pairs in between. Every group of two
or more nodes then gets a canonical name.
-/

namespace LensLM

open ByteText Grouping LinkForest Effects Outcome

set_option autoImplicit false

inductive EntityKind where
  | concept
  | date
  | person
  | org
  | location
  | other
deriving DecidableEq, Repr

def EntityKind.asStr : EntityKind → Str
  | concept => "concept".toList
  | date => "date".toList
  | person => "person".toList
  | org => "org".toList
  | location => "location".toList
  | other => "other".toList

structure EntityNode where
  id : String
  kind : EntityKind
  name : Str
  definition : Option Str
deriving DecidableEq, Repr

/-- The exact value of a float or an infinity; NaN is apart. -/
abbrev Conf := WithBot (WithTop ℚ)

def Conf.ofRat (q : ℚ) : Conf := ((q : WithTop ℚ) : WithBot (WithTop ℚ))

def tier2AnnK : Nat := 8

/-- 0.90 as a float. -/
def tier2AutoMergeSim : Conf := .ofRat (8106479329266893 / 2 ^ 53)

/-- 0.72 as a float. -/
def tier2KeepSeparateSim : Conf := .ofRat (3242591731706757 / 2 ^ 52)

/-- 0.88 as a float. -/
def writeConfidenceBar : Conf := .ofRat (7926335344172073 / 2 ^ 53)

structure ResolutionUpdate where
  entityNodeId : String
  canonicalName : Str
  resolutionConf : Conf
deriving DecidableEq

/-- The outcome of asking the model about a pair. -/
inductive LlmVerdict where
  | verdict (same : Bool) (conf : Option Conf)
  | skip
  | budgetStop

/-- What the cascade reads, and what it asks: the vector store, the verdict cache and the
model, whose answers depend on the state of the world. -/
structure ResolveInput (ε σ V D : Type) where
  nodes : List EntityNode
  vectors : String → Option V
  entityAnn : V → Nat → EntityKind → Eff ε σ (List (String × D))
  -- `1.0 - distance as f64`
  similarity : D → Option Conf
  cacheGet : Str → String → Eff ε σ (Option (Bool × Option Conf))
  adjudicateViaLlm : EntityNode → EntityNode → Option Conf → Str → Eff ε σ LlmVerdict
  promptVersion : String
  corefPairs : List (String × String)
  toLowercase : Str → Str

def isAsciiPunctuation (c : Char) : Bool :=
  let n := c.toNat
  (33 ≤ n && n ≤ 47) || (58 ≤ n && n ≤ 64) || (91 ≤ n && n ≤ 96) || (123 ≤ n && n ≤ 126)

def splitWhitespace (s : Str) : List Str := (s.splitOnP isWhitespace).filter fun w => !w.isEmpty

def normalizeName (toLowercase : Str → Str) (name : Str) : Str :=
  let collapsed := [' '].intercalate (splitWhitespace name)
  toLowercase (collapsed.rdropWhile isAsciiPunctuation)

def adjudicationKey (toLowercase : Str → Str) (a b : EntityNode) : Str :=
  let n₁ := normalizeName toLowercase a.name
  let n₂ := normalizeName toLowercase b.name
  let names := if n₂ < n₁ then (n₂, n₁) else (n₁, n₂)
  a.kind.asStr ++ '|' :: names.1 ++ '|' :: names.2

section Tiers

variable {ε σ V D : Type} (input : ResolveInput ε σ V D)

/-- The nodes of the pass are its indices. -/
abbrev ResolveInput.Node : Type := Fin input.nodes.length

abbrev ResolveInput.Sets : Type := UnionFind input.nodes.length Conf

/-- The index map: of two nodes with one id the later is found. -/
def indexById (id : String) : Option input.Node :=
  (List.finRange input.nodes.length).reverse.find? fun i => input.nodes[i].id = id

/-- The first node of every key so far. -/
abbrev ResolveInput.FirstOfKey : Type := List ((Str × EntityKind) × input.Node)

def exactStep (acc : input.Sets × input.FirstOfKey) (i : input.Node) :
    input.Sets × input.FirstOfKey :=
  let key := (normalizeName input.toLowercase input.nodes[i].name, input.nodes[i].kind)
  match acc.2.lookup key with
  | some first => (acc.1.union first i (.ofRat 1), acc.2)
  | none => (acc.1, (key, i) :: acc.2)

/-- Nodes with one normalized name and kind, each joined to the first of them. -/
def tier1Exact (uf : input.Sets) : input.Sets :=
  ((List.finRange input.nodes.length).foldl (exactStep input) (uf, [])).1

def tier1Coref (uf : input.Sets) : input.Sets :=
  input.corefPairs.foldl (fun uf pair =>
    match indexById input pair.1, indexById input pair.2 with
    | some ia, some ib => uf.union ia ib (.ofRat 1)
    | _, _ => uf) uf

def tier1ExactAndCoref (uf : input.Sets) : input.Sets := tier1Coref input (tier1Exact input uf)

/-- A pair between the cutoffs, with its similarity. -/
abbrev ResolveInput.CandidatePair : Type := input.Node × input.Node × Option Conf

structure Tier2 where
  uf : input.Sets
  seenPairs : List (input.Node × input.Node)
  candidates : List input.CandidatePair

variable {input}

def Tier2.addCandidate (st : Tier2 input) (pair : input.Node × input.Node) (sim : Option Conf) :
    Tier2 input :=
  if pair ∈ st.seenPairs then st
  else { st with
    seenPairs := pair :: st.seenPairs
    candidates := st.candidates ++ [(pair.1, pair.2, sim)] }

variable (input)

def tier2Neighbor (i : input.Node) (st : Tier2 input) (neighbor : String × D) : Tier2 input :=
  match indexById input neighbor.1 with
  | none => st
  | some j =>
    if j = i then st
    else
      let pair := if i < j then (i, j) else (j, i)
      if st.uf.find i = st.uf.find j then st
      else match input.similarity neighbor.2 with
        | some sim =>
          if tier2AutoMergeSim ≤ sim then { st with uf := st.uf.union i j sim }
          else if sim < tier2KeepSeparateSim then st
          else st.addCandidate pair (some sim)
        -- NaN fails both comparisons
        | none => st.addCandidate pair none

def tier2Node (st : Tier2 input) (i : input.Node) : Eff ε σ (Tier2 input) :=
  match input.vectors input.nodes[i].id with
  | none => pure st
  | some query => do
    let neighbors ← input.entityAnn query tier2AnnK input.nodes[i].kind
    pure (neighbors.foldl (tier2Neighbor input i) st)

def tier2Ann (uf : input.Sets) : Eff ε σ (Tier2 input) :=
  (List.finRange input.nodes.length).foldlM (tier2Node input)
    { uf := uf, seenPairs := [], candidates := [] }

def applyVerdict (uf : input.Sets) (i j : input.Node) (same : Bool) (conf : Option Conf) :
    input.Sets :=
  match conf with
  | some c => if same && decide (writeConfidenceBar ≤ c) then uf.union i j c else uf
  | none => uf

def tier3Adjudicate : List input.CandidatePair → input.Sets → Eff ε σ input.Sets
  | [], uf => pure uf
  | (i, j, sim) :: rest, uf =>
    if uf.find i = uf.find j then tier3Adjudicate rest uf
    else do
      let key := adjudicationKey input.toLowercase input.nodes[i] input.nodes[j]
      match ← input.cacheGet key input.promptVersion with
      | some cached => tier3Adjudicate rest (applyVerdict input uf i j cached.1 cached.2)
      | none =>
        match ← input.adjudicateViaLlm input.nodes[i] input.nodes[j] sim key with
        | .verdict same conf => tier3Adjudicate rest (applyVerdict input uf i j same conf)
        | .skip => tier3Adjudicate rest uf
        | .budgetStop => pure uf

end Tiers

/-- `a` is preferred to `b`: longer, or of one length and smaller. -/
def nameGreater (a b : Str) : Bool := b.length < a.length || (a.length == b.length && a < b)

def canonicalName : List Str → Str
  | [] => []
  | name :: names => names.foldl (fun best x => if nameGreater best x then best else x) name

def groupMembers {n : Nat} (uf : UnionFind n Conf) : List (Fin n × List (Fin n)) :=
  group uf.find [] (fun members i => members ++ [i]) (List.finRange n)

/-- The updates of one group. -/
def groupUpdates (nodes : List EntityNode) (uf : UnionFind nodes.length Conf)
    (members : List (Fin nodes.length)) : List ResolutionUpdate :=
  if members.length < 2 then []
  else
    let canonical := canonicalName (members.map fun i => nodes[i].name)
    members.filterMap fun i =>
      let conf := (nodeConfidences uf i).getD (.ofRat 0)
      if writeConfidenceBar ≤ conf then
        some { entityNodeId := nodes[i].id, canonicalName := canonical, resolutionConf := conf }
      else none

/-- The groups come in the order of a hash map. -/
def assignCanonical (order : IterationOrder) (nodes : List EntityNode)
    (uf : UnionFind nodes.length Conf) : List ResolutionUpdate :=
  (order.arrange (groupMembers uf)).flatMap fun g => groupUpdates nodes uf g.2

def resolveNotebook {ε σ V D : Type} (order : IterationOrder) (input : ResolveInput ε σ V D) :
    Eff ε σ (List ResolutionUpdate) :=
  if input.nodes.isEmpty then pure []
  else do
    let uf := tier1ExactAndCoref input (UnionFind.new input.nodes.length Conf)
    let st ← tier2Ann input uf
    let uf ← tier3Adjudicate input st.candidates st.uf
    pure (assignCanonical order input.nodes uf)

end LensLM
