import LensLM.ResolutionGroups

/-!
# The typed veto

The exact tier compares kinds and the nearest neighbours are filtered by kind, but the coreference
pairs are joined as they come.
-/

namespace LensLM

open ByteText Grouping LinkForest Effects Outcome

set_option autoImplicit false

section Veto

variable {ε σ V D : Type} (input : ResolveInput ε σ V D)

/-- The sets that the three tiers leave. -/
def mergedSets : Eff ε σ input.Sets := do
  let uf := tier1ExactAndCoref input (UnionFind.new input.nodes.length Conf)
  let st ← tier2Ann input uf
  tier3Adjudicate input st.candidates st.uf

/-- The nearest-neighbour answers honour the kind filter. -/
def KindFiltered : Prop :=
  ∀ query k kind s neighbors, (input.entityAnn query k kind).result s = .ok neighbors →
    ∀ x ∈ neighbors, ∀ j, indexById input x.1 = some j → (input.nodes.get j).kind = kind

/-- No coreference pair names two nodes of different kinds. -/
def CorefsTyped : Prop :=
  ∀ pair ∈ input.corefPairs, ∀ i j, indexById input pair.1 = some i →
    indexById input pair.2 = some j → (input.nodes.get i).kind = (input.nodes.get j).kind

/-- No two nodes of different kinds are in one group. -/
def Typed (uf : input.Sets) : Prop :=
  ∀ i j, uf.find i = uf.find j → input.nodes[i].kind = input.nodes[j].kind

variable {input}

theorem Accepted.sameKind (hann : KindFiltered input) (hcoref : CorefsTyped input)
    {op : input.Node × input.Node × Conf} (h : Accepted input op) :
    input.nodes[op.1].kind = input.nodes[op.2.1].kind := by
  have hneighbor : ∀ {i j : input.Node} {d : D}, Neighbor input i j d →
      input.nodes[j].kind = input.nodes[i].kind := by
    rintro i j d ⟨query, s, neighbors, id, _, hs, hmem, hj⟩
    exact hann query _ _ s neighbors hs _ hmem j hj
  cases h with
  | exact hkind _ => exact hkind
  | coref hpair hi hj => exact hcoref _ hpair _ _ hi hj
  | similar hn _ _ => exact (hneighbor hn).symm
  | judged hn _ _ =>
    cases hn with
    | inl hn => exact (hneighbor hn).symm
    | inr hn => exact hneighbor hn

theorem Built.typed (hann : KindFiltered input) (hcoref : CorefsTyped input) {uf : input.Sets}
    (h : Built uf) : Typed input uf := by
  obtain ⟨ops, hops, rfl⟩ := h
  intro i j hij
  have hlinked := (UnionFind.find_unions_iff ops i j).mp hij
  induction hlinked with
  | rel a b hab =>
    obtain ⟨k, hk⟩ := hab
    exact (hops _ hk).sameKind hann hcoref
  | refl a => rfl
  | symm a b _ ih => exact (ih ((UnionFind.find_unions_iff ops _ _).mpr ‹_›)).symm
  | trans a b c hab hbc ihab ihbc =>
    have hab' := ihab ((UnionFind.find_unions_iff ops _ _).mpr hab)
    exact hab'.trans (ihbc ((UnionFind.find_unions_iff ops _ _).mpr hbc))

/-- Every group of `uf` is inside a group of `uf'`. -/
def Coarser (uf uf' : input.Sets) : Prop := ∀ i j, uf.find i = uf.find j → uf'.find i = uf'.find j

theorem Coarser.refl (uf : input.Sets) : Coarser uf uf := fun _ _ h => h

theorem Coarser.union {uf uf' : input.Sets} (h : Coarser uf uf') (a b : input.Node) (c : Conf) :
    Coarser uf (uf'.union a b c) := by
  intro i j hij
  rw [UnionFind.find_union_eq_iff]
  exact .inl (h i j hij)

theorem Coarser.tier1Coref {uf uf' : input.Sets} (h : Coarser uf uf') :
    Coarser uf (tier1Coref input uf') := by
  unfold LensLM.tier1Coref
  apply List.foldlRecOn _ _ h
  intro uf' huf pair _
  split
  · exact huf.union _ _ _
  · exact huf

theorem Coarser.neighbor {uf : input.Sets} {st : Tier2 input} (h : Coarser uf st.uf)
    (i : input.Node) (neighbor : String × D) :
    Coarser uf (tier2Neighbor input i st neighbor).uf := by
  have hcand : ∀ pair sim, Coarser uf (st.addCandidate pair sim).uf := by
    intro pair sim
    unfold Tier2.addCandidate
    split
    · exact h
    · exact h
  unfold tier2Neighbor
  dsimp only
  split
  · exact h
  · split
    · exact h
    · split
      · exact h
      · split
        · split
          · exact h.union _ _ _
          · split
            · exact h
            · exact hcand _ _
        · exact hcand _ _

theorem Coarser.tier2Ann {uf uf' : input.Sets} (h : Coarser uf uf') :
    Ensures (tier2Ann input uf') fun st => Coarser uf st.uf := by
  apply ensures_foldlM (I := fun st : Tier2 input => Coarser uf st.uf) _ _ h
  intro st i hst
  unfold tier2Node
  split
  · exact ensures_pure hst
  · apply (ensures_returned _).bind
    intro neighbors _
    apply ensures_pure
    apply List.foldlRecOn (motive := fun st : Tier2 input => Coarser uf st.uf) _ _ hst
    intro st hst neighbor _
    exact hst.neighbor i neighbor

theorem Coarser.applyVerdict {uf uf' : input.Sets} (h : Coarser uf uf') (i j : input.Node)
    (same : Bool) (conf : Option Conf) : Coarser uf (applyVerdict input uf' i j same conf) := by
  unfold LensLM.applyVerdict
  split
  · split
    · exact h.union _ _ _
    · exact h
  · exact h

theorem Coarser.tier3Adjudicate {uf uf' : input.Sets} (h : Coarser uf uf')
    (candidates : List input.CandidatePair) :
    Ensures (tier3Adjudicate input candidates uf') (Coarser uf) := by
  induction candidates generalizing uf' with
  | nil => exact ensures_pure h
  | cons candidate rest ih =>
    obtain ⟨i, j, sim⟩ := candidate
    unfold LensLM.tier3Adjudicate
    split
    · exact ih h
    · apply (ensures_returned _).bind
      intro cached _
      cases cached with
      | some cached => exact ih (h.applyVerdict i j _ _)
      | none =>
        apply (ensures_returned _).bind
        intro answer _
        cases answer with
        | verdict same conf => exact ih (h.applyVerdict i j _ _)
        | skip => exact ih h
        | budgetStop => exact ensures_pure h

/-- The two nodes of every coreference pair are in one group. -/
def CorefsJoined (uf : input.Sets) : Prop :=
  ∀ pair ∈ input.corefPairs, ∀ i j, indexById input pair.1 = some i →
    indexById input pair.2 = some j → uf.find i = uf.find j

theorem CorefsJoined.coarser {uf uf' : input.Sets} (h : CorefsJoined uf) (hle : Coarser uf uf') :
    CorefsJoined uf' :=
  fun pair hpair i j hi hj => hle i j (h pair hpair i j hi hj)

/-- What one pair of coreferent nodes does to the groups. -/
def corefStep (input : ResolveInput ε σ V D) (uf : input.Sets) (pair : String × String) :
    input.Sets :=
  match indexById input pair.1, indexById input pair.2 with
  | some ia, some ib => uf.union ia ib (.ofRat 1)
  | _, _ => uf

theorem corefsJoined_tier1Coref (uf : input.Sets) : CorefsJoined (tier1Coref input uf) := by
  -- after a prefix of the pairs, the pairs of the prefix are joined
  have hrun : ∀ (pairs : List (String × String)) (uf : input.Sets), ∀ pair ∈ pairs, ∀ i j,
      indexById input pair.1 = some i → indexById input pair.2 = some j →
      (pairs.foldl (corefStep input) uf).find i = (pairs.foldl (corefStep input) uf).find j := by
    intro pairs
    induction pairs using List.reverseRecOn with
    | nil =>
      intro uf pair hpair
      cases hpair
    | append_singleton pairs last ih =>
      intro uf pair hpair i j hi hj
      simp only [List.foldl_concat]
      cases List.mem_append.mp hpair with
      | inl hpair =>
        have hij := ih uf pair hpair i j hi hj
        unfold corefStep
        split
        · rw [UnionFind.find_union_eq_iff]
          exact .inl hij
        · exact hij
      | inr hpair =>
        rw [List.mem_singleton.mp hpair] at hi hj
        unfold corefStep
        rw [hi, hj]
        dsimp only
        rw [UnionFind.find_union_eq_iff]
        exact .inr (.inl ⟨rfl, rfl⟩)
  exact hrun input.corefPairs uf

theorem mergedSets_built : Ensures (mergedSets input) Built := by
  apply (tier2Ann_sound built_new.tier1Exact.tier1Coref).bind
  intro st hst
  exact tier3Adjudicate_built hst.built hst.candidates

theorem mergedSets_corefsJoined : Ensures (mergedSets input) CorefsJoined := by
  have hjoined : CorefsJoined
      (tier1ExactAndCoref input (UnionFind.new input.nodes.length Conf)) :=
    corefsJoined_tier1Coref _
  apply (Coarser.tier2Ann (Coarser.refl _)).bind
  intro st hst
  apply (hst.tier3Adjudicate st.candidates).mono
  intro uf huf
  exact hjoined.coarser huf

theorem assignCanonical_nil (order : IterationOrder) (uf : UnionFind 0 Conf) :
    assignCanonical order [] uf = [] := by
  unfold assignCanonical
  have hnone : order.arrange (groupMembers uf) = [] := (order.perm []).eq_nil
  rw [hnone]
  rfl

/-- The pass names the groups of the merged sets. -/
theorem resolveNotebook_eq (order : IterationOrder) : resolveNotebook order input =
    mergedSets input >>= fun uf => pure (assignCanonical order input.nodes uf) := by
  unfold resolveNotebook
  split
  · rename_i hempty
    obtain ⟨nodes, vectors, ann, sim, get, ask, version, corefs, lower⟩ := input
    cases nodes with
    | nil =>
      simp only [assignCanonical_nil]
      rfl
    | cons node nodes => cases hempty
  · unfold mergedSets
    simp only [bind_assoc]

/-- The groups that a pass leaves are of one kind each, exactly when every coreference pair is. -/
theorem resolveNotebook_typed_iff (order : IterationOrder) (h : KindFiltered input) :
    (resolveNotebook order input =
      mergedSets input >>= fun uf => pure (assignCanonical order input.nodes uf)) ∧
    Ensures (mergedSets input) fun uf => Typed input uf ↔ CorefsTyped input := by
  refine ⟨resolveNotebook_eq order, ?_⟩
  apply (mergedSets_built.and mergedSets_corefsJoined).mono
  rintro uf ⟨hbuilt, hjoined⟩
  constructor
  · intro htyped pair hpair i j hi hj
    exact htyped i j (hjoined pair hpair i j hi hj)
  · intro hcoref
    exact hbuilt.typed h hcoref

end Veto

section OfTwoKinds

/-- A person and a company, given as one thing by a coreference pair. -/
def corefOfTwoKinds : ResolveInput Unit Unit Unit Unit where
  nodes := [⟨"a", .person, "Ford".toList, none⟩, ⟨"b", .org, "Ford".toList, none⟩]
  vectors := fun _ => none
  entityAnn := fun _ _ _ => pure []
  similarity := fun _ => none
  cacheGet := fun _ _ => pure none
  adjudicateViaLlm := fun _ _ _ _ => pure .skip
  promptVersion := "1"
  corefPairs := [("a", "b")]
  toLowercase := id

theorem corefOfTwoKinds_kindFiltered : KindFiltered corefOfTwoKinds := by
  intro query k kind s neighbors hs x hx
  have hnil : neighbors = [] := (Except.ok.inj hs).symm
  rw [hnil] at hx
  cases hx

theorem resolveNotebook_typed_iff_two :
    (resolveNotebook ⟨fun l => l, fun l => .refl l⟩ corefOfTwoKinds =
      mergedSets corefOfTwoKinds >>= fun uf =>
        pure (assignCanonical ⟨fun l => l, fun l => .refl l⟩ corefOfTwoKinds.nodes uf)) ∧
    Ensures (mergedSets corefOfTwoKinds) fun uf =>
      Typed corefOfTwoKinds uf ↔ CorefsTyped corefOfTwoKinds :=
  resolveNotebook_typed_iff _ corefOfTwoKinds_kindFiltered

theorem corefOfTwoKinds_merged : KindFiltered corefOfTwoKinds ∧
    ∃ uf, (mergedSets corefOfTwoKinds).result () = .ok uf ∧
      ∃ i j : corefOfTwoKinds.Node, uf.find i = uf.find j ∧
        corefOfTwoKinds.nodes[i].kind ≠ corefOfTwoKinds.nodes[j].kind := by
  refine ⟨corefOfTwoKinds_kindFiltered, _, rfl, (0 : Fin 2), (1 : Fin 2), ?_, by decide⟩
  exact corefsJoined_tier1Coref _ ("a", "b") (by decide) _ _ (by decide) (by decide)

end OfTwoKinds

end LensLM
