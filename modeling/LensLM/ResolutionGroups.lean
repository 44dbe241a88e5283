import LensLM.Resolution
import LensLM.Lib.Slots
import Mathlib.Tactic.NormNum
import Mathlib.Tactic.Push
import Mathlib.Data.Char
import Mathlib.Data.List.Lex

/-!
# The groups that the resolution writes

Every edge of the cascade meets the write bar, so that no member of a group is left out.
-/

namespace LensLM

open ByteText Grouping LinkForest Effects Outcome

set_option autoImplicit false

section Cutoffs

theorem Conf.ofRat_le {p q : ℚ} : Conf.ofRat p ≤ Conf.ofRat q ↔ p ≤ q := by
  unfold Conf.ofRat
  rw [WithBot.coe_le_coe, WithTop.coe_le_coe]

theorem writeConfidenceBar_le_one : writeConfidenceBar ≤ .ofRat 1 := by
  unfold writeConfidenceBar
  rw [Conf.ofRat_le]
  norm_num

theorem writeConfidenceBar_le_autoMerge : writeConfidenceBar ≤ tier2AutoMergeSim := by
  unfold writeConfidenceBar tier2AutoMergeSim
  rw [Conf.ofRat_le]
  norm_num

end Cutoffs

section Accepted

variable {ε σ V D : Type} (input : ResolveInput ε σ V D)

/-- The store can answer the query of node `i` with node `j`, at a distance. -/
def Neighbor (i j : input.Node) (d : D) : Prop :=
  ∃ query s neighbors id, input.vectors (input.nodes.get i).id = some query ∧
    (input.entityAnn query tier2AnnK (input.nodes.get i).kind).result s = .ok neighbors ∧
    (id, d) ∈ neighbors ∧ indexById input id = some j

/-- The cache or the model can judge two nodes the same, with a confidence. -/
def JudgedSame (i j : input.Node) (c : Conf) : Prop :=
  let key := adjudicationKey input.toLowercase (input.nodes.get i) (input.nodes.get j)
  (∃ s, (input.cacheGet key input.promptVersion).result s = .ok (some (true, some c))) ∨
    ∃ s sim, (input.adjudicateViaLlm (input.nodes.get i) (input.nodes.get j) sim key).result s =
      .ok (.verdict true (some c))

/-- The joins that the tiers make. -/
inductive Accepted : input.Node × input.Node × Conf → Prop where
  | exact {i j : input.Node} : (input.nodes.get i).kind = (input.nodes.get j).kind →
      normalizeName input.toLowercase (input.nodes.get i).name =
        normalizeName input.toLowercase (input.nodes.get j).name → Accepted (i, j, .ofRat 1)
  | coref {a b : String} {i j : input.Node} : (a, b) ∈ input.corefPairs →
      indexById input a = some i → indexById input b = some j → Accepted (i, j, .ofRat 1)
  | similar {i j : input.Node} {d : D} {sim : Conf} : Neighbor input i j d →
      input.similarity d = some sim → tier2AutoMergeSim ≤ sim → Accepted (i, j, sim)
  | judged {i j : input.Node} {d : D} {c : Conf} : Neighbor input i j d ∨ Neighbor input j i d →
      JudgedSame input i j c → writeConfidenceBar ≤ c → Accepted (i, j, c)

variable {input}

theorem Accepted.bar_le {op : input.Node × input.Node × Conf} (h : Accepted input op) :
    writeConfidenceBar ≤ op.2.2 := by
  cases h with
  | exact _ _ => exact writeConfidenceBar_le_one
  | coref _ _ _ => exact writeConfidenceBar_le_one
  | similar _ _ hsim => exact le_trans writeConfidenceBar_le_autoMerge hsim
  | judged _ _ hbar => exact hbar

/-- A structure that accepted joins have made. -/
def Built (uf : input.Sets) : Prop :=
  ∃ ops, (∀ op ∈ ops, Accepted input op) ∧ uf = UnionFind.unions input.nodes.length ops

theorem built_new : Built (UnionFind.new input.nodes.length Conf : input.Sets) :=
  ⟨[], by simp, rfl⟩

theorem Built.union {uf : input.Sets} {i j : input.Node} {c : Conf} (h : Built uf)
    (hacc : Accepted input (i, j, c)) : Built (uf.union i j c) := by
  obtain ⟨ops, hops, rfl⟩ := h
  refine ⟨ops ++ [(i, j, c)], ?_, (UnionFind.unions_concat ops i j c).symm⟩
  exact Slots.forall_mem_push hops hacc

/-- The map holds every key with a node of that key. -/
def KeysOf (first : input.FirstOfKey) : Prop :=
  ∀ key i, (key, i) ∈ first →
    key = (normalizeName input.toLowercase (input.nodes.get i).name, (input.nodes.get i).kind)

theorem Built.exactStep {acc : input.Sets × input.FirstOfKey}
    (h : Built acc.1 ∧ KeysOf acc.2) (i : input.Node) :
    Built (exactStep input acc i).1 ∧ KeysOf (exactStep input acc i).2 := by
  obtain ⟨huf, hseen⟩ := h
  unfold LensLM.exactStep
  dsimp only
  split
  · rename_i first hfirst
    obtain ⟨pre, post, hsplit, _⟩ := List.lookup_eq_some_iff.mp hfirst
    have hkey := hseen _ first (hsplit ▸ List.mem_append_right pre List.mem_cons_self)
    rw [Prod.mk.injEq] at hkey
    exact ⟨huf.union (.exact hkey.2.symm hkey.1.symm), hseen⟩
  · refine ⟨huf, ?_⟩
    intro key j hj
    cases List.mem_cons.mp hj with
    | inl hj =>
      rw [Prod.mk.injEq] at hj
      rw [hj.1, hj.2]
      rfl
    | inr hj => exact hseen key j hj

theorem Built.tier1Exact {uf : input.Sets} (h : Built uf) : Built (tier1Exact input uf) := by
  have hrun := List.foldlRecOn (motive := fun acc => Built acc.1 ∧ KeysOf acc.2)
    (List.finRange input.nodes.length) (LensLM.exactStep input) (b := (uf, []))
    ⟨h, fun _ _ hmem => by cases hmem⟩ fun acc hacc i _ => Built.exactStep hacc i
  exact hrun.1

theorem Built.tier1Coref {uf : input.Sets} (h : Built uf) : Built (tier1Coref input uf) := by
  unfold LensLM.tier1Coref
  apply List.foldlRecOn _ _ h
  intro uf huf pair hpair
  split
  · rename_i ia ib hia hib
    exact huf.union (.coref hpair hia hib)
  · exact huf

/-- What holds of the second tier on its way. -/
structure Tier2.Sound (st : Tier2 input) : Prop where
  built : Built st.uf
  candidates : ∀ i j sim, (i, j, sim) ∈ st.candidates →
    ∃ d, Neighbor input i j d ∨ Neighbor input j i d

theorem Tier2.Sound.addCandidate {st : Tier2 input} {i j : input.Node} {sim : Option Conf}
    (h : st.Sound) (hpair : ∃ d, Neighbor input i j d ∨ Neighbor input j i d) :
    (st.addCandidate (i, j) sim).Sound := by
  unfold Tier2.addCandidate
  split
  · exact h
  · refine ⟨h.built, ?_⟩
    intro i' j' sim' hmem
    cases List.mem_append.mp hmem with
    | inl hmem => exact h.candidates i' j' sim' hmem
    | inr hmem =>
      simp only [List.mem_singleton, Prod.mk.injEq] at hmem
      obtain ⟨rfl, rfl, _⟩ := hmem
      exact hpair

theorem Tier2.Sound.neighbor {st : Tier2 input} {i : input.Node} {id : String} {d : D}
    (h : st.Sound) (hnbr : ∀ j, indexById input id = some j → Neighbor input i j d) :
    (tier2Neighbor input i st (id, d)).Sound := by
  unfold tier2Neighbor
  dsimp only
  split
  · exact h
  · rename_i j hj
    have hij := hnbr j hj
    have hcand : ∀ sim, (st.addCandidate (if i < j then (i, j) else (j, i)) sim).Sound := by
      intro sim
      split
      · exact h.addCandidate ⟨d, .inl hij⟩
      · exact h.addCandidate ⟨d, .inr hij⟩
    split
    · exact h
    · split
      · exact h
      · split
        · rename_i sim hsim
          split
          · rename_i hmerge
            exact ⟨h.built.union (.similar hij hsim hmerge), h.candidates⟩
          · split
            · exact h
            · exact hcand _
        · exact hcand _

theorem Tier2.Sound.node {st : Tier2 input} (h : st.Sound) (i : input.Node) :
    Ensures (tier2Node input st i) Tier2.Sound := by
  unfold tier2Node
  split
  · exact ensures_pure h
  · rename_i query hquery
    apply (ensures_returned _).bind
    rintro neighbors ⟨s, hs⟩
    apply ensures_pure
    apply List.foldlRecOn _ _ h
    rintro st hst ⟨id, d⟩ hmem
    exact hst.neighbor fun j hj => ⟨query, s, neighbors, id, hquery, hs, hmem, hj⟩

theorem tier2Ann_sound {uf : input.Sets} (h : Built uf) :
    Ensures (tier2Ann input uf) Tier2.Sound := by
  apply ensures_foldlM fun _ i hst => hst.node i
  exact ⟨h, by simp⟩

theorem Built.applyVerdict {uf : input.Sets} {i j : input.Node} {d : D} {same : Bool}
    {conf : Option Conf} (h : Built uf) (hnbr : Neighbor input i j d ∨ Neighbor input j i d)
    (hjudged : ∀ c, same = true → conf = some c → JudgedSame input i j c) :
    Built (applyVerdict input uf i j same conf) := by
  unfold LensLM.applyVerdict
  split
  · rename_i c
    split
    · rename_i hc
      rw [Bool.and_eq_true, decide_eq_true_eq] at hc
      exact h.union (.judged hnbr (hjudged c hc.1 rfl) hc.2)
    · exact h
  · exact h

theorem tier3Adjudicate_built {candidates : List input.CandidatePair} {uf : input.Sets}
    (h : Built uf) (hcand : ∀ i j sim, (i, j, sim) ∈ candidates →
      ∃ d, Neighbor input i j d ∨ Neighbor input j i d) :
    Ensures (tier3Adjudicate input candidates uf) Built := by
  induction candidates generalizing uf with
  | nil => exact ensures_pure h
  | cons candidate rest ih =>
    obtain ⟨i, j, sim⟩ := candidate
    obtain ⟨d, hnbr⟩ := hcand i j sim List.mem_cons_self
    have hrest := fun i j sim hmem => hcand i j sim (List.mem_cons_of_mem _ hmem)
    unfold tier3Adjudicate
    split
    · exact ih h hrest
    · apply (ensures_returned _).bind
      rintro cached ⟨s, hs⟩
      cases cached with
      | some cached =>
        obtain ⟨same, conf⟩ := cached
        apply ih _ hrest
        apply h.applyVerdict hnbr
        rintro c rfl rfl
        exact .inl ⟨s, hs⟩
      | none =>
        apply (ensures_returned _).bind
        rintro answer ⟨t, ht⟩
        cases answer with
        | verdict same conf =>
          apply ih _ hrest
          apply h.applyVerdict hnbr
          rintro c rfl rfl
          exact .inr ⟨t, sim, ht⟩
        | skip => exact ih h hrest
        | budgetStop => exact ensures_pure h

end Accepted

section Names

/-- The longest of the names, and of these the smallest. -/
def IsCanonical (names : Str → Prop) (c : Str) : Prop :=
  names c ∧ ∀ x, names x → x.length < c.length ∨ (x.length = c.length ∧ c ≤ x)

theorem IsCanonical.unique {names : Str → Prop} {c d : Str} (hc : IsCanonical names c)
    (hd : IsCanonical names d) : c = d := by
  have hcd := hc.2 d hd.1
  have hdc := hd.2 c hc.1
  rcases hcd with hlt | ⟨heq, hle⟩
  · rcases hdc with hlt' | ⟨heq', _⟩
    · omega
    · omega
  · rcases hdc with hlt' | ⟨_, hle'⟩
    · omega
    · exact le_antisymm hle hle'

theorem nameGreater_iff {a b : Str} : nameGreater a b = true ↔
    b.length < a.length ∨ (a.length = b.length ∧ a < b) := by
  simp [nameGreater]

theorem canonicalName_isCanonical {names : List Str} (h : names ≠ []) :
    IsCanonical (· ∈ names) (canonicalName names) := by
  cases names with
  | nil => exact absurd rfl h
  | cons name names =>
    simp only [canonicalName]
    clear h
    induction names using List.reverseRecOn with
    | nil => exact ⟨by simp, by simp⟩
    | append_singleton names x ih =>
      rw [List.foldl_concat]
      obtain ⟨hmem, hbest⟩ := ih
      have hnew : ∀ y, y ∈ name :: (names ++ [x]) ↔ y ∈ name :: names ∨ y = x := by
        intro y
        simp [or_assoc]
      split
      · rename_i hgt
        refine ⟨(hnew _).mpr (.inl hmem), ?_⟩
        intro y hy
        cases (hnew y).mp hy with
        | inl hy => exact hbest y hy
        | inr hy =>
          rw [hy]
          cases nameGreater_iff.mp hgt with
          | inl hlt => exact .inl hlt
          | inr heq => exact .inr ⟨heq.1.symm, le_of_lt heq.2⟩
      · rename_i hgt
        refine ⟨(hnew _).mpr (.inr rfl), ?_⟩
        rw [nameGreater_iff, not_or, not_and, not_lt, not_lt] at hgt
        intro y hy
        cases (hnew y).mp hy with
        | inl hy =>
          -- the best so far is no better than the new name
          rcases hbest y hy with hlt | ⟨heq, hle⟩
          · exact .inl (lt_of_lt_of_le hlt hgt.1)
          · rcases Nat.lt_or_eq_of_le hgt.1 with hlt' | heq'
            · exact .inl (heq ▸ hlt')
            · exact .inr ⟨heq.trans heq', le_trans (hgt.2 heq') hle⟩
        | inr hy => exact .inr ⟨by rw [hy], le_of_eq hy.symm⟩

end Names

section Groups

variable {n : Nat}

/-- The members of the group of a node. -/
def classOf (uf : UnionFind n Conf) (i : Fin n) : List (Fin n) :=
  (List.finRange n).filter fun j => uf.find j = uf.find i

theorem mem_classOf {uf : UnionFind n Conf} (h : uf.Spanned) {i j : Fin n} :
    j ∈ classOf uf i ↔ Linked uf.edges i j := by
  simp only [classOf, List.mem_filter, List.mem_finRange, true_and, decide_eq_true_eq, h.find_iff]
  exact ⟨Linked.symm, Linked.symm⟩

theorem nodup_classOf (uf : UnionFind n Conf) (i : Fin n) : (classOf uf i).Nodup :=
  (List.nodup_finRange n).filter _

theorem two_le_length_classOf {uf : UnionFind n Conf} (h : uf.Spanned) {i : Fin n} :
    2 ≤ (classOf uf i).length ↔ ∃ j, j ≠ i ∧ Linked uf.edges i j := by
  have hself : i ∈ classOf uf i := (mem_classOf h).mpr (.refl _ _)
  constructor
  · intro hlen
    -- a class of one node is the node itself
    by_contra hnone
    push Not at hnone
    have hall : ∀ j ∈ classOf uf i, j = i := by
      intro j hj
      by_contra hne
      exact hnone j hne ((mem_classOf h).mp hj)
    have hsub : classOf uf i ⊆ [i] := fun j hj => List.mem_singleton.mpr (hall j hj)
    have hle := (List.subperm_of_subset (nodup_classOf uf i) hsub).length_le
    rw [List.length_singleton] at hle
    omega
  · rintro ⟨j, hne, hl⟩
    have hpair : [i, j].Nodup := by simpa using Ne.symm hne
    have hsub : [i, j] ⊆ classOf uf i := by
      intro x hx
      rcases List.mem_pair.mp hx with rfl | rfl
      · exact hself
      · exact (mem_classOf h).mpr hl
    exact (List.subperm_of_subset hpair hsub).length_le

theorem groupMembers_eq (uf : UnionFind n Conf) : groupMembers uf =
    ((List.finRange n).map uf.find).eraseDups.map fun k =>
      (k, (List.finRange n).filter fun i => uf.find i = k) := by
  have hsnoc : ∀ l : List (Fin n), l.foldl (fun members i => members ++ [i]) [] = l := by
    intro l
    induction l using List.reverseRecOn with
    | nil => rfl
    | append_singleton l x ih => rw [List.foldl_concat, ih]
  unfold groupMembers
  rw [group_eq]
  simp only [hsnoc]

/-- The nodes that are linked to another, class by class. -/
theorem flatMap_classes_perm {uf : UnionFind n Conf} :
    (((List.finRange n).map uf.find).eraseDups.flatMap fun k =>
      ((List.finRange n).filter fun i => uf.find i = k).filter fun i =>
        2 ≤ (classOf uf i).length).Perm
      ((List.finRange n).filter fun i => 2 ≤ (classOf uf i).length) := by
  apply (List.perm_ext_iff_of_nodup _ ((List.nodup_finRange n).filter _)).mpr
  · intro i
    simp only [List.mem_flatMap, List.mem_eraseDups, List.mem_map, List.mem_filter,
      List.mem_finRange, true_and, decide_eq_true_eq]
    constructor
    · rintro ⟨_, _, _, hlen⟩
      exact hlen
    · intro hlen
      exact ⟨uf.find i, ⟨i, rfl⟩, rfl, hlen⟩
  · rw [List.nodup_flatMap]
    refine ⟨fun k _ => ((List.nodup_finRange n).filter _).filter _, ?_⟩
    refine (nodup_eraseDups ((List.finRange n).map uf.find)).imp ?_
    intro k l hkl i hi hi'
    simp only [List.mem_filter, List.mem_finRange, true_and, decide_eq_true_eq] at hi hi'
    exact hkl (hi.1.symm.trans hi'.1)

/-- A path over links that meet a bound meets it. -/
theorem WeakestPath.bound_le {es : List (Fin n × Fin n × Conf)} {a v : Fin n} {p : List (Fin n)}
    {b m : Conf} (hes : ∀ e ∈ es, b ≤ e.2.2) (h : WeakestPath es a p v m) : b ≤ m := by
  induction h with
  | start => exact le_top
  | step _ hj _ ih =>
    apply le_min ih
    cases hj with
    | inl hj => exact hes _ hj
    | inr hj => exact hes _ hj

theorem MemberConf.bound_le {es : List (Fin n × Fin n × Conf)} {first v : Fin n} {b c : Conf}
    (hes : ∀ e ∈ es, b ≤ e.2.2) (h : MemberConf es first v c) : b ≤ c := by
  unfold MemberConf at h
  split at h
  · obtain ⟨w, p, _, hp⟩ := h.1
    exact WeakestPath.bound_le hes hp
  · obtain ⟨p, hp⟩ := h
    exact WeakestPath.bound_le hes hp

theorem edges_unions_subset {κ : Type} (ops : List (Fin n × Fin n × κ)) :
    (UnionFind.unions n ops).edges ⊆ ops := by
  induction ops using List.reverseRecOn with
  | nil => exact List.nil_subset _
  | append_singleton ops op ih =>
    obtain ⟨a, b, conf⟩ := op
    rw [UnionFind.unions_concat]
    cases (UnionFind.unions n ops).union_cases a b conf with
    | inl h =>
      rw [h.2]
      exact fun e he => List.mem_append_left _ (ih he)
    | inr h =>
      rw [h.2.1]
      intro e he
      cases List.mem_append.mp he with
      | inl he => exact List.mem_append_left _ (ih he)
      | inr he => exact List.mem_append_right _ he

end Groups

section Updates

variable {nodes : List EntityNode} {uf : UnionFind nodes.length Conf}

def memberConfidence {n : Nat} (uf : UnionFind n Conf) (i : Fin n) : Conf :=
  (nodeConfidences uf i).getD (.ofRat 0)

def classNames (nodes : List EntityNode) (uf : UnionFind nodes.length Conf)
    (i : Fin nodes.length) : List Str :=
  (classOf uf i).map fun j => (nodes.get j).name

/-- The update of a member of a group. -/
def memberUpdate (nodes : List EntityNode) (uf : UnionFind nodes.length Conf)
    (i : Fin nodes.length) : ResolutionUpdate where
  entityNodeId := (nodes.get i).id
  canonicalName := canonicalName (classNames nodes uf i)
  resolutionConf := memberConfidence uf i

/-- No member of a group of two or more is below the bar. -/
theorem bar_le_memberConfidence (h : uf.Spanned) (hbar : ∀ e ∈ uf.edges, writeConfidenceBar ≤ e.2.2)
    {i : Fin nodes.length} (hi : 2 ≤ (classOf uf i).length) :
    writeConfidenceBar ≤ memberConfidence uf i := by
  obtain ⟨j, hne, hl⟩ := (two_le_length_classOf h).mp hi
  obtain ⟨first, c, _, _, hc, hm⟩ := nodeConfidences_memberConf h.forest hl (Ne.symm hne)
  unfold memberConfidence
  rw [hc, Option.getD_some]
  exact hm.bound_le hbar

theorem groupUpdates_eq (h : uf.Spanned) (hbar : ∀ e ∈ uf.edges, writeConfidenceBar ≤ e.2.2)
    (k : Fin nodes.length) :
    groupUpdates nodes uf ((List.finRange nodes.length).filter fun i => uf.find i = k) =
      (((List.finRange nodes.length).filter fun i => uf.find i = k).filter fun i =>
        2 ≤ (classOf uf i).length).map (memberUpdate nodes uf) := by
  have hclass : ∀ i ∈ (List.finRange nodes.length).filter fun i => uf.find i = k,
      classOf uf i = (List.finRange nodes.length).filter fun i => uf.find i = k := by
    intro i hi
    have hik : uf.find i = k := by simpa using hi
    unfold classOf
    rw [hik]
  unfold groupUpdates
  generalize (List.finRange nodes.length).filter (fun i => uf.find i = k) = members at hclass ⊢
  split
  · rename_i hlen
    rw [List.filter_eq_nil_iff.mpr, List.map_nil]
    intro i hi
    rw [hclass i hi]
    simpa using hlen
  · rename_i hlen
    have hall : members.filter (fun i => 2 ≤ (classOf uf i).length) = members := by
      rw [List.filter_eq_self]
      intro i hi
      rw [hclass i hi, decide_eq_true_eq]
      omega
    have hmap : members.map (memberUpdate nodes uf) =
        members.filterMap fun i => some (memberUpdate nodes uf i) :=
      (congrFun List.filterMap_eq_map members).symm
    rw [hall, hmap]
    dsimp only
    apply List.filterMap_congr
    intro i hi
    have hi2 : 2 ≤ (classOf uf i).length := by
      rw [hclass i hi]
      omega
    have hconf := bar_le_memberConfidence h hbar hi2
    unfold memberConfidence at hconf
    simp only [memberUpdate, classNames, memberConfidence, hclass i hi, if_pos hconf]
    rfl

theorem assignCanonical_perm (order : IterationOrder) (h : uf.Spanned)
    (hbar : ∀ e ∈ uf.edges, writeConfidenceBar ≤ e.2.2) :
    (assignCanonical order nodes uf).Perm
      (((List.finRange nodes.length).filter fun i => 2 ≤ (classOf uf i).length).map
        (memberUpdate nodes uf)) := by
  have hflat : (groupMembers uf).flatMap (fun g => groupUpdates nodes uf g.2) =
      (((List.finRange nodes.length).map uf.find).eraseDups.flatMap fun k =>
        ((List.finRange nodes.length).filter fun i => uf.find i = k).filter fun i =>
          2 ≤ (classOf uf i).length).map (memberUpdate nodes uf) := by
    rw [groupMembers_eq, List.flatMap_map, List.map_flatMap]
    simp only [groupUpdates_eq h hbar]
  have horder := (order.perm (groupMembers uf)).flatMap_right fun g => groupUpdates nodes uf g.2
  rw [hflat] at horder
  exact horder.trans (flatMap_classes_perm.map _)

/-- One update for every node that is linked to another: the canonical name of its group, and
the confidence of its path in a spanning forest of the accepted pairs. -/
structure GroupsWritten (nodes : List EntityNode)
    (pairs links : List (Fin nodes.length × Fin nodes.length × Conf))
    (updates : List ResolutionUpdate) (members : List (Fin nodes.length))
    (name : Fin nodes.length → Str) (conf : Fin nodes.length → Conf) : Prop where
  nodup : members.Nodup
  grouped : ∀ i, i ∈ members ↔ ∃ j, j ≠ i ∧ Linked pairs i j
  updates : updates.Perm (members.map fun i =>
    { entityNodeId := (nodes.get i).id, canonicalName := name i, resolutionConf := conf i })
  canonical : ∀ i, IsCanonical (fun x => ∃ j, Linked pairs i j ∧ (nodes.get j).name = x) (name i)
  sameName : ∀ i j, Linked pairs i j → name i = name j
  forest : Forest links ∧ links ⊆ pairs ∧ ∀ i j, Linked links i j ↔ Linked pairs i j
  confidence : ∀ i ∈ members, ∃ first, IsFirst links first ∧ Linked links first i ∧
    MemberConf links first i (conf i)
  bar : ∀ i ∈ members, writeConfidenceBar ≤ conf i

theorem groupsWritten_assignCanonical (order : IterationOrder)
    {pairs : List (Fin nodes.length × Fin nodes.length × Conf)}
    (hbar : ∀ p ∈ pairs, writeConfidenceBar ≤ p.2.2) :
    GroupsWritten nodes pairs (UnionFind.unions nodes.length pairs).edges
      (assignCanonical order nodes (UnionFind.unions nodes.length pairs))
      ((List.finRange nodes.length).filter fun i =>
        2 ≤ (classOf (UnionFind.unions nodes.length pairs) i).length)
      (fun i => canonicalName (classNames nodes (UnionFind.unions nodes.length pairs) i))
      (memberConfidence (UnionFind.unions nodes.length pairs)) := by
  have hspan := UnionFind.spanned_unions pairs
  have hsub := edges_unions_subset pairs
  have hlinked : ∀ i j, Linked (UnionFind.unions nodes.length pairs).edges i j ↔
      Linked pairs i j := by
    intro i j
    rw [← hspan.find_iff, UnionFind.find_unions_iff]
  have hname : ∀ i, IsCanonical (fun x => ∃ j, Linked pairs i j ∧ nodes[j].name = x)
      (canonicalName (classNames nodes (UnionFind.unions nodes.length pairs) i)) := by
    intro i
    have hne : classNames nodes (UnionFind.unions nodes.length pairs) i ≠ [] := by
      unfold classNames
      rw [ne_eq, List.map_eq_nil_iff]
      exact List.ne_nil_of_mem ((mem_classOf hspan).mpr (.refl _ i))
    have hcanon := canonicalName_isCanonical hne
    have hmem : (· ∈ classNames nodes (UnionFind.unions nodes.length pairs) i) =
        fun x => ∃ j, Linked pairs i j ∧ nodes[j].name = x := by
      ext x
      simp only [classNames, List.mem_map, mem_classOf hspan, hlinked]
      rfl
    rwa [hmem] at hcanon
  constructor
  case nodup => exact (List.nodup_finRange _).filter _
  case grouped =>
    intro i
    simp only [List.mem_filter, List.mem_finRange, true_and, decide_eq_true_eq,
      two_le_length_classOf hspan, hlinked]
  case updates => exact assignCanonical_perm order hspan fun e he => hbar e (hsub he)
  case canonical => exact hname
  case sameName =>
    intro i j hij
    apply (hname i).unique
    have hgroup : (fun x => ∃ k, Linked pairs i k ∧ nodes[k].name = x) =
        fun x => ∃ k, Linked pairs j k ∧ nodes[k].name = x := by
      ext x
      exact exists_congr fun k => and_congr_left fun _ => ⟨hij.symm.trans, hij.trans⟩
    rw [hgroup]
    exact hname j
  case forest => exact ⟨hspan.forest, hsub, hlinked⟩
  case confidence =>
    intro i hi
    have hi2 : 2 ≤ (classOf (UnionFind.unions nodes.length pairs) i).length := by simpa using hi
    obtain ⟨j, hne, hl⟩ := (two_le_length_classOf hspan).mp hi2
    obtain ⟨first, c, hf, hfi, hc, hm⟩ :=
      nodeConfidences_memberConf hspan.forest hl (Ne.symm hne)
    refine ⟨first, hf, hfi, ?_⟩
    unfold memberConfidence
    rw [hc]
    exact hm
  case bar =>
    intro i hi
    exact bar_le_memberConfidence hspan (fun e he => hbar e (hsub he)) (by simpa using hi)

end Updates

end LensLM
