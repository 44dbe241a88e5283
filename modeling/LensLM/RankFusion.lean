import LensLM.Lib.FirstSeen
import LensLM.Router
import Mathlib.Algebra.Order.BigOperators.Group.List
import Mathlib.Algebra.Order.Field.Basic
import Mathlib.Algebra.Order.Field.Rat
import Mathlib.Order.Bounds.Basic
import Mathlib.Tactic.Linarith

/-!
# Fused rankings

The hits of several ranked lists are merged by id in a map, and sorted by score. An id comes by the
place where it was first seen among those of its score, so that the map's own order is lost.
-/

namespace LensLM

open FirstSeen Grouping Ranking

set_option autoImplicit false

section Pairs

variable {κ : Type} [LinearOrder κ]

/-- The best confidence of an id, and its number. -/
abbrev Best (κ : Type) := κ × Nat

def insertBest (best : List (String × Best κ) × Nat) (p : String × κ) :
    List (String × Best κ) × Nat :=
  record Prod.fst (fun seen p => (p.2, seen)) (fun v p => (max v.1 p.2, v.2)) best p

/-- The evidence comes with the fixed confidence `one`. -/
def mergeRankedPairs (order : IterationOrder) (one : κ) (evidence : List String)
    (expansion : List (String × κ)) (k : Nat) : List (String × κ) :=
  let best := evidence.foldl (fun best chunkId => insertBest best (chunkId, one)) ([], 0)
  let best := expansion.foldl insertBest best
  let ranked := standings Prod.fst Prod.snd (order.arrange best.1)
  (ranked.take k).map fun e => (e.1, e.2.1)

/-- All pairs in the order in which they are seen. -/
def seenPairs (one : κ) (evidence : List String) (expansion : List (String × κ)) :
    List (String × κ) := evidence.map (fun chunkId => (chunkId, one)) ++ expansion

def bestOf (pairs : List (String × κ)) : List (String × Best κ) :=
  (recorded Prod.fst (fun seen p => (p.2, seen)) (fun v p => (max v.1 p.2, v.2)) pairs).1

theorem mergeRankedPairs_eq (order : IterationOrder) (one : κ) (evidence : List String)
    (expansion : List (String × κ)) (k : Nat) :
    mergeRankedPairs order one evidence expansion k =
      ((standings Prod.fst Prod.snd (order.arrange (bestOf (seenPairs one evidence expansion)))).map
        fun e => (e.1, e.2.1)).take k := by
  unfold mergeRankedPairs bestOf recorded seenPairs
  rw [List.foldl_append, List.foldl_map, List.map_take]
  rfl

/-- An entry holds the highest confidence of its id and its number among the ids. -/
theorem bestOf_spec {pairs : List (String × κ)} {id : String} {v : Best κ}
    (h : (id, v) ∈ bestOf pairs) :
    IsGreatest {c | (id, c) ∈ pairs} v.1 ∧ v.2 = ordinal (pairs.map Prod.fst) id := by
  apply recorded_induction (P := fun pairs id v => IsGreatest {c | (id, c) ∈ pairs} v.1 ∧
    v.2 = ordinal (pairs.map Prod.fst) id) _ _ _ h
  · intro pairs p hnew
    refine ⟨⟨List.mem_append_right _ List.mem_cons_self, ?_⟩, rfl⟩
    intro c hc
    rcases List.mem_append.mp hc with hc | hc
    · exact absurd (List.mem_map_of_mem hc) hnew
    · rw [← List.mem_singleton.mp hc]
  · intro pairs p v hseen hv
    obtain ⟨⟨hmem, hub⟩, hnumber⟩ := hv
    refine ⟨⟨?_, ?_⟩, ?_⟩
    · rcases max_choice v.1 p.2 with heq | heq
      · rw [heq]
        exact List.mem_append_left _ hmem
      · rw [heq]
        exact List.mem_append_right _ List.mem_cons_self
    · intro c hc
      rcases List.mem_append.mp hc with hc | hc
      · exact le_trans (hub hc) (le_max_left _ _)
      · rw [← List.mem_singleton.mp hc]
        exact le_max_right _ _
    · rw [hnumber, List.map_append, List.map_singleton, ordinal_concat_of_mem hseen]
  · intro pairs p id v hne hseen hv
    obtain ⟨⟨hmem, hub⟩, hnumber⟩ := hv
    refine ⟨⟨List.mem_append_left _ hmem, ?_⟩, ?_⟩
    · intro c hc
      rcases List.mem_append.mp hc with hc | hc
      · exact hub hc
      · exact absurd (congrArg Prod.fst (List.mem_singleton.mp hc)) hne
    · rw [hnumber, List.map_append, List.map_singleton, ordinal_concat_of_mem hseen]

theorem mem_ids_of_mem_bestOf {pairs : List (String × κ)} {e : String × Best κ}
    (h : e ∈ bestOf pairs) : e.1 ∈ pairs.map Prod.fst :=
  mem_keys_recorded.mp (List.mem_map_of_mem h)

theorem nodup_bestOf_numbers (pairs : List (String × κ)) :
    ((bestOf pairs).map fun e => e.2.2).Nodup :=
  nodup_numbers (nodup_recorded pairs) (fun _ => mem_ids_of_mem_bestOf) fun _ he =>
    (bestOf_spec he).2

/-- The first of the distinct ids with the highest confidence seen for each, the more confident
before the others and then the one seen first, whatever the order of the map. -/
theorem mergeRankedPairs_best (order : IterationOrder) (one : κ) (evidence : List String)
    (expansion : List (String × κ)) (k : Nat) :
    (∃ ranked : List (String × κ), mergeRankedPairs order one evidence expansion k = ranked.take k ∧
      (ranked.map Prod.fst).Nodup ∧
      (∀ id, id ∈ ranked.map Prod.fst ↔
        id ∈ (seenPairs one evidence expansion).map Prod.fst) ∧
      (∀ p ∈ ranked, IsGreatest {c | (p.1, c) ∈ seenPairs one evidence expansion} p.2) ∧
      ranked.Pairwise fun p q => q.2 < p.2 ∨ (p.2 = q.2 ∧
        ((seenPairs one evidence expansion).map Prod.fst).idxOf p.1 <
          ((seenPairs one evidence expansion).map Prod.fst).idxOf q.1)) ∧
    ∀ other : IterationOrder, mergeRankedPairs other one evidence expansion k =
      mergeRankedPairs order one evidence expansion k := by
  generalize hpairs : seenPairs one evidence expansion = pairs
  have hnumbers := nodup_bestOf_numbers pairs
  have harranged : ∀ o : IterationOrder,
      ((o.arrange (bestOf pairs)).map fun e => e.2.2).Nodup := fun o =>
    ((o.perm (bestOf pairs)).map _).nodup_iff.mpr hnumbers
  have hperm : (standings Prod.fst Prod.snd (order.arrange (bestOf pairs))).Perm (bestOf pairs) :=
    (standings_perm _).trans (order.perm _)
  constructor
  · refine ⟨_, by rw [mergeRankedPairs_eq, hpairs], ?_, ?_, ?_, ?_⟩
    · rw [List.map_map]
      exact (hperm.map Prod.fst).nodup_iff.mpr (nodup_recorded pairs)
    · intro id
      rw [List.map_map]
      exact ((hperm.map Prod.fst).mem_iff).trans mem_keys_recorded
    · intro p hp
      obtain ⟨e, he, rfl⟩ := List.mem_map.mp hp
      exact (bestOf_spec (hperm.mem_iff.mp he)).1
    · apply List.pairwise_map.mpr
      apply List.Pairwise.imp_of_mem _ (standings_pairwise (harranged order))
      intro d e hd he hde
      have hdm := hperm.mem_iff.mp hd
      have hem := hperm.mem_iff.mp he
      rcases hde with hlt | ⟨heq, hlt⟩
      · exact .inl hlt
      · right
        rw [(bestOf_spec hdm).2, (bestOf_spec hem).2] at hlt
        exact ⟨heq, (ordinal_lt_iff (mem_ids_of_mem_bestOf hdm) (mem_ids_of_mem_bestOf hem)).mp hlt⟩
  · intro other
    rw [mergeRankedPairs_eq, mergeRankedPairs_eq, hpairs,
      standings_eq_of_perm ((other.perm _).trans (order.perm _).symm) (harranged other)]

end Pairs

section Rrf

inductive RrfList where
  | dense
  | bm25
  | graph
deriving DecidableEq

structure Acc where
  score : ℚ
  inDense : Bool
  inBm25 : Bool
  inGraph : Bool
  firstSeen : Nat

/-- An id at its rank in one of the lists. -/
structure Ranked where
  id : String
  rank : Nat
  which : RrfList

def Acc.new (seen : Nat) : Acc := ⟨0, false, false, false, seen⟩

def Acc.add (k : Nat) (e : Acc) (x : Ranked) : Acc :=
  let e := { e with score := e.score + 1 / ((k + x.rank : Nat) : ℚ) }
  match x.which with
  | .dense => { e with inDense := true }
  | .bm25 => { e with inBm25 := true }
  | .graph => { e with inGraph := true }

def Acc.source (a : Acc) : HitSource :=
  match a.inDense, a.inBm25 with
  | true, true => .both
  | true, false => .dense
  | false, true => .bm25
  | false, false => if a.inGraph then .graph else .dense

def rankedIds (ids : List String) (which : RrfList) : List Ranked :=
  ids.zipIdx.map fun x => ⟨x.1, x.2, which⟩

/-- The loops over the given lists. -/
def accumulate (lists : List (List String × RrfList)) (k : Nat) : List (String × Acc) × Nat :=
  (lists.flatMap fun l => rankedIds l.1 l.2).foldl
    (record Ranked.id (fun seen x => (Acc.new seen).add k x) (Acc.add k)) ([], 0)

def fuse (order : IterationOrder) (lists : List (List String × RrfList)) (k limit : Nat) :
    List (RetrievalHit ℚ) :=
  let fused := standings Acc.score Acc.firstSeen (order.arrange (accumulate lists k).1)
  (fused.take limit).map fun e => ⟨e.1, e.2.score, e.2.source⟩

def rrfMerge3 (order : IterationOrder) (dense bm25 graph : List String) (k limit : Nat) :
    List (RetrievalHit ℚ) :=
  fuse order [(dense, .dense), (bm25, .bm25), (graph, .graph)] k limit

def rrfMerge (order : IterationOrder) (dense bm25 : List String) (k limit : Nat) :
    List (RetrievalHit ℚ) := rrfMerge3 order dense bm25 [] k limit

/-- What a list adds to the score of an id. -/
def rrfShare (k : Nat) (ids : List String) (id : String) : ℚ :=
  if id ∈ ids then 1 / ((k + ids.idxOf id : Nat) : ℚ) else 0

def rrfScore (k : Nat) (lists : List (List String)) (id : String) : ℚ :=
  (lists.map fun ids => rrfShare k ids id).sum

variable {k : Nat}

@[simp] theorem Acc.score_add (a : Acc) (x : Ranked) :
    (a.add k x).score = a.score + 1 / ((k + x.rank : Nat) : ℚ) := by
  unfold Acc.add
  cases x.which with
  | dense => rfl
  | bm25 => rfl
  | graph => rfl

@[simp] theorem Acc.firstSeen_add (a : Acc) (x : Ranked) :
    (a.add k x).firstSeen = a.firstSeen := by
  unfold Acc.add
  cases x.which with
  | dense => rfl
  | bm25 => rfl
  | graph => rfl

/-- What the ranks of an id add up to. -/
def rankSum (k : Nat) (items : List Ranked) (id : String) : ℚ :=
  (items.map fun x => if x.id = id then 1 / ((k + x.rank : Nat) : ℚ) else 0).sum

theorem rankSum_append (items more : List Ranked) (id : String) :
    rankSum k (items ++ more) id = rankSum k items id + rankSum k more id := by
  unfold rankSum
  rw [List.map_append, List.sum_append]

theorem rankSum_singleton (x : Ranked) (id : String) :
    rankSum k [x] id = if x.id = id then 1 / ((k + x.rank : Nat) : ℚ) else 0 := by
  simp [rankSum]

theorem rankSum_of_notMem {items : List Ranked} {id : String} (h : id ∉ items.map Ranked.id) :
    rankSum k items id = 0 := by
  induction items with
  | nil => rfl
  | cons x items ih =>
    rw [List.map_cons, List.mem_cons, not_or] at h
    rw [← List.singleton_append, rankSum_append, rankSum_singleton, if_neg (Ne.symm h.1), ih h.2,
      add_zero]

/-- An entry holds the sum over the ranks of its id, and its number among the ids. -/
theorem accumulate_spec {lists : List (List String × RrfList)} {id : String} {a : Acc}
    (h : (id, a) ∈ (accumulate lists k).1) :
    a.score = rankSum k (lists.flatMap fun l => rankedIds l.1 l.2) id ∧
    a.firstSeen = ordinal ((lists.flatMap fun l => rankedIds l.1 l.2).map Ranked.id) id := by
  apply recorded_induction (P := fun items id a => a.score = rankSum k items id ∧
    a.firstSeen = ordinal (items.map Ranked.id) id) _ _ _ h
  · intro items x hnew
    refine ⟨?_, Acc.firstSeen_add _ x⟩
    rw [Acc.score_add, rankSum_append, rankSum_of_notMem hnew, rankSum_singleton, if_pos rfl]
    rfl
  · intro items x a hseen ha
    rw [Acc.score_add, Acc.firstSeen_add, rankSum_append, rankSum_singleton, if_pos rfl,
      List.map_append, List.map_singleton, ordinal_concat_of_mem hseen, ha.1, ha.2]
    exact ⟨rfl, rfl⟩
  · intro items x id a hne hseen ha
    rw [rankSum_append, rankSum_singleton, if_neg hne.symm, add_zero, List.map_append,
      List.map_singleton, ordinal_concat_of_mem hseen]
    exact ha

/-- In a list without duplicates an id has one rank. -/
theorem rankSum_rankedIds {ids : List String} (h : ids.Nodup) (which : RrfList) (id : String) :
    rankSum k (rankedIds ids which) id = rrfShare k ids id := by
  have hfrom : ∀ n, rankSum k ((ids.zipIdx n).map fun x => ⟨x.1, x.2, which⟩) id =
      if id ∈ ids then 1 / ((k + (n + ids.idxOf id) : Nat) : ℚ) else 0 := by
    induction ids with
    | nil => intro n; rfl
    | cons i ids ih =>
      intro n
      obtain ⟨hi, hnodup⟩ := List.nodup_cons.mp h
      rw [List.zipIdx_cons, List.map_cons, ← List.singleton_append, rankSum_append,
        rankSum_singleton, ih hnodup]
      by_cases heq : i = id
      · subst heq
        rw [if_pos rfl, if_neg hi, if_pos List.mem_cons_self, List.idxOf_cons_self, add_zero]
        rfl
      · have hmem : id ∈ i :: ids ↔ id ∈ ids := by simp [Ne.symm heq]
        simp only [if_neg heq, hmem, zero_add, List.idxOf_cons_ne _ heq]
        rw [Nat.add_right_comm n 1, Nat.add_assoc n]
  unfold rankedIds rrfShare
  rw [hfrom 0, Nat.zero_add]

theorem rankSum_flatMap {lists : List (List String × RrfList)} (h : ∀ l ∈ lists, l.1.Nodup)
    (id : String) : rankSum k (lists.flatMap fun l => rankedIds l.1 l.2) id =
      rrfScore k (lists.map Prod.fst) id := by
  induction lists with
  | nil => rfl
  | cons l lists ih =>
    obtain ⟨hl, hlists⟩ := List.forall_mem_cons.mp h
    rw [List.flatMap_cons, rankSum_append, rankSum_rankedIds hl, ih hlists]
    simp [rrfScore]

theorem mem_fused_ids {lists : List (List String × RrfList)} {id : String} :
    id ∈ (lists.flatMap fun l => rankedIds l.1 l.2).map Ranked.id ↔ ∃ l ∈ lists, id ∈ l.1 := by
  rw [List.map_flatMap, List.mem_flatMap]
  have hids : ∀ l : List String × RrfList, (rankedIds l.1 l.2).map Ranked.id = l.1 := by
    intro l
    unfold rankedIds
    rw [List.map_map]
    exact List.zipIdx_map_fst 0 l.1
  simp only [hids]

theorem nodup_accumulate_numbers (lists : List (List String × RrfList)) (k : Nat) :
    ((accumulate lists k).1.map fun e => e.2.firstSeen).Nodup :=
  nodup_numbers (nodup_recorded _)
    (fun _ he => mem_keys_recorded.mp (List.mem_map_of_mem he)) fun _ he => (accumulate_spec he).2

/-- The fused ids in the order of their scores, before the list is cut. -/
theorem fuse_ranked (order : IterationOrder) {lists : List (List String × RrfList)}
    (h : ∀ l ∈ lists, l.1.Nodup) (k limit : Nat) :
    ∃ ranked : List (RetrievalHit ℚ), fuse order lists k limit = ranked.take limit ∧
      (ranked.map RetrievalHit.chunkId).Nodup ∧
      (∀ id, id ∈ ranked.map RetrievalHit.chunkId ↔ ∃ l ∈ lists, id ∈ l.1) ∧
      (∀ hit ∈ ranked, hit.score = rrfScore k (lists.map Prod.fst) hit.chunkId) ∧
      ranked.Pairwise fun x y => y.score ≤ x.score := by
  have hperm : (standings Acc.score Acc.firstSeen (order.arrange (accumulate lists k).1)).Perm
      (accumulate lists k).1 := (standings_perm _).trans (order.perm _)
  let hit : String × Acc → RetrievalHit ℚ := fun e => ⟨e.1, e.2.score, e.2.source⟩
  refine ⟨(standings Acc.score Acc.firstSeen (order.arrange (accumulate lists k).1)).map hit,
    List.map_take, ?_, ?_, ?_, ?_⟩
  · rw [List.map_map]
    exact (hperm.map Prod.fst).nodup_iff.mpr (nodup_recorded _)
  · intro id
    rw [List.map_map]
    exact (((hperm.map Prod.fst).mem_iff).trans mem_keys_recorded).trans mem_fused_ids
  · intro hit hmem
    obtain ⟨e, he, rfl⟩ := List.mem_map.mp hmem
    exact (accumulate_spec (hperm.mem_iff.mp he)).1.trans (rankSum_flatMap h e.1)
  · apply List.pairwise_map.mpr
    have hnumbers : ((order.arrange (accumulate lists k).1).map fun e => e.2.firstSeen).Nodup :=
      ((order.perm _).map _).nodup_iff.mpr (nodup_accumulate_numbers lists k)
    apply (standings_pairwise hnumbers).imp
    intro d e hde
    rcases hde with hlt | ⟨heq, _⟩
    · exact le_of_lt hlt
    · exact le_of_eq heq.symm

/-- An id that comes before another in each list of the other adds more to the score. -/
theorem rrfShare_le (hk : 1 ≤ k) {ids : List String} {a b : String}
    (h : b ∈ ids → a ∈ ids ∧ ids.idxOf a < ids.idxOf b) :
    rrfShare k ids b ≤ rrfShare k ids a ∧ (b ∈ ids → rrfShare k ids b < rrfShare k ids a) := by
  unfold rrfShare
  by_cases hb : b ∈ ids
  · obtain ⟨ha, hlt⟩ := h hb
    rw [if_pos hb, if_pos ha]
    have hpos : (0 : ℚ) < ((k + ids.idxOf a : Nat) : ℚ) := by
      exact_mod_cast Nat.lt_of_lt_of_le hk (Nat.le_add_right k _)
    have hrank : ((k + ids.idxOf a : Nat) : ℚ) < ((k + ids.idxOf b : Nat) : ℚ) := by
      exact_mod_cast Nat.add_lt_add_left hlt k
    have hstrict := one_div_lt_one_div_of_lt hpos hrank
    exact ⟨le_of_lt hstrict, fun _ => hstrict⟩
  · rw [if_neg hb]
    refine ⟨?_, fun hmem => absurd hmem hb⟩
    split
    · exact div_nonneg zero_le_one (Nat.cast_nonneg _)
    · exact le_refl _

theorem rrfScore_lt (hk : 1 ≤ k) {lists : List (List String)} {a b : String}
    (h : ∀ ids ∈ lists, b ∈ ids → a ∈ ids ∧ ids.idxOf a < ids.idxOf b)
    (hb : ∃ ids ∈ lists, b ∈ ids) : rrfScore k lists b < rrfScore k lists a := by
  have hle : ∀ lists : List (List String),
      (∀ ids ∈ lists, b ∈ ids → a ∈ ids ∧ ids.idxOf a < ids.idxOf b) →
      rrfScore k lists b ≤ rrfScore k lists a := by
    intro lists h
    exact List.sum_le_sum fun ids hids => (rrfShare_le hk (h ids hids)).1
  obtain ⟨ids, hids, hmem⟩ := hb
  obtain ⟨before, after, rfl⟩ := List.append_of_mem hids
  have hstrict := (rrfShare_le hk (h ids hids)).2 hmem
  have hbefore := hle before fun l hl => h l (List.mem_append_left _ hl)
  have hafter := hle after fun l hl => h l (List.mem_append_right _ (List.mem_cons_of_mem _ hl))
  unfold rrfScore at hbefore hafter ⊢
  simp only [List.map_append, List.map_cons, List.sum_append, List.sum_cons]
  linarith

/-- In a list sorted by score, what scores higher comes first. -/
theorem idxOf_lt_of_score {hits : List (RetrievalHit ℚ)} {score : String → ℚ}
    (hnodup : (hits.map RetrievalHit.chunkId).Nodup) (hscore : ∀ h ∈ hits, h.score = score h.chunkId)
    (hsorted : hits.Pairwise fun x y => y.score ≤ x.score) {a b : String}
    (ha : a ∈ hits.map RetrievalHit.chunkId) (hb : b ∈ hits.map RetrievalHit.chunkId)
    (hlt : score b < score a) :
    (hits.map RetrievalHit.chunkId).idxOf a < (hits.map RetrievalHit.chunkId).idxOf b := by
  obtain ⟨i, hi, rfl⟩ := List.mem_iff_getElem.mp ha
  obtain ⟨j, hj, rfl⟩ := List.mem_iff_getElem.mp hb
  rw [hnodup.idxOf_getElem, hnodup.idxOf_getElem]
  rw [List.length_map] at hi hj
  rw [List.getElem_map, List.getElem_map, ← hscore _ (List.getElem_mem hi),
    ← hscore _ (List.getElem_mem hj)] at hlt
  by_contra hge
  rcases Nat.lt_or_eq_of_le (Nat.le_of_not_lt hge) with hji | rfl
  · exact absurd (List.pairwise_iff_getElem.mp hsorted j i hj hi hji) (not_le_of_gt hlt)
  · exact absurd hlt (lt_irrefl _)

/-- Fusion keeps dominance, and its output is the ids of the lists by score, cut at the limit. -/
theorem rrfMerge3_dominance (order : IterationOrder) (dense bm25 graph : List String)
    (hdense : dense.Nodup) (hbm25 : bm25.Nodup) (hgraph : graph.Nodup) (k limit : Nat)
    (hk : 1 ≤ k) :
    (∀ a b, b ∈ (rrfMerge3 order dense bm25 graph k limit).map RetrievalHit.chunkId →
      (∀ ids ∈ [dense, bm25, graph], b ∈ ids → a ∈ ids ∧ ids.idxOf a < ids.idxOf b) →
      ((rrfMerge3 order dense bm25 graph k limit).map RetrievalHit.chunkId).idxOf a <
        ((rrfMerge3 order dense bm25 graph k limit).map RetrievalHit.chunkId).idxOf b) ∧
    (∃ ranked : List (RetrievalHit ℚ), rrfMerge3 order dense bm25 graph k limit = ranked.take limit ∧
      (ranked.map RetrievalHit.chunkId).Nodup ∧
      (∀ id, id ∈ ranked.map RetrievalHit.chunkId ↔ id ∈ dense ∨ id ∈ bm25 ∨ id ∈ graph) ∧
      (∀ hit ∈ ranked, hit.score = rrfScore k [dense, bm25, graph] hit.chunkId) ∧
      ranked.Pairwise fun x y => y.score ≤ x.score) ∧
    rrfMerge3 order dense bm25 [] k limit = fuse order [(dense, .dense), (bm25, .bm25)] k limit ∧
    rrfMerge order dense bm25 k limit = rrfMerge3 order dense bm25 [] k limit := by
  have hnodup : ∀ l ∈ [(dense, RrfList.dense), (bm25, .bm25), (graph, .graph)], l.1.Nodup := by
    intro l hl
    simp only [List.mem_cons, List.not_mem_nil, or_false] at hl
    rcases hl with rfl | rfl | rfl
    · exact hdense
    · exact hbm25
    · exact hgraph
  obtain ⟨ranked, hout, hids, hmem, hscore, hsorted⟩ := fuse_ranked order hnodup k limit
  have hmem3 : ∀ id, id ∈ ranked.map RetrievalHit.chunkId ↔
      id ∈ dense ∨ id ∈ bm25 ∨ id ∈ graph := by
    intro id
    rw [hmem]
    simp
  refine ⟨?_, ⟨ranked, hout, hids, hmem3, hscore, hsorted⟩, rfl, rfl⟩
  intro a b hb hdom
  have hcut : (rrfMerge3 order dense bm25 graph k limit).map RetrievalHit.chunkId =
      (ranked.map RetrievalHit.chunkId).take limit := by
    rw [← List.map_take]
    exact congrArg _ hout
  rw [hcut] at hb ⊢
  have hbr : b ∈ ranked.map RetrievalHit.chunkId := List.mem_of_mem_take hb
  have hblist : ∃ ids ∈ [dense, bm25, graph], b ∈ ids := by
    simpa using (hmem3 b).mp hbr
  obtain ⟨ids, hidsm, hbids⟩ := hblist
  have har : a ∈ ranked.map RetrievalHit.chunkId := by
    have haids := (hdom ids hidsm hbids).1
    apply (hmem3 a).mpr
    simp only [List.mem_cons, List.not_mem_nil, or_false] at hidsm
    rcases hidsm with rfl | rfl | rfl
    · exact .inl haids
    · exact .inr (.inl haids)
    · exact .inr (.inr haids)
  apply idxOf_take_lt hb
  exact idxOf_lt_of_score hids hscore hsorted har hbr (rrfScore_lt hk hdom ⟨ids, hidsm, hbids⟩)

theorem rrfMerge3_dominance_twoLists :
    ((rrfMerge3 ⟨id, fun _ => .refl _⟩ ["a", "b"] ["a"] [] 60 2).map
      RetrievalHit.chunkId).idxOf "a" <
    ((rrfMerge3 ⟨id, fun _ => .refl _⟩ ["a", "b"] ["a"] [] 60 2).map
      RetrievalHit.chunkId).idxOf "b" := by
  apply (rrfMerge3_dominance ⟨id, fun _ => .refl _⟩ ["a", "b"] ["a"] [] (by decide) (by decide)
    (by decide) 60 2 (by decide)).1 "a" "b"
  · decide +kernel
  · decide

end Rrf

end LensLM
