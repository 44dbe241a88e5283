import LensLM.Lib.Scatter
import LensLM.Lib.Slots
import LensLM.Resolution
import Mathlib.Algebra.BigOperators.Fin
import Mathlib.Algebra.BigOperators.Ring.List
import Mathlib.Algebra.Order.BigOperators.Group.Finset
import Mathlib.Algebra.Order.Field.Rat
import Mathlib.Logic.Relation
import Mathlib.Tactic.FieldSimp
import Mathlib.Tactic.Linarith
import Mathlib.Tactic.Ring

/-!
# Personalized PageRank

The mass starts on the seeds. In every iteration a node passes a share of its mass along its edges;
what is left over, and all the mass of the nodes without edges, goes back to the seeds. The masses
are exact here, so that the order of a sum does not matter.
-/

namespace LensLM

open ByteText Scatter

set_option autoImplicit false

def ALPHA : ℚ := 85 / 100

def MAX_ITERS : Nat := 100

def CONVERGENCE_L1 : ℚ := 1 / 1000000

/-- An edge with its blended weight. -/
structure GraphEdge (n : Nat) where
  source : Fin n
  target : Fin n
  weight : ℚ
  weight_nonneg : 0 ≤ weight

/-- The graph of a notebook. The lookup key of a node is its lowercased name and its kind. -/
structure NotebookGraph where
  nodeCount : Nat
  edges : List (GraphEdge nodeCount)
  index : Str × EntityKind → Option (Fin nodeCount)

/-- The nodes of at least one matched seed, each of them once. -/
structure SeedNodes (n : Nat) where
  nodes : List (Fin n)
  nodup : nodes.Nodup
  nonempty : nodes ≠ []

namespace NotebookGraph

variable (g : NotebookGraph)

/-! ## The seeds -/

def resolveSeed (toLowercase : Str → Str) (out : List (Fin g.nodeCount))
    (seed : Str × EntityKind) : List (Fin g.nodeCount) :=
  match g.index (toLowercase seed.1, seed.2) with
  | some ix => if ix ∈ out then out else out ++ [ix]
  | none => out

def resolveSeeds (toLowercase : Str → Str) (seeds : List (Str × EntityKind)) :
    List (Fin g.nodeCount) := seeds.foldl (g.resolveSeed toLowercase) []

theorem resolveSeeds_nodup (toLowercase : Str → Str) (seeds : List (Str × EntityKind)) :
    (g.resolveSeeds toLowercase seeds).Nodup := by
  unfold resolveSeeds
  induction seeds using List.reverseRecOn with
  | nil => exact List.nodup_nil
  | append_singleton seeds seed ih =>
    rw [List.foldl_concat]
    unfold resolveSeed
    split
    · split
      · exact ih
      · next hnew => exact Slots.nodup_push ih hnew
    · exact ih

/-- There is no ranking without a matched seed. -/
def seedNodes (toLowercase : Str → Str) (seeds : List (Str × EntityKind)) :
    Option (SeedNodes g.nodeCount) :=
  if h : g.resolveSeeds toLowercase seeds = [] then none
  else some ⟨g.resolveSeeds toLowercase seeds, g.resolveSeeds_nodup toLowercase seeds, h⟩

/-! ## The iteration -/

def personalization {n : Nat} (seeds : SeedNodes n) : Fin n → ℚ :=
  seeds.nodes.foldl (fun p ix => Function.update p ix (1 / seeds.nodes.length)) fun _ => 0

def outSum : Fin g.nodeCount → ℚ :=
  deposits GraphEdge.source GraphEdge.weight (fun _ => 0) g.edges

def outgoing (i : Fin g.nodeCount) : List (GraphEdge g.nodeCount) :=
  g.edges.filter fun e => e.source = i

/-- A node passes its mass on, or it is dangling. -/
def passOn (rank : Fin g.nodeCount → ℚ) (acc : (Fin g.nodeCount → ℚ) × ℚ) (i : Fin g.nodeCount) :
    (Fin g.nodeCount → ℚ) × ℚ :=
  if g.outSum i ≤ 0 then (acc.1, acc.2 + rank i)
  else (deposits GraphEdge.target (fun e => ALPHA * rank i * (e.weight / g.outSum i)) acc.1
    (g.outgoing i), acc.2)

def spread (rank : Fin g.nodeCount → ℚ) : (Fin g.nodeCount → ℚ) × ℚ :=
  (List.finRange g.nodeCount).foldl (g.passOn rank) (fun _ => 0, 0)

def nextRank (seeds : SeedNodes g.nodeCount) (rank : Fin g.nodeCount → ℚ) : Fin g.nodeCount → ℚ :=
  let (next, danglingMass) := g.spread rank
  let redistributed := (1 - ALPHA) + ALPHA * danglingMass
  fun j => next j + redistributed * personalization seeds j

def delta {n : Nat} (next rank : Fin n → ℚ) : ℚ :=
  ((List.finRange n).map fun i => |next i - rank i|).sum

/-- The loop with so many iterations left. -/
def iterate (seeds : SeedNodes g.nodeCount) : Nat → (Fin g.nodeCount → ℚ) → Fin g.nodeCount → ℚ
  | 0, rank => rank
  | iters + 1, rank =>
    let next := g.nextRank seeds rank
    if delta next rank < CONVERGENCE_L1 then next else iterate seeds iters next

def powerIteration (seeds : SeedNodes g.nodeCount) : Fin g.nodeCount → ℚ :=
  g.iterate seeds MAX_ITERS (personalization seeds)

/-- All the ranks that the loop has in turn. -/
def ranks (seeds : SeedNodes g.nodeCount) :
    Nat → (Fin g.nodeCount → ℚ) → List (Fin g.nodeCount → ℚ)
  | 0, rank => [rank]
  | iters + 1, rank =>
    let next := g.nextRank seeds rank
    if delta next rank < CONVERGENCE_L1 then [rank, next] else rank :: ranks seeds iters next

theorem iterate_mem_ranks (seeds : SeedNodes g.nodeCount) (iters : Nat)
    (rank : Fin g.nodeCount → ℚ) : g.iterate seeds iters rank ∈ g.ranks seeds iters rank := by
  induction iters generalizing rank with
  | zero => exact List.mem_cons_self
  | succ iters ih =>
    simp only [iterate, ranks]
    split
    · exact List.mem_cons_of_mem _ List.mem_cons_self
    · exact List.mem_cons_of_mem _ (ih _)

/-- What holds at the start and is kept by an iteration holds of all ranks. -/
theorem ranks_induction {seeds : SeedNodes g.nodeCount} {P : (Fin g.nodeCount → ℚ) → Prop}
    (hstep : ∀ rank, P rank → P (g.nextRank seeds rank)) {iters : Nat}
    {rank : Fin g.nodeCount → ℚ} (hrank : P rank) : ∀ r ∈ g.ranks seeds iters rank, P r := by
  induction iters generalizing rank with
  | zero =>
    intro r hr
    rw [List.mem_singleton.mp hr]
    exact hrank
  | succ iters ih =>
    intro r hr
    simp only [ranks] at hr
    split at hr
    · rcases List.mem_cons.mp hr with rfl | hr
      · exact hrank
      · rw [List.mem_singleton.mp hr]
        exact hstep rank hrank
    · rcases List.mem_cons.mp hr with rfl | hr
      · exact hrank
      · exact ih (hstep rank hrank) r hr

/-! ## The mass of the seeds -/

section Personalization

variable {n : Nat} (seeds : SeedNodes n)

theorem personalization_apply (i : Fin n) :
    personalization seeds i = if i ∈ seeds.nodes then 1 / (seeds.nodes.length : ℚ) else 0 :=
  foldl_write_apply _ _ _ i

theorem personalization_nonneg (i : Fin n) : 0 ≤ personalization seeds i := by
  rw [personalization_apply]
  split
  · exact div_nonneg zero_le_one (Nat.cast_nonneg _)
  · exact le_refl 0

theorem total_personalization : ∑ i, personalization seeds i = 1 := by
  have hpos : (seeds.nodes.length : ℚ) ≠ 0 :=
    Nat.cast_ne_zero.mpr (fun h => seeds.nonempty (List.length_eq_zero_iff.mp h))
  have hcard : (Finset.univ.filter fun i => i ∈ seeds.nodes).card = seeds.nodes.length := by
    rw [← List.toFinset_card_of_nodup seeds.nodup]
    congr 1
    ext i
    simp
  calc ∑ i, personalization seeds i
      = ∑ i, if i ∈ seeds.nodes then 1 / (seeds.nodes.length : ℚ) else 0 := by
        simp only [personalization_apply]
    _ = seeds.nodes.length * (1 / (seeds.nodes.length : ℚ)) := by
        rw [← Finset.sum_filter, Finset.sum_const, hcard, nsmul_eq_mul]
    _ = 1 := mul_one_div_cancel hpos

end Personalization

/-! ## The mass that is passed on -/

theorem outSum_eq (i : Fin g.nodeCount) :
    g.outSum i = ((g.outgoing i).map GraphEdge.weight).sum := by
  unfold outSum outgoing
  rw [deposits_apply, zero_add]

/-- The shares of the outgoing edges make up the whole. -/
theorem sum_shares (rank : Fin g.nodeCount → ℚ) {i : Fin g.nodeCount} (h : ¬g.outSum i ≤ 0) :
    ((g.outgoing i).map fun e => ALPHA * rank i * (e.weight / g.outSum i)).sum =
      ALPHA * rank i := by
  have hne : g.outSum i ≠ 0 := ne_of_gt (not_le.mp h)
  calc ((g.outgoing i).map fun e => ALPHA * rank i * (e.weight / g.outSum i)).sum
      = ((g.outgoing i).map fun e => ALPHA * rank i / g.outSum i * e.weight).sum := by
        congr 1
        apply List.map_congr_left
        intro e he
        ring
    _ = ALPHA * rank i / g.outSum i * g.outSum i := by rw [List.sum_map_mul_left, ← outSum_eq]
    _ = ALPHA * rank i := div_mul_cancel₀ _ hne

/-- The mass of a node arrives at its targets, or it is kept aside. -/
theorem total_passOn (rank : Fin g.nodeCount → ℚ) (acc : (Fin g.nodeCount → ℚ) × ℚ)
    (i : Fin g.nodeCount) :
    ∑ j, (g.passOn rank acc i).1 j + ALPHA * (g.passOn rank acc i).2 =
      ∑ j, acc.1 j + ALPHA * acc.2 + ALPHA * rank i := by
  unfold passOn
  split
  · ring
  · next h =>
    rw [total_deposits, sum_shares g rank h]
    ring

theorem total_spread (rank : Fin g.nodeCount → ℚ) :
    ∑ j, (g.spread rank).1 j + ALPHA * (g.spread rank).2 = ALPHA * ∑ i, rank i := by
  have key : ∀ l : List (Fin g.nodeCount),
      ∑ j, (l.foldl (g.passOn rank) (fun _ => 0, 0)).1 j +
        ALPHA * (l.foldl (g.passOn rank) (fun _ => 0, 0)).2 = ALPHA * (l.map rank).sum := by
    intro l
    induction l using List.reverseRecOn with
    | nil => simp
    | append_singleton l i ih =>
      rw [List.foldl_concat, total_passOn, ih, List.map_append, List.sum_append, List.map_singleton,
        List.sum_singleton, mul_add]
  rw [Fin.sum_univ_def]
  exact key _

/-- What a pass over the nodes keeps. -/
theorem spread_induction {rank : Fin g.nodeCount → ℚ} {P : (Fin g.nodeCount → ℚ) × ℚ → Prop}
    (hzero : P (fun _ => 0, 0)) (hstep : ∀ acc i, P acc → P (g.passOn rank acc i)) :
    P (g.spread rank) := by
  unfold spread
  generalize List.finRange g.nodeCount = l
  induction l using List.reverseRecOn with
  | nil => exact hzero
  | append_singleton l i ih =>
    rw [List.foldl_concat]
    exact hstep _ i ih

theorem spread_nonneg {rank : Fin g.nodeCount → ℚ} (hrank : ∀ i, 0 ≤ rank i) :
    (∀ j, 0 ≤ (g.spread rank).1 j) ∧ 0 ≤ (g.spread rank).2 := by
  apply g.spread_induction (P := fun acc => (∀ j, 0 ≤ acc.1 j) ∧ 0 ≤ acc.2)
  · exact ⟨fun _ => le_refl 0, le_refl 0⟩
  · intro acc i hacc
    obtain ⟨hnext, hdangling⟩ := hacc
    unfold passOn
    split
    · exact ⟨hnext, add_nonneg hdangling (hrank i)⟩
    · next h =>
      refine ⟨?_, hdangling⟩
      apply deposits_nonneg _ hnext
      intro e he
      apply mul_nonneg (mul_nonneg (by norm_num [ALPHA]) (hrank i))
      exact div_nonneg e.weight_nonneg (le_of_not_ge h)

/-! ## The nodes that are reached -/

def Adjacent (i j : Fin g.nodeCount) : Prop := ∃ e ∈ g.edges, e.source = i ∧ e.target = j

/-- There is a path from a seed to the node. -/
def FromSeeds (seeds : SeedNodes g.nodeCount) (j : Fin g.nodeCount) : Prop :=
  ∃ s ∈ seeds.nodes, Relation.ReflTransGen g.Adjacent s j

variable {g}

theorem FromSeeds.target {seeds : SeedNodes g.nodeCount} {i : Fin g.nodeCount}
    (h : g.FromSeeds seeds i) {e : GraphEdge g.nodeCount} (he : e ∈ g.outgoing i) :
    g.FromSeeds seeds e.target := by
  obtain ⟨s, hs, hpath⟩ := h
  obtain ⟨hmem, hsource⟩ := List.mem_filter.mp he
  exact ⟨s, hs, hpath.tail ⟨e, hmem, of_decide_eq_true hsource, rfl⟩⟩

/-- Only edges from nodes with mass carry mass. -/
theorem spread_unreached {seeds : SeedNodes g.nodeCount} {rank : Fin g.nodeCount → ℚ}
    (hrank : ∀ i, ¬g.FromSeeds seeds i → rank i = 0) {j : Fin g.nodeCount}
    (hj : ¬g.FromSeeds seeds j) : (g.spread rank).1 j = 0 := by
  apply g.spread_induction (P := fun acc => acc.1 j = 0)
  · rfl
  · intro acc i hacc
    unfold passOn
    split
    · exact hacc
    · rw [← hacc]
      apply deposits_elsewhere
      intro e he htarget
      have hi : ¬g.FromSeeds seeds i := by
        intro hi
        apply hj
        rw [← htarget]
        exact hi.target he
      rw [hrank i hi]
      ring

/-! ## The ranks -/

/-- A distribution of the mass over the nodes that are reached from the seeds. -/
structure Conserved (g : NotebookGraph) (seeds : SeedNodes g.nodeCount)
    (rank : Fin g.nodeCount → ℚ) : Prop where
  nonneg : ∀ i, 0 ≤ rank i
  total : ∑ i, rank i = 1
  unreached : ∀ i, ¬g.FromSeeds seeds i → rank i = 0

theorem personalization_unreached {seeds : SeedNodes g.nodeCount} {i : Fin g.nodeCount}
    (h : ¬g.FromSeeds seeds i) : personalization seeds i = 0 := by
  rw [personalization_apply, if_neg]
  intro hi
  exact h ⟨i, hi, Relation.ReflTransGen.refl⟩

theorem Conserved.start (seeds : SeedNodes g.nodeCount) :
    Conserved g seeds (personalization seeds) where
  nonneg := personalization_nonneg seeds
  total := total_personalization seeds
  unreached := fun _ h => personalization_unreached h

theorem Conserved.next {seeds : SeedNodes g.nodeCount} {rank : Fin g.nodeCount → ℚ}
    (h : Conserved g seeds rank) : Conserved g seeds (g.nextRank seeds rank) := by
  obtain ⟨hnext, hdangling⟩ := g.spread_nonneg h.nonneg
  refine ⟨?_, ?_, ?_⟩
  · intro i
    have hredistributed : 0 ≤ (1 - ALPHA) + ALPHA * (g.spread rank).2 :=
      add_nonneg (by norm_num [ALPHA]) (mul_nonneg (by norm_num [ALPHA]) hdangling)
    exact add_nonneg (hnext i) (mul_nonneg hredistributed (personalization_nonneg seeds i))
  · have htotal := g.total_spread rank
    rw [h.total] at htotal
    simp only [nextRank]
    rw [Finset.sum_add_distrib, ← Finset.mul_sum, total_personalization]
    linarith
  · intro i hi
    simp only [nextRank]
    rw [spread_unreached h.unreached hi, personalization_unreached hi]
    ring

/-- Every rank of the power iteration is a distribution over the nodes reached from the seeds. -/
theorem powerIteration_conserves (g : NotebookGraph) (seeds : SeedNodes g.nodeCount) :
    g.powerIteration seeds ∈ g.ranks seeds MAX_ITERS (personalization seeds) ∧
      ∀ rank ∈ g.ranks seeds MAX_ITERS (personalization seeds), Conserved g seeds rank := by
  constructor
  · exact g.iterate_mem_ranks seeds MAX_ITERS (personalization seeds)
  · apply g.ranks_induction (P := Conserved g seeds)
    · intro rank h
      exact h.next
    · exact Conserved.start seeds

end NotebookGraph

end LensLM
