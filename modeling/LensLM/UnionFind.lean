import LensLM.Lib.LinkForest
import Mathlib.Data.Fintype.Card
import Mathlib.Data.Finset.Lattice.Fold
import Mathlib.Data.List.Induction

/-!
# The disjoint-set forest of the entity resolution

Parent pointers without path compression, joined by rank. Every join that merges two sets is
recorded with its confidence.
-/

namespace LensLM

open LinkForest

set_option autoImplicit false

/-- A parent has a larger rank than its child, so that every chain of parents ends. -/
structure UnionFind (n : Nat) (κ : Type) where
  parent : Fin n → Fin n
  rank : Fin n → Nat
  edges : List (Fin n × Fin n × κ)
  rank_lt : ∀ i, parent i ≠ i → rank i < rank (parent i)

namespace UnionFind

variable {n : Nat} {κ : Type}

def new (n : Nat) (κ : Type) : UnionFind n κ where
  parent := id
  rank := fun _ => 0
  edges := []
  rank_lt := fun _ h => absurd rfl h

/-- The largest rank, which no chain of parents can pass. -/
def height (uf : UnionFind n κ) : Nat := Finset.univ.sup uf.rank

theorem rank_le_height (uf : UnionFind n κ) (i : Fin n) : uf.rank i ≤ uf.height :=
  Finset.le_sup (Finset.mem_univ i)

def find (uf : UnionFind n κ) (i : Fin n) : Fin n :=
  if uf.parent i = i then i else uf.find (uf.parent i)
termination_by uf.height - uf.rank i
decreasing_by
  rename_i h
  have hlt := uf.rank_lt i h
  have hle := uf.rank_le_height (uf.parent i)
  omega

section Find

variable (uf : UnionFind n κ) {i j : Fin n}

theorem find_of_root (h : uf.parent i = i) : uf.find i = i := by
  rw [find, if_pos h]

theorem find_parent (i : Fin n) : uf.find (uf.parent i) = uf.find i := by
  by_cases h : uf.parent i = i
  · rw [h]
  · rw [find.eq_def uf i, if_neg h]

/-- The loop ends at a root. -/
theorem parent_find (i : Fin n) : uf.parent (uf.find i) = uf.find i := by
  fun_induction uf.find i with
  | case1 i h => exact h
  | case2 i _ ih => exact ih

/-- The loop follows the parents a number of times. -/
theorem find_eq_iterate (i : Fin n) : ∃ k, uf.find i = uf.parent^[k] i := by
  fun_induction uf.find i with
  | case1 i _ => exact ⟨0, rfl⟩
  | case2 i _ ih =>
    obtain ⟨k, hk⟩ := ih
    exact ⟨k + 1, hk⟩

end Find

/-- One root hung below another, of a rank that may have grown. -/
def link (uf : UnionFind n κ) (child root : Fin n) (rank : Fin n → Nat)
    (edge : Fin n × Fin n × κ) (hroot : uf.parent root = root)
    (hrank : ∀ i, i ≠ root → rank i = uf.rank i) (hgrow : uf.rank root ≤ rank root)
    (hlt : rank child < rank root) : UnionFind n κ where
  parent := Function.update uf.parent child root
  rank := rank
  edges := uf.edges ++ [edge]
  rank_lt := by
    intro i hi
    by_cases hc : i = child
    · subst hc
      rw [Function.update_self]
      exact hlt
    · rw [Function.update_of_ne hc] at hi ⊢
      have hir : i ≠ root := fun h => hi (h ▸ hroot)
      have hold := uf.rank_lt i hi
      rw [hrank i hir]
      by_cases hp : uf.parent i = root
      · rw [hp] at hold ⊢
        exact lt_of_lt_of_le hold hgrow
      · rw [hrank _ hp]
        exact hold

/-- Joins the sets of two nodes and records the edge, unless they are one set already. -/
def union (uf : UnionFind n κ) (a b : Fin n) (conf : κ) : UnionFind n κ :=
  let ra := uf.find a
  let rb := uf.find b
  if heq : ra = rb then uf
  else if hlt : uf.rank ra < uf.rank rb then
    uf.link ra rb uf.rank (a, b, conf) (uf.parent_find b) (fun _ _ => rfl) (le_refl _) hlt
  else if hgt : uf.rank ra > uf.rank rb then
    uf.link rb ra uf.rank (a, b, conf) (uf.parent_find a) (fun _ _ => rfl) (le_refl _) hgt
  else
    uf.link rb ra (Function.update uf.rank ra (uf.rank ra + 1)) (a, b, conf) (uf.parent_find a)
      (fun _ hi => Function.update_of_ne hi _ _)
      (by rw [Function.update_self]; omega)
      (by rw [Function.update_self, Function.update_of_ne (Ne.symm heq)]; omega)

/-- What a union does: nothing, or one root is hung below the other and the edge recorded. -/
theorem union_cases (uf : UnionFind n κ) (a b : Fin n) (conf : κ) :
    (uf.find a = uf.find b ∧ uf.union a b conf = uf) ∨
      (uf.find a ≠ uf.find b ∧ (uf.union a b conf).edges = uf.edges ++ [(a, b, conf)] ∧
        ∃ child root, (child = uf.find a ∧ root = uf.find b ∨ child = uf.find b ∧ root = uf.find a) ∧
          (uf.union a b conf).parent = Function.update uf.parent child root) := by
  unfold union
  by_cases heq : uf.find a = uf.find b
  · exact .inl ⟨heq, dif_pos heq⟩
  · refine .inr ⟨heq, ?_⟩
    simp only [dif_neg heq]
    split
    · exact ⟨rfl, _, _, .inl ⟨rfl, rfl⟩, rfl⟩
    · split
      · exact ⟨rfl, _, _, .inr ⟨rfl, rfl⟩, rfl⟩
      · exact ⟨rfl, _, _, .inr ⟨rfl, rfl⟩, rfl⟩

/-- Hanging a root below another redirects its whole set. -/
theorem find_of_parent_update {uf uf' : UnionFind n κ} {child root : Fin n}
    (hc : uf.parent child = child) (hr : uf.parent root = root) (hne : child ≠ root)
    (hp : uf'.parent = Function.update uf.parent child root) (i : Fin n) :
    uf'.find i = if uf.find i = child then root else uf.find i := by
  fun_induction uf.find i with
  | case1 i hi =>
    by_cases hic : i = child
    · subst hic
      have hstep : uf'.parent i = root := by rw [hp, Function.update_self]
      have hroot : uf'.parent root = root := by
        rw [hp, Function.update_of_ne (Ne.symm hne), hr]
      rw [if_pos rfl, ← uf'.find_parent, hstep, uf'.find_of_root hroot]
    · have hroot : uf'.parent i = i := by rw [hp, Function.update_of_ne hic, hi]
      rw [if_neg hic, uf'.find_of_root hroot]
  | case2 i hi ih =>
    have hic : i ≠ child := fun h => hi (h ▸ hc)
    have hstep : uf'.parent i = uf.parent i := by rw [hp, Function.update_of_ne hic]
    rw [← uf'.find_parent, hstep]
    exact ih

/-- A union merges the sets of its two nodes and leaves the others apart. -/
theorem find_union_eq_iff (uf : UnionFind n κ) (a b : Fin n) (conf : κ) (i j : Fin n) :
    (uf.union a b conf).find i = (uf.union a b conf).find j ↔ uf.find i = uf.find j ∨
      (uf.find i = uf.find a ∧ uf.find b = uf.find j) ∨
      (uf.find i = uf.find b ∧ uf.find a = uf.find j) := by
  cases uf.union_cases a b conf with
  | inl h =>
    obtain ⟨heq, hsame⟩ := h
    rw [hsame, heq]
    constructor
    · exact .inl
    · rintro (h | ⟨h₁, h₂⟩ | ⟨h₁, h₂⟩)
      · exact h
      · exact h₁.trans h₂
      · exact h₁.trans h₂
  | inr h =>
    obtain ⟨hne, _, child, root, hcr, hp⟩ := h
    have hfind : ∀ i, (uf.union a b conf).find i =
        if uf.find i = child then root else uf.find i := by
      apply find_of_parent_update _ _ _ hp
      · rcases hcr with ⟨rfl, rfl⟩ | ⟨rfl, rfl⟩
        · exact uf.parent_find a
        · exact uf.parent_find b
      · rcases hcr with ⟨rfl, rfl⟩ | ⟨rfl, rfl⟩
        · exact uf.parent_find b
        · exact uf.parent_find a
      · rcases hcr with ⟨rfl, rfl⟩ | ⟨rfl, rfl⟩
        · exact hne
        · exact Ne.symm hne
    rw [hfind, hfind]
    rcases hcr with ⟨rfl, rfl⟩ | ⟨rfl, rfl⟩ <;> grind

/-- A run of unions from the fresh structure. -/
def unions (n : Nat) (ops : List (Fin n × Fin n × κ)) : UnionFind n κ :=
  ops.foldl (fun uf op => uf.union op.1 op.2.1 op.2.2) (new n κ)

theorem unions_concat (ops : List (Fin n × Fin n × κ)) (a b : Fin n) (conf : κ) :
    unions n (ops ++ [(a, b, conf)]) = (unions n ops).union a b conf := by
  unfold unions
  rw [List.foldl_concat]

theorem find_new (i : Fin n) : (new n κ).find i = i := (new n κ).find_of_root rfl

/-- The sets are the classes that the recorded edges link. -/
structure Spanned (uf : UnionFind n κ) : Prop where
  find_iff : ∀ i j, uf.find i = uf.find j ↔ Linked uf.edges i j
  forest : Forest uf.edges
  count : uf.edges.length + (Finset.univ.filter fun i => uf.parent i = i).card = n

theorem spanned_new : Spanned (new n κ) where
  find_iff := fun i j => by rw [find_new, find_new]; exact Linked.nil_iff.symm
  forest := .nil
  count := by simp [new]

/-- Hanging one root below another leaves one root less. -/
theorem card_roots_update {parent : Fin n → Fin n} {child root : Fin n}
    (hc : parent child = child) (hne : child ≠ root) :
    (Finset.univ.filter fun i => Function.update parent child root i = i).card + 1 =
      (Finset.univ.filter fun i => parent i = i).card := by
  have herase : (Finset.univ.filter fun i => Function.update parent child root i = i) =
      (Finset.univ.filter fun i => parent i = i).erase child := by
    ext i
    simp only [Finset.mem_filter, Finset.mem_univ, true_and, Finset.mem_erase]
    by_cases hi : i = child
    · subst hi
      rw [Function.update_self]
      simp [Ne.symm hne]
    · rw [Function.update_of_ne hi]
      simp [hi]
  rw [herase]
  exact Finset.card_erase_add_one (by simp [hc])

theorem Spanned.union {uf : UnionFind n κ} (h : Spanned uf) (a b : Fin n) (conf : κ) :
    Spanned (uf.union a b conf) := by
  have hfind := uf.find_union_eq_iff a b conf
  cases uf.union_cases a b conf with
  | inl hs =>
    rw [hs.2]
    exact h
  | inr hs =>
    obtain ⟨hne, hedges, child, root, hcr, hp⟩ := hs
    constructor
    case find_iff =>
      intro i j
      rw [hfind, hedges, Linked.concat_iff]
      simp only [h.find_iff]
    case forest =>
      rw [hedges]
      exact h.forest.concat conf fun hl => hne ((h.find_iff a b).mpr hl)
    case count =>
      have hc : uf.parent child = child := by
        rcases hcr with ⟨rfl, _⟩ | ⟨rfl, _⟩
        · exact uf.parent_find a
        · exact uf.parent_find b
      have hcne : child ≠ root := by
        rcases hcr with ⟨rfl, rfl⟩ | ⟨rfl, rfl⟩
        · exact hne
        · exact Ne.symm hne
      have hcard := card_roots_update hc hcne
      have hcount := h.count
      rw [hedges, hp, List.length_append, List.length_singleton]
      omega

theorem spanned_unions (ops : List (Fin n × Fin n × κ)) : Spanned (unions n ops) := by
  induction ops using List.reverseRecOn with
  | nil => exact spanned_new
  | append_singleton ops op ih =>
    obtain ⟨a, b, conf⟩ := op
    rw [unions_concat]
    exact ih.union a b conf

theorem find_unions_iff (ops : List (Fin n × Fin n × κ)) (i j : Fin n) :
    (unions n ops).find i = (unions n ops).find j ↔ Linked ops i j := by
  induction ops using List.reverseRecOn generalizing i j with
  | nil => exact (spanned_new.find_iff i j)
  | append_singleton ops op ih =>
    obtain ⟨a, b, conf⟩ := op
    rw [unions_concat, find_union_eq_iff, Linked.concat_iff]
    simp only [ih]

theorem image_find (uf : UnionFind n κ) :
    Finset.univ.image uf.find = Finset.univ.filter fun i => uf.parent i = i := by
  ext i
  simp only [Finset.mem_image, Finset.mem_univ, true_and, Finset.mem_filter]
  constructor
  · rintro ⟨j, rfl⟩
    exact uf.parent_find j
  · intro h
    exact ⟨i, uf.find_of_root h⟩

/-- What a run of unions leaves: `find` ends at a root and decides connectivity, and the
recorded edges are a spanning forest. -/
theorem unions_track_connectivity (ops : List (Fin n × Fin n × κ)) :
    (∀ i, ∃ k, (unions n ops).find i = (unions n ops).parent^[k] i ∧
      (unions n ops).parent ((unions n ops).find i) = (unions n ops).find i) ∧
    (∀ a b, (unions n ops).find a = (unions n ops).find b ↔ Linked ops a b) ∧
    (∀ a b, Linked (unions n ops).edges a b ↔ Linked ops a b) ∧
    (unions n ops).edges.length + (Finset.univ.image (unions n ops).find).card = n ∧
    Forest (unions n ops).edges ∧ (graph (unions n ops).edges).IsAcyclic := by
  have hspan := spanned_unions ops
  refine ⟨?_, find_unions_iff ops, ?_, ?_, hspan.forest, hspan.forest.acyclic⟩
  · intro i
    obtain ⟨k, hk⟩ := (unions n ops).find_eq_iterate i
    exact ⟨k, hk, (unions n ops).parent_find i⟩
  · intro a b
    rw [← hspan.find_iff, find_unions_iff]
  · rw [image_find]
    exact hspan.count

end UnionFind

end LensLM
