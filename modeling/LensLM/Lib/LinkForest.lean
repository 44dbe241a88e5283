import Mathlib.Combinatorics.SimpleGraph.Acyclic
import Mathlib.Order.BoundedOrder.Basic

/-!
# Forests of labelled links

A list of links between nodes, each with a label, links its nodes into classes. A list that
only ever joins nodes of different classes is a forest: it has no cycle, and the simple path
between two nodes is unique.
-/

namespace LinkForest

set_option autoImplicit false

variable {V κ : Type*}

/-- The nodes that a list of links connects. -/
def Linked (es : List (V × V × κ)) : V → V → Prop :=
  Relation.EqvGen fun a b => ∃ c, (a, b, c) ∈ es

namespace Linked

variable {es fs : List (V × V × κ)} {a b c i j : V} {k : κ}

theorem refl (es : List (V × V × κ)) (a : V) : Linked es a a := Relation.EqvGen.refl a

theorem symm (h : Linked es a b) : Linked es b a := Relation.EqvGen.symm _ _ h

theorem trans (hab : Linked es a b) (hbc : Linked es b c) : Linked es a c :=
  Relation.EqvGen.trans _ _ _ hab hbc

theorem of_mem (h : (a, b, k) ∈ es) : Linked es a b := Relation.EqvGen.rel _ _ ⟨k, h⟩

theorem mono (hsub : es ⊆ fs) (h : Linked es a b) : Linked fs a b :=
  Relation.EqvGen.mono (fun _ _ ⟨k, hk⟩ => ⟨k, hsub hk⟩) _ _ h

theorem nil_iff : Linked ([] : List (V × V × κ)) a b ↔ a = b := by
  constructor
  · intro h
    induction h with
    | rel _ _ h => simp at h
    | refl => rfl
    | symm _ _ _ ih => exact ih.symm
    | trans _ _ _ _ _ ih₁ ih₂ => exact ih₁.trans ih₂
  · intro h
    exact h ▸ refl _ _

/-- One more link joins the classes of its two ends, and no others. -/
theorem concat_iff : Linked (es ++ [(a, b, k)]) i j ↔ Linked es i j ∨
    (Linked es i a ∧ Linked es b j) ∨ (Linked es i b ∧ Linked es a j) := by
  constructor
  · intro h
    induction h with
    | rel x y h =>
      obtain ⟨c, h⟩ := h
      cases List.mem_append.mp h with
      | inl h => exact .inl (of_mem h)
      | inr h =>
        simp only [List.mem_singleton, Prod.mk.injEq] at h
        obtain ⟨rfl, rfl, _⟩ := h
        exact .inr (.inl ⟨refl _ _, refl _ _⟩)
    | refl x => exact .inl (refl _ x)
    | symm x y _ ih =>
      rcases ih with h | ⟨hxa, hby⟩ | ⟨hxb, hay⟩
      · exact .inl h.symm
      · exact .inr (.inr ⟨hby.symm, hxa.symm⟩)
      · exact .inr (.inl ⟨hay.symm, hxb.symm⟩)
    | trans x y z _ _ ih₁ ih₂ =>
      rcases ih₁ with h₁ | ⟨hxa, hby⟩ | ⟨hxb, hay⟩
      · rcases ih₂ with h₂ | ⟨hya, hbz⟩ | ⟨hyb, haz⟩
        · exact .inl (h₁.trans h₂)
        · exact .inr (.inl ⟨h₁.trans hya, hbz⟩)
        · exact .inr (.inr ⟨h₁.trans hyb, haz⟩)
      · rcases ih₂ with h₂ | ⟨_, hbz⟩ | ⟨_, haz⟩
        · exact .inr (.inl ⟨hxa, hby.trans h₂⟩)
        · exact .inr (.inl ⟨hxa, hbz⟩)
        · exact .inl (hxa.trans haz)
      · rcases ih₂ with h₂ | ⟨_, hbz⟩ | ⟨_, haz⟩
        · exact .inr (.inr ⟨hxb, hay.trans h₂⟩)
        · exact .inl (hxb.trans hbz)
        · exact .inr (.inr ⟨hxb, haz⟩)
  · have hold : ∀ {x y}, Linked es x y → Linked (es ++ [(a, b, k)]) x y :=
      fun h => h.mono (List.subset_append_left _ _)
    have hnew : Linked (es ++ [(a, b, k)]) a b :=
      of_mem (List.mem_append_right es List.mem_cons_self)
    intro h
    rcases h with h | ⟨hia, hbj⟩ | ⟨hib, haj⟩
    · exact hold h
    · exact (hold hia).trans (hnew.trans (hold hbj))
    · exact (hold hib).trans (hnew.symm.trans (hold haj))

end Linked

/-- The graph of the links, their labels forgotten. -/
def graph (es : List (V × V × κ)) : SimpleGraph V :=
  SimpleGraph.fromEdgeSet {e | ∃ a b c, (a, b, c) ∈ es ∧ e = s(a, b)}

/-- A link between two nodes, in either direction. -/
def Joined (es : List (V × V × κ)) (a b : V) (k : κ) : Prop := (a, b, k) ∈ es ∨ (b, a, k) ∈ es

theorem Joined.symm {es : List (V × V × κ)} {a b : V} {k : κ} (h : Joined es a b k) :
    Joined es b a k := Or.symm h

theorem Joined.linked {es : List (V × V × κ)} {a b : V} {k : κ} (h : Joined es a b k) :
    Linked es a b := by
  cases h with
  | inl h => exact .of_mem h
  | inr h => exact (Linked.of_mem h).symm

theorem graph_adj {es : List (V × V × κ)} {a b : V} :
    (graph es).Adj a b ↔ (∃ k, Joined es a b k) ∧ a ≠ b := by
  unfold graph Joined
  rw [SimpleGraph.fromEdgeSet_adj]
  apply and_congr_left'
  simp only [Set.mem_ofPred_eq, Sym2.eq_iff]
  constructor
  · rintro ⟨x, y, k, h, ⟨rfl, rfl⟩ | ⟨rfl, rfl⟩⟩
    · exact ⟨k, .inl h⟩
    · exact ⟨k, .inr h⟩
  · rintro ⟨k, h | h⟩
    · exact ⟨a, b, k, h, .inl ⟨rfl, rfl⟩⟩
    · exact ⟨b, a, k, h, .inr ⟨rfl, rfl⟩⟩

theorem reachable_iff {es : List (V × V × κ)} {a b : V} :
    (graph es).Reachable a b ↔ Linked es a b := by
  constructor
  · rintro ⟨w⟩
    induction w with
    | nil => exact .refl _ _
    | cons hadj _ ih =>
      obtain ⟨⟨k, hk⟩, _⟩ := graph_adj.mp hadj
      exact hk.linked.trans ih
  · intro h
    induction h with
    | rel x y h =>
      obtain ⟨k, hk⟩ := h
      by_cases hxy : x = y
      · exact hxy ▸ .refl _
      · exact (graph_adj.mpr ⟨⟨k, .inl hk⟩, hxy⟩).reachable
    | refl => exact .refl _
    | symm _ _ _ ih => exact ih.symm
    | trans _ _ _ _ _ ih₁ ih₂ => exact ih₁.trans ih₂

theorem graph_concat (es : List (V × V × κ)) (a b : V) (k : κ) :
    graph (es ++ [(a, b, k)]) = graph es ⊔ SimpleGraph.edge a b := by
  ext x y
  simp only [SimpleGraph.sup_adj, graph_adj, SimpleGraph.edge_adj, Joined, List.mem_append,
    List.mem_singleton, Prod.mk.injEq]
  constructor
  · rintro ⟨⟨c, (h | ⟨rfl, rfl, _⟩) | h | ⟨rfl, rfl, _⟩⟩, hne⟩
    · exact .inl ⟨⟨c, .inl h⟩, hne⟩
    · exact .inr ⟨.inl ⟨rfl, rfl⟩, hne⟩
    · exact .inl ⟨⟨c, .inr h⟩, hne⟩
    · exact .inr ⟨.inr ⟨rfl, rfl⟩, hne⟩
  · rintro (⟨⟨c, h⟩, hne⟩ | ⟨⟨rfl, rfl⟩ | ⟨rfl, rfl⟩, hne⟩)
    · exact ⟨⟨c, h.imp .inl .inl⟩, hne⟩
    · exact ⟨⟨k, .inl (.inr ⟨rfl, rfl, rfl⟩)⟩, hne⟩
    · exact ⟨⟨k, .inr (.inr ⟨rfl, rfl, rfl⟩)⟩, hne⟩

/-- Links each of which joins two classes of those before it. -/
inductive Forest : List (V × V × κ) → Prop where
  | nil : Forest []
  | concat {es : List (V × V × κ)} {a b : V} (k : κ) : Forest es → ¬ Linked es a b →
      Forest (es ++ [(a, b, k)])

theorem Forest.acyclic {es : List (V × V × κ)} (h : Forest es) : (graph es).IsAcyclic := by
  induction h with
  | nil =>
    have hbot : graph ([] : List (V × V × κ)) = ⊥ := by
      ext x y
      simp [graph_adj, Joined]
    rw [hbot]
    exact SimpleGraph.isAcyclic_bot
  | concat k _ hsep ih =>
    rw [graph_concat]
    exact ih.sup_edge_of_not_reachable fun h => hsep (reachable_iff.mp h)

theorem Forest.ne {es : List (V × V × κ)} (h : Forest es) {a b : V} {k : κ}
    (hk : Joined es a b k) : a ≠ b := by
  induction h with
  | nil => simp [Joined] at hk
  | @concat es x y c _ hsep ih =>
    rintro rfl
    simp only [Joined, List.mem_append, List.mem_singleton, Prod.mk.injEq, or_self] at hk
    cases hk with
    | inl hk => exact ih (.inl hk) rfl
    | inr hk =>
      obtain ⟨rfl, rfl, _⟩ := hk
      exact hsep (.refl _ _)

/-- Two nodes of a forest are joined by one link at most. -/
theorem Forest.label_unique {es : List (V × V × κ)} (h : Forest es) {a b : V} {k l : κ}
    (hk : Joined es a b k) (hl : Joined es a b l) : k = l := by
  induction h with
  | nil => simp [Joined] at hk
  | @concat es x y c _ hsep ih =>
    have hcases : ∀ {k}, Joined (es ++ [(x, y, c)]) a b k → Joined es a b k ∨
        (k = c ∧ (a = x ∧ b = y ∨ b = x ∧ a = y)) := by
      intro k hk
      simp only [Joined, List.mem_append, List.mem_singleton, Prod.mk.injEq] at hk
      rcases hk with (hk | ⟨ha, hb, hk⟩) | hk | ⟨hb, ha, hk⟩
      · exact .inl (.inl hk)
      · exact .inr ⟨hk, .inl ⟨ha, hb⟩⟩
      · exact .inl (.inr hk)
      · exact .inr ⟨hk, .inr ⟨hb, ha⟩⟩
    -- the new link joins nodes that were apart
    have happart : (a = x ∧ b = y ∨ b = x ∧ a = y) → ∀ {k}, ¬ Joined es a b k := by
      rintro (⟨rfl, rfl⟩ | ⟨rfl, rfl⟩) k hk
      · exact hsep hk.linked
      · exact hsep hk.linked.symm
    cases hcases hk with
    | inl hk =>
      cases hcases hl with
      | inl hl => exact ih hk hl
      | inr hl => exact absurd hk (happart hl.2)
    | inr hk =>
      cases hcases hl with
      | inl hl => exact absurd hl (happart hk.2)
      | inr hl => exact hk.1.trans hl.1.symm

section Paths

variable [LinearOrder κ] [OrderTop κ]

/-- A simple path, its nodes listed from the last to the first, and the smallest label on it. -/
inductive WeakestPath (es : List (V × V × κ)) (a : V) : List V → V → κ → Prop where
  | start : WeakestPath es a [a] a ⊤
  | step {p : List V} {v w : V} {m k : κ} : WeakestPath es a p v m → Joined es v w k → w ∉ p →
      WeakestPath es a (w :: p) w (min m k)

namespace WeakestPath

variable {es : List (V × V × κ)} {a v : V} {p q : List V} {m l : κ}

theorem linked (h : WeakestPath es a p v m) : Linked es a v := by
  induction h with
  | start => exact .refl _ _
  | step _ hj _ ih => exact ih.trans hj.linked

theorem head?_eq (h : WeakestPath es a p v m) : p.head? = some v := by
  cases h with
  | start => rfl
  | step => rfl

theorem mem (h : WeakestPath es a p v m) : v ∈ p := List.mem_of_head? h.head?_eq

theorem walk (h : WeakestPath es a p v m) :
    ∃ w : (graph es).Walk v a, w.IsPath ∧ w.support = p := by
  induction h with
  | start => exact ⟨.nil, .nil, rfl⟩
  | @step p v u m k hp hj hu ih =>
    obtain ⟨w, hw, hs⟩ := ih
    have hne : u ≠ v := fun h => hu (h ▸ hp.mem)
    refine ⟨.cons (graph_adj.mpr ⟨⟨k, hj.symm⟩, hne⟩) w, ?_, ?_⟩
    · rw [SimpleGraph.Walk.cons_isPath_iff, hs]
      exact ⟨hw, hu⟩
    · rw [SimpleGraph.Walk.support_cons, hs]

/-- In a forest the path is determined by its ends. -/
theorem nodes_unique (hf : Forest es) (hp : WeakestPath es a p v m) (hq : WeakestPath es a q v l) :
    p = q := by
  obtain ⟨w, hw, rfl⟩ := hp.walk
  obtain ⟨u, hu, rfl⟩ := hq.walk
  have hsub := hf.acyclic.subsingleton_path v a
  have huniq : w = u := congrArg Subtype.val (hsub.elim ⟨w, hw⟩ ⟨u, hu⟩)
  rw [huniq]

theorem unique (hf : Forest es) (hp : WeakestPath es a p v m) (hq : WeakestPath es a q v l) :
    m = l := by
  obtain rfl := nodes_unique hf hp hq
  induction hp generalizing l with
  | start =>
    cases hq with
    | start => rfl
    | step hq _ _ => cases hq
  | @step p v w m k hp hj hw ih =>
    cases hq with
    | start => cases hp
    | @step _ v' _ m' k' hq hj' hw' =>
      -- the node before the last is the head of the same rest
      obtain rfl : v = v' := Option.some.inj (hp.head?_eq.symm.trans hq.head?_eq)
      rw [ih hq, hf.label_unique hj hj']

end WeakestPath

end Paths

end LinkForest
