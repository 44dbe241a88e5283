import Mathlib.Data.List.Infix
import Mathlib.Logic.Relation

/-!
# Pieces cut out of a list

A cut takes one piece out of a list and closes the gap. What is around a piece may join into a new
one, which a scan that has already passed the place does not see again.
-/

namespace Cutting

set_option autoImplicit false

variable {α : Type} {pieces singles : List (List α)} {s t a b m front rest text : List α}

inductive Cut (pieces : List (List α)) : List α → List α → Prop
  | mk (a : List α) {m : List α} (b : List α) : m ∈ pieces → Cut pieces (a ++ m ++ b) (a ++ b)

/-- Any number of cuts, in any order. -/
def Cuts (pieces : List (List α)) : List α → List α → Prop := Relation.ReflTransGen (Cut pieces)

/-- The end of one list and the beginning of another make up a piece. -/
def Joins (singles : List (List α)) (a b : List α) : Prop :=
  ∃ u v, u ≠ [] ∧ v ≠ [] ∧ u <:+ a ∧ v <+: b ∧ u ++ v ∈ singles

/-- However pieces are cut out of the text, no cut joins what is around it into one of `singles`. -/
def Seamless (pieces singles : List (List α)) (text : List α) : Prop :=
  ∀ a m b, Cuts pieces text (a ++ m ++ b) → m ∈ pieces → ¬ Joins singles a b

/-- A list without pieces. -/
def Free (singles : List (List α)) (s : List α) : Prop := ∀ m ∈ singles, ¬ m <:+: s

/-- No piece begins in the front. -/
def Behind (singles : List (List α)) (front rest : List α) : Prop :=
  ∀ x y, front = x ++ y → y ≠ [] → ∀ m ∈ singles, ¬ m <+: y ++ rest

theorem Cut.context (p q : List α) (h : Cut pieces s t) : Cut pieces (p ++ s ++ q) (p ++ t ++ q) := by
  cases h with
  | mk a b hm =>
    have h := Cut.mk (p ++ a) (b ++ q) hm
    simpa only [List.append_assoc] using h

theorem Cuts.context (p q : List α) (h : Cuts pieces s t) :
    Cuts pieces (p ++ s ++ q) (p ++ t ++ q) := by
  induction h with
  | refl => exact .refl
  | tail _ hcut ih => exact ih.tail (hcut.context p q)

theorem Cuts.mono {pieces' : List (List α)} (h : Cuts pieces s t) (hsub : pieces ⊆ pieces') :
    Cuts pieces' s t := by
  induction h with
  | refl => exact .refl
  | tail _ hcut ih =>
    cases hcut with
    | mk a b hm => exact ih.tail (.mk a b (hsub hm))

theorem Cuts.length_le (h : Cuts pieces s t) : t.length ≤ s.length := by
  induction h with
  | refl => exact le_refl _
  | tail _ hcut ih =>
    cases hcut with
    | mk a b hm =>
      simp only [List.length_append] at ih ⊢
      omega

/-- Nothing is cut out of a list without pieces. -/
theorem Cuts.of_free (h : Cuts pieces s t) (hf : Free pieces s) : t = s := by
  induction h with
  | refl => rfl
  | tail _ hcut ih =>
    subst ih
    cases hcut with
    | mk a b hm =>
      exfalso
      exact hf _ hm ⟨a, b, rfl⟩

/-- A piece at the beginning of two lists lies in the first one, or reaches into the other. -/
theorem prefix_cases (h : m <+: a ++ b) : m <+: a ∨ ∃ v, v ≠ [] ∧ m = a ++ v ∧ v <+: b := by
  obtain ⟨r, hr⟩ := h
  rcases List.append_eq_append_iff.mp hr with ⟨v, rfl, rfl⟩ | ⟨v, rfl, rfl⟩
  · exact .inl ⟨v, rfl⟩
  · by_cases hv : v = []
    · subst hv
      left
      simp
    · exact .inr ⟨v, hv, rfl, r, rfl⟩

/-- What begins behind the front lies in the rest. -/
theorem Behind.free (h : Behind singles front rest) (hf : Free singles rest) :
    Free singles (front ++ rest) := by
  intro m hm hinfix
  obtain ⟨x, z, hxz⟩ := hinfix
  rw [List.append_assoc] at hxz
  rcases List.append_eq_append_iff.mp hxz with ⟨y, hy, hrest⟩ | ⟨y, hy, hrest⟩
  · by_cases hne : y = []
    · subst hne
      apply hf m hm
      exact ⟨[], z, by simpa using hrest⟩
    · apply h x y hy hne m hm
      exact ⟨z, hrest⟩
  · apply hf m hm
    exact ⟨y, z, by simp [hrest]⟩

/-- A cut that joins no piece leaves no new one in the front. -/
theorem Behind.cut (h : Behind singles front (a ++ m ++ b)) (hj : ¬ Joins singles (front ++ a) b) :
    Behind singles front (a ++ b) := by
  intro x y hfront hy k hk hprefix
  rw [← List.append_assoc] at hprefix
  rcases prefix_cases hprefix with hin | ⟨v, hv, heq, hvb⟩
  · apply h x y hfront hy k hk
    rw [← List.append_assoc, ← List.append_assoc, List.append_assoc _ m b]
    exact hin.trans (List.prefix_append _ _)
  · apply hj
    refine ⟨y ++ a, v, ?_, hv, ?_, hvb, heq ▸ hk⟩
    · intro hnil
      exact hy (List.append_eq_nil_iff.mp hnil).1
    · rw [hfront, List.append_assoc]
      exact List.suffix_append _ _

/-- A cut that joins no piece of a list without pieces leaves none. -/
theorem Free.cut (h : Free singles (a ++ m ++ b)) (hj : ¬ Joins singles a b) :
    Free singles (a ++ b) := by
  intro k hk hinfix
  obtain ⟨x, z, hxz⟩ := hinfix
  rw [List.append_assoc] at hxz
  rcases List.append_eq_append_iff.mp hxz with ⟨y, rfl, hrest⟩ | ⟨y, hy, hrest⟩
  · rcases prefix_cases ⟨z, hrest⟩ with hin | ⟨v, hv, heq, hvb⟩
    · obtain ⟨w, rfl⟩ := hin
      exact h k hk ⟨x, w ++ m ++ b, by simp⟩
    · by_cases hne : y = []
      · subst hne
        apply h k hk
        obtain ⟨w, rfl⟩ := hvb
        exact ⟨x ++ m, w, by simp [heq]⟩
      · exact hj ⟨y, v, hne, hv, List.suffix_append _ _, hvb, heq ▸ hk⟩
  · subst hrest
    exact h k hk ⟨a ++ m ++ y, z, by simp⟩

theorem Joins.mono {a' b' : List α} (h : Joins singles a b) (ha : a <:+ a') (hb : b <+: b') :
    Joins singles a' b' := by
  obtain ⟨u, v, hu, hv, hua, hvb, hm⟩ := h
  exact ⟨u, v, hu, hv, hua.trans ha, hvb.trans hb, hm⟩

theorem Joins.subset {singles' : List (List α)} (h : Joins singles a b)
    (hsub : singles ⊆ singles') : Joins singles' a b := by
  obtain ⟨u, v, hu, hv, hua, hvb, hm⟩ := h
  exact ⟨u, v, hu, hv, hua, hvb, hsub hm⟩

theorem Seamless.initial (h : Seamless pieces singles (s ++ t)) : Seamless pieces singles s := by
  intro a m b hcuts hm hjoins
  have hcontext := hcuts.context [] t
  rw [List.nil_append, List.nil_append, List.append_assoc] at hcontext
  exact h a m (b ++ t) hcontext hm (hjoins.mono List.suffix_rfl (List.prefix_append b t))

section Prune

variable [DecidableEq α]

/-- A scan from the left that leaves out every piece it meets. -/
def prune (pieces : List (List α)) (s : List α) : List α :=
  match s with
  | [] => []
  | c :: s =>
    match pieces.find? fun m => m <+: c :: s with
    | some m => prune pieces (s.drop (m.length - 1))
    | none => c :: prune pieces s
termination_by s.length
decreasing_by
  · rw [List.length_drop, List.length_cons]
    omega
  · exact Nat.lt_succ_self _

theorem prune_nil : prune pieces [] = [] := by rw [prune]

theorem prune_cons_of_none {c : α} (h : ∀ m ∈ pieces, ¬ m <+: c :: s) :
    prune pieces (c :: s) = c :: prune pieces s := by
  have hfind : pieces.find? (fun m => m <+: c :: s) = none := by
    rw [List.find?_eq_none]
    intro m hm
    simpa using h m hm
  rw [prune, hfind]

/-- A piece at the beginning is left out, if no two pieces begin alike. -/
theorem prune_piece (hne : m ≠ []) (hm : m ∈ pieces)
    (hfree : ∀ k ∈ pieces, ∀ k' ∈ pieces, k <+: k' → k = k') (b : List α) :
    prune pieces (m ++ b) = prune pieces b := by
  obtain ⟨c, m', rfl⟩ := List.exists_cons_of_ne_nil hne
  have hfind : pieces.find? (fun k => k <+: c :: (m' ++ b)) = some (c :: m') := by
    cases hfind : pieces.find? (fun k => k <+: c :: (m' ++ b)) with
    | none =>
      have hnot := List.find?_eq_none.mp hfind (c :: m') hm
      simp at hnot
    | some k =>
      have hk := List.mem_of_find?_eq_some hfind
      have hprefix : k <+: (c :: m') ++ b := by simpa using List.find?_some hfind
      rcases List.prefix_or_prefix_of_prefix hprefix (List.prefix_append (c :: m') b) with h | h
      · rw [hfree k hk _ hm h]
      · rw [hfree _ hm k hk h]
  rw [List.cons_append, prune, hfind]
  simp

theorem prune_cuts (hne : ∀ m ∈ pieces, m ≠ []) (s : List α) : Cuts pieces s (prune pieces s) := by
  fun_induction prune pieces s with
  | case1 => exact .refl
  | case2 c s m hfind ih =>
    have hm := List.mem_of_find?_eq_some hfind
    have hprefix : m <+: c :: s := by simpa using List.find?_some hfind
    obtain ⟨b, hb⟩ := hprefix
    obtain ⟨d, m', rfl⟩ := List.exists_cons_of_ne_nil (hne m hm)
    obtain ⟨rfl, rfl⟩ := List.cons.inj hb
    have hcut : Cut pieces (d :: (m' ++ b)) b := Cut.mk [] b hm
    have hrest : Cuts pieces b (prune pieces b) := by simpa using ih
    have hall : Cuts pieces (d :: (m' ++ b)) (prune pieces b) := .head hcut hrest
    simpa using hall
  | case3 c s hfind ih =>
    have hcontext := ih.context [c] []
    simpa using hcontext

theorem prune_of_free (hne : ∀ m ∈ pieces, m ≠ []) (hf : Free pieces s) : prune pieces s = s :=
  (prune_cuts hne s).of_free hf

theorem prune_length_le (hne : ∀ m ∈ pieces, m ≠ []) (s : List α) :
    (prune pieces s).length ≤ s.length := (prune_cuts hne s).length_le

/-- Where no piece reaches from one list into the other, the scan takes them one by one. -/
theorem prune_append (hne : ∀ m ∈ pieces, m ≠ [])
    (hfree : ∀ k ∈ pieces, ∀ k' ∈ pieces, k <+: k' → k = k') (hj : ¬ Joins pieces a b) :
    prune pieces (a ++ b) = prune pieces a ++ prune pieces b := by
  fun_induction prune pieces a with
  | case1 => rfl
  | case2 c a m hfind ih =>
    have hm := List.mem_of_find?_eq_some hfind
    obtain ⟨a', ha'⟩ : m <+: c :: a := by simpa using List.find?_some hfind
    have hdrop : a.drop (m.length - 1) = a' := by
      obtain ⟨d, m', rfl⟩ := List.exists_cons_of_ne_nil (hne m hm)
      obtain ⟨rfl, rfl⟩ := List.cons.inj ha'
      simp
    rw [hdrop] at ih ⊢
    rw [← ha', List.append_assoc, prune_piece (hne m hm) hm hfree]
    apply ih
    intro hjoins
    apply hj
    rw [← ha']
    exact hjoins.mono (List.suffix_append _ _) List.prefix_rfl
  | case3 c a hfind ih =>
    have hnone : ∀ m ∈ pieces, ¬ m <+: c :: (a ++ b) := by
      intro m hm hprefix
      rcases prefix_cases (a := c :: a) hprefix with hin | ⟨v, hv, heq, hvb⟩
      · exact List.find?_eq_none.mp hfind m hm (by simpa using hin)
      · exact hj ⟨c :: a, v, List.cons_ne_nil c a, hv, List.suffix_rfl, hvb, heq ▸ hm⟩
    rw [List.cons_append, prune_cons_of_none hnone, ih]
    · rfl
    · intro hjoins
      exact hj (hjoins.mono (List.suffix_cons c a) List.prefix_rfl)

/-- A cut that joins no piece, of a piece that no other reaches into, is one of the scan. -/
theorem prune_cut (hne : ∀ m ∈ pieces, m ≠ [])
    (hfree : ∀ k ∈ pieces, ∀ k' ∈ pieces, k <+: k' → k = k') (hm : m ∈ pieces)
    (hbefore : ¬ Joins pieces a (m ++ b)) (hj : ¬ Joins pieces a b) :
    prune pieces (a ++ m ++ b) = prune pieces (a ++ b) := by
  rw [List.append_assoc, prune_append hne hfree hbefore, prune_piece (hne m hm) hm hfree,
    prune_append hne hfree hj]

end Prune

end Cutting
