import Mathlib.Data.List.Infix

/-!
# Fields between separators

A field holds no separator, or no two adjacent ones where the separators are doubled and what
follows one does not start with a third. Then the fields of a name can be read back. Fields that may
hold the separator are read back unless one of them moves it into its neighbour.
-/

namespace Fields

set_option autoImplicit false

variable {α : Type} {u : α}

/-- No two adjacent separators. -/
def NoPair (u : α) (a : List α) : Prop := ¬ [u, u] <:+: a

theorem NoPair.inside {a b : List α} (hb : NoPair u b) (h : a <:+: b) : NoPair u a :=
  fun hp => hb (hp.trans h)

theorem noPair_nil : NoPair u [] := fun h => by simpa using h.length_le

theorem noPair_cons {c : α} {a : List α} :
    NoPair u (c :: a) ↔ ¬ [u, u] <+: c :: a ∧ NoPair u a := by
  unfold NoPair
  rw [List.infix_cons_iff, not_or]

/-- A list without the separator has no adjacent ones. -/
theorem noPair_of_notMem {a : List α} (h : u ∉ a) : NoPair u a :=
  fun hp => h (hp.subset (by simp))

theorem eq_of_append_tail {a t x y : List α} (hb : NoPair u (a ++ t)) (hx : x.head? ≠ some u)
    (h : u :: u :: x = t ++ u :: u :: y) : t = [] := by
  cases t with
  | nil => rfl
  | cons c t =>
    cases t with
    | nil =>
      simp only [List.cons_append, List.nil_append, List.cons.injEq] at h
      exact absurd (by simp [h.2.2]) hx
    | cons d t =>
      simp only [List.cons_append, List.cons.injEq] at h
      obtain ⟨rfl, rfl, _⟩ := h
      exact absurd ⟨a, t, by simp⟩ hb

/-- A field and what follows it are read back. -/
theorem field_inj {a b x y : List α} (ha : NoPair u a) (hb : NoPair u b)
    (hx : x.head? ≠ some u) (hy : y.head? ≠ some u)
    (h : a ++ u :: u :: x = b ++ u :: u :: y) : a = b ∧ x = y := by
  cases List.append_eq_append_iff.mp h with
  | inl h =>
    obtain ⟨t, rfl, ht⟩ := h
    obtain rfl := eq_of_append_tail hb hx ht
    simpa using ht
  | inr h =>
    obtain ⟨t, rfl, ht⟩ := h
    obtain rfl := eq_of_append_tail ha hy ht
    simpa using ht.symm

section Single

variable {a b x y : List α}

/-- What stands behind a field without the separator is read back, where it starts with one. -/
theorem single_inj (ha : u ∉ a) (hb : u ∉ b) (hx : ∀ c ∈ x.head?, c = u) (hy : ∀ c ∈ y.head?, c = u)
    (h : a ++ x = b ++ y) : a = b ∧ x = y := by
  -- of two fields of different lengths the longer one would hold the separator
  have hlonger : ∀ {t v w : List α}, u ∉ t → (∀ c ∈ v.head?, c = u) → v = t ++ w → t = [] := by
    intro t v w ht hv heq
    cases t with
    | nil => rfl
    | cons c t =>
      rw [heq] at hv
      rw [hv c rfl] at ht
      exact absurd List.mem_cons_self ht
  rcases List.append_eq_append_iff.mp h with ⟨t, rfl, ht⟩ | ⟨t, rfl, ht⟩
  · obtain rfl := hlonger (fun hu => hb (List.mem_append_right a hu)) hx ht
    exact ⟨(List.append_nil a).symm, ht⟩
  · obtain rfl := hlonger (fun hu => ha (List.mem_append_right b hu)) hy ht
    exact ⟨List.append_nil b, ht.symm⟩

theorem single_cons_inj (ha : u ∉ a) (hb : u ∉ b) (h : a ++ u :: x = b ++ u :: y) :
    a = b ∧ x = y := by
  have hhead : ∀ z : List α, ∀ c ∈ (u :: z).head?, c = u := by
    intro z c hc
    exact (Option.some.inj hc).symm
  obtain ⟨hab, hxy⟩ := single_inj ha hb (hhead x) (hhead y) h
  exact ⟨hab, (List.cons.inj hxy).2⟩

/-- The separator has moved: the first field of the second pair goes on with one, up to where the
second field of the first pair has one. -/
def Shifted (u : α) (p q : List α × List α) : Prop :=
  ∃ x, q.1 = p.1 ++ u :: x ∧ p.2 = x ++ u :: q.2

theorem Shifted.ne {p q : List α × List α} (h : Shifted u p q) : p ≠ q := by
  rintro rfl
  obtain ⟨x, hx, -⟩ := h
  have hlen := congrArg List.length hx
  simp at hlen

/-- Joined pairs are equal exactly if they are the same or a separator has moved. -/
theorem joined_eq_iff {p q : List α × List α} :
    p.1 ++ u :: p.2 = q.1 ++ u :: q.2 ↔ p = q ∨ Shifted u p q ∨ Shifted u q p := by
  obtain ⟨a, x⟩ := p
  obtain ⟨b, y⟩ := q
  dsimp only
  constructor
  · intro h
    rcases List.append_eq_append_iff.mp h with ⟨t, rfl, ht⟩ | ⟨t, rfl, ht⟩
    · cases t with
      | nil => simp_all
      | cons c t =>
        obtain ⟨rfl, hx⟩ := List.cons.inj ht
        exact .inr (.inl ⟨t, rfl, hx⟩)
    · cases t with
      | nil => simp_all
      | cons c t =>
        obtain ⟨rfl, hy⟩ := List.cons.inj ht
        exact .inr (.inr ⟨t, rfl, hy⟩)
  · rintro (h | ⟨t, hb, hx⟩ | ⟨t, ha, hy⟩)
    · obtain ⟨rfl, rfl⟩ := Prod.mk.inj h
      rfl
    · dsimp only at hb hx
      rw [hb, hx, List.append_assoc, List.cons_append]
    · dsimp only at ha hy
      rw [ha, hy, List.append_assoc, List.cons_append]

end Single

end Fields
