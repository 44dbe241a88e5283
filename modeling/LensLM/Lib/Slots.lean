import Mathlib.Data.List.Nodup

/-!
# Slots

A list whose entries are set one at a time, and grow at the end.
-/

namespace Slots

set_option autoImplicit false

variable {α : Type} {l : List α} {i j : Nat} {a c d x : α}

theorem getElem?_set_eq_some (hi : l[i]? = some c) : (l.set i x)[j]? = some d ↔
    (j = i ∧ d = x) ∨ (j ≠ i ∧ l[j]? = some d) := by
  have hlt := (List.getElem?_eq_some_iff.mp hi).1
  by_cases hj : j = i
  · subst hj
    rw [List.getElem?_set_self hlt, Option.some.injEq]
    simp [eq_comm]
  · rw [List.getElem?_set_ne (Ne.symm hj)]
    simp [hj]

theorem mem_set_iff (hi : l[i]? = some c) :
    d ∈ l.set i x ↔ d = x ∨ ∃ j, j ≠ i ∧ l[j]? = some d := by
  simp only [List.mem_iff_getElem?, getElem?_set_eq_some hi]
  constructor
  · rintro ⟨j, ⟨_, hd⟩ | hj⟩
    · exact .inl hd
    · exact .inr ⟨j, hj⟩
  · rintro (rfl | ⟨j, hj⟩)
    · exact ⟨i, .inl ⟨rfl, rfl⟩⟩
    · exact ⟨j, .inr hj⟩

/-- Any other entry is there as before. -/
theorem mem_set_of_ne (hi : l[i]? = some c) (hc : a ≠ c) (hx : a ≠ x) :
    a ∈ l.set i x ↔ a ∈ l := by
  rw [mem_set_iff hi, or_iff_right hx, List.mem_iff_getElem?]
  constructor
  · rintro ⟨j, _, hj⟩
    exact ⟨j, hj⟩
  · rintro ⟨j, hj⟩
    refine ⟨j, ?_, hj⟩
    rintro rfl
    exact hc (Option.some.inj (hj.symm.trans hi))

theorem mem_of_mem_set (hi : l[i]? = some c) (hd : d ∈ l.set i x) (hx : d ≠ x) : d ∈ l := by
  obtain ⟨j, _, hj⟩ := ((mem_set_iff hi).mp hd).resolve_left hx
  exact List.mem_of_getElem? hj

/-- What holds of all entries and of a new one. -/
theorem forall_mem_push {P : α → Prop} (hl : ∀ d ∈ l, P d) (hx : P x) : ∀ d ∈ l ++ [x], P d := by
  intro d hd
  rcases List.mem_append.mp hd with hd | hd
  · exact hl d hd
  · rw [List.mem_singleton.mp hd]
    exact hx

theorem nodup_push (hl : l.Nodup) (hx : x ∉ l) : (l ++ [x]).Nodup := by
  apply List.nodup_append.mpr
  refine ⟨hl, List.nodup_singleton x, ?_⟩
  intro d hd e he heq
  rw [heq, List.mem_singleton.mp he] at hd
  exact hx hd

theorem getElem?_append_eq_some : (l ++ [a])[j]? = some d ↔
    l[j]? = some d ∨ (j = l.length ∧ d = a) := by
  rw [List.getElem?_append]
  split
  · rename_i hlt
    rw [or_iff_left]
    rintro ⟨rfl, _⟩
    exact Nat.lt_irrefl _ hlt
  · rename_i hge
    rw [List.getElem?_eq_none (Nat.le_of_not_lt hge), List.getElem?_singleton]
    split
    · rename_i hzero
      simp only [Option.some.injEq, reduceCtorEq, false_or]
      constructor
      · rintro rfl
        exact ⟨by omega, rfl⟩
      · rintro ⟨_, rfl⟩
        rfl
    · rename_i hpos
      simp only [reduceCtorEq, false_or, false_iff, not_and]
      omega

/-- What the last of the entries that ask for something asks for. -/
def lastAsked {β : Type} (f : α → Option β) (l : List α) : Option β := (l.filterMap f).getLast?

section Asked

variable {β : Type} {f : α → Option β} {v w : β}

@[simp] theorem lastAsked_nil : lastAsked f [] = none := rfl

theorem lastAsked_append (l l' : List α) :
    lastAsked f (l ++ l') = (lastAsked f l').or (lastAsked f l) := by
  unfold lastAsked
  rw [List.filterMap_append, List.getLast?_append]

theorem lastAsked_push (l : List α) (a : α) :
    lastAsked f (l ++ [a]) = (f a).or (lastAsked f l) := by
  rw [lastAsked_append]
  unfold lastAsked
  cases hf : f a <;> simp [hf]

theorem lastAsked_eq_none : lastAsked f l = none ↔ ∀ a ∈ l, f a = none := by
  unfold lastAsked
  rw [List.getLast?_eq_none_iff, List.filterMap_eq_nil_iff]

theorem split_at (hi : l[i]? = some c) :
    ∃ before after, l = before ++ c :: after ∧ before.length = i := by
  obtain ⟨hlt, rfl⟩ := List.getElem?_eq_some_iff.mp hi
  refine ⟨l.take i, l.drop (i + 1), ?_, List.length_take_of_le (Nat.le_of_lt hlt)⟩
  rw [← List.drop_eq_getElem_cons hlt, List.take_append_drop]

/-- An entry asks for the same as before. -/
theorem lastAsked_set_same (hi : l[i]? = some c) (hx : f x = f c) :
    lastAsked f (l.set i x) = lastAsked f l := by
  obtain ⟨before, after, rfl, rfl⟩ := split_at hi
  unfold lastAsked
  rw [List.set_append_right _ _ (Nat.le_refl _), Nat.sub_self, List.set_cons_zero,
    List.filterMap_append, List.filterMap_append, List.filterMap_cons, List.filterMap_cons, hx]

/-- The first entry that asks is served: what the last one asks for, or else what was served, is
as before. -/
theorem lastAsked_set_first (hi : l[i]? = some c) (hc : f c = some v) (hx : f x = none)
    (hfirst : ∀ (j : Nat) d, j < i → l[j]? = some d → f d = none) :
    (lastAsked f (l.set i x)).getD v = (lastAsked f l).getD w := by
  obtain ⟨before, after, rfl, rfl⟩ := split_at hi
  have hbefore : before.filterMap f = [] := by
    apply List.filterMap_eq_nil_iff.mpr
    intro d hd
    obtain ⟨j, hj⟩ := List.mem_iff_getElem?.mp hd
    have hlt := (List.getElem?_eq_some_iff.mp hj).1
    apply hfirst j d hlt
    rw [List.getElem?_append_left hlt]
    exact hj
  unfold lastAsked
  rw [List.set_append_right _ _ (Nat.le_refl _), Nat.sub_self, List.set_cons_zero,
    List.filterMap_append, List.filterMap_append, hbefore, List.filterMap_cons, List.filterMap_cons,
    hx, hc]
  simp [List.getLast?_cons]

end Asked

end Slots
