import Mathlib.Data.List.Induction
import Mathlib.Data.List.Nodup

/-!
# Grouping by first appearance

Items are collected under their keys, one group a key, in the order in which the keys first
appear. The groups are those of the distinct keys, each folded over its own items.
-/

namespace Grouping

set_option autoImplicit false

section Distinct

variable {α κ : Type*} [DecidableEq κ]

theorem eraseDups_concat (ks : List κ) (k : κ) :
    (ks ++ [k]).eraseDups = if k ∈ ks then ks.eraseDups else ks.eraseDups ++ [k] := by
  rw [List.eraseDups_append]
  by_cases hk : k ∈ ks
  · simp [hk, List.removeAll]
  · simp [hk, List.removeAll, List.eraseDups_cons]

theorem nodup_eraseDups (ks : List κ) : ks.eraseDups.Nodup := by
  induction ks using List.reverseRecOn with
  | nil => simp
  | append_singleton ks k ih =>
    rw [eraseDups_concat]
    split
    · exact ih
    · rename_i hk
      apply List.nodup_append.mpr
      refine ⟨ih, List.nodup_singleton k, ?_⟩
      intro a ha b hb hab
      rw [List.mem_singleton] at hb
      apply hk
      rw [← hb, ← hab]
      exact List.mem_eraseDups.mp ha

/-- The item at the end, unless an item of its key is there already. -/
def pushNew (key : α → κ) (xs : List α) (x : α) : List α :=
  if xs.any fun y => key y = key x then xs else xs ++ [x]

theorem map_pushNew (key : α → κ) (xs : List α) (x : α) :
    (pushNew key xs x).map key =
      if key x ∈ xs.map key then xs.map key else xs.map key ++ [key x] := by
  have hany : (xs.any fun y => key y = key x) = true ↔ key x ∈ xs.map key := by
    simp only [List.any_eq_true, decide_eq_true_eq, List.mem_map]
  unfold pushNew
  by_cases hx : key x ∈ xs.map key
  · rw [if_pos (hany.mpr hx), if_pos hx]
  · rw [if_neg fun h => hx (hany.mp h), if_neg hx, List.map_append, List.map_singleton]

theorem pushNew_sublist {key : α → κ} {xs ys : List α} {x : α} (h : xs.Sublist ys) :
    (pushNew key xs x).Sublist (ys ++ [x]) := by
  unfold pushNew
  split
  · exact h.trans (List.sublist_append_left ys [x])
  · exact h.append (List.Sublist.refl [x])

theorem foldl_pushNew_sublist (key : α → κ) (xs : List α) :
    (xs.foldl (pushNew key) []).Sublist xs := by
  induction xs using List.reverseRecOn with
  | nil => exact List.Sublist.refl _
  | append_singleton xs x ih =>
    rw [List.foldl_concat]
    exact pushNew_sublist ih

theorem prefix_foldl_pushNew (key : α → κ) (acc xs : List α) :
    acc <+: xs.foldl (pushNew key) acc := by
  induction xs generalizing acc with
  | nil => exact List.prefix_refl _
  | cons x xs ih =>
    refine List.IsPrefix.trans ?_ (ih (pushNew key acc x))
    unfold pushNew
    split
    · exact List.prefix_refl _
    · exact List.prefix_append _ _

theorem map_foldl_pushNew (key : α → κ) (xs : List α) :
    (xs.foldl (pushNew key) []).map key = (xs.map key).eraseDups := by
  induction xs using List.reverseRecOn with
  | nil => simp
  | append_singleton xs x ih =>
    rw [List.foldl_concat, map_pushNew, ih, List.map_append, List.map_singleton, eraseDups_concat]
    simp only [List.mem_eraseDups]

theorem mem_of_mem_foldl_pushNew {key : α → κ} {xs : List α} {y : α}
    (h : y ∈ xs.foldl (pushNew key) []) : y ∈ xs :=
  (foldl_pushNew_sublist key xs).subset h

end Distinct

/-- Two folds over one list keep a relation that their steps keep. -/
theorem foldl_simulates {α β γ : Type*} {R : β → γ → Prop} {f : β → α → β} {g : γ → α → γ}
    (hstep : ∀ {b c}, R b c → ∀ a, R (f b a) (g c a)) (l : List α) {b : β} {c : γ} (h : R b c) :
    R (l.foldl f b) (l.foldl g c) := by
  induction l generalizing b c with
  | nil => exact h
  | cons a l ih => exact ih (hstep h a)

section Groups

variable {α κ ν : Type*} [DecidableEq κ]

/-- The entry of a key updated in place, or a new one at the end. -/
def upsert (k : κ) (start : ν) (update : ν → ν) : List (κ × ν) → List (κ × ν)
  | [] => [(k, update start)]
  | g :: gs => if g.1 = k then (g.1, update g.2) :: gs else g :: upsert k start update gs

theorem upsert_of_notMem {k : κ} {start : ν} {update : ν → ν} {gs : List (κ × ν)}
    (hk : k ∉ gs.map Prod.fst) : upsert k start update gs = gs ++ [(k, update start)] := by
  induction gs with
  | nil => rfl
  | cons g gs ih =>
    simp only [List.map_cons, List.mem_cons, not_or] at hk
    rw [upsert, if_neg (Ne.symm hk.1), ih hk.2, List.cons_append]

theorem upsert_map {ks : List κ} (hks : ks.Nodup) (f : κ → ν) {k : κ} (hk : k ∈ ks) (start : ν)
    (update : ν → ν) : upsert k start update (ks.map fun i => (i, f i)) =
      ks.map fun i => (i, if i = k then update (f i) else f i) := by
  induction ks with
  | nil => cases hk
  | cons i ks ih =>
    obtain ⟨hi, hks⟩ := List.nodup_cons.mp hks
    simp only [List.map_cons, upsert]
    by_cases hik : i = k
    · subst hik
      -- the key is not repeated, so that the rest stays
      have hrest : ∀ j ∈ ks, (j, f j) = (j, if j = i then update (f j) else f j) := by
        intro j hj
        have hji : j ≠ i := fun h => hi (h ▸ hj)
        rw [if_neg hji]
      rw [if_pos rfl, if_pos rfl, List.map_congr_left hrest]
    · have hk : k ∈ ks := (List.mem_cons.mp hk).resolve_left (Ne.symm hik)
      rw [if_neg hik, if_neg hik, ih hks hk]

theorem map_fst_upsert (k : κ) (start : ν) (update : ν → ν) (gs : List (κ × ν)) :
    (upsert k start update gs).map Prod.fst =
      if k ∈ gs.map Prod.fst then gs.map Prod.fst else gs.map Prod.fst ++ [k] := by
  induction gs with
  | nil => rfl
  | cons g gs ih =>
    rw [upsert]
    by_cases hg : g.1 = k
    · rw [if_pos hg, if_pos (by simp [hg])]
      rfl
    · have hmem : k ∈ (g :: gs).map Prod.fst ↔ k ∈ gs.map Prod.fst := by
        simp [Ne.symm hg]
      simp only [if_neg hg, hmem]
      rw [List.map_cons, ih]
      split
      · rfl
      · rfl

theorem nodup_upsert {gs : List (κ × ν)} (h : (gs.map Prod.fst).Nodup) (k : κ) (start : ν)
    (update : ν → ν) : ((upsert k start update gs).map Prod.fst).Nodup := by
  rw [map_fst_upsert]
  split
  · exact h
  · rename_i hk
    rw [← List.concat_eq_append]
    exact h.concat hk

/-- An upsert touches the entry of its key only. -/
theorem mem_upsert {gs : List (κ × ν)} (h : (gs.map Prod.fst).Nodup) {k j : κ} {start v : ν}
    {update : ν → ν} : (j, v) ∈ upsert k start update gs ↔
      (j ≠ k ∧ (j, v) ∈ gs) ∨ (j = k ∧ ((∃ w, (k, w) ∈ gs ∧ v = update w) ∨
        (k ∉ gs.map Prod.fst ∧ v = update start))) := by
  induction gs with
  | nil =>
    simp only [upsert, List.mem_singleton, Prod.mk.injEq, List.not_mem_nil, and_false, false_or,
      List.map_nil, not_false_eq_true, true_and, false_and, exists_false]
  | cons g gs ih =>
    obtain ⟨i, w⟩ := g
    rw [List.map_cons, List.nodup_cons] at h
    obtain ⟨hi, h⟩ := h
    have hrest : ∀ {l u}, (l, u) ∈ gs → l ≠ i := by
      intro l u hl hli
      exact hi (hli ▸ List.mem_map.mpr ⟨_, hl, rfl⟩)
    rw [upsert]
    split
    · rename_i hik
      simp only at hik
      subst hik
      simp only [List.mem_cons, Prod.mk.injEq, List.map_cons, true_or, not_true_eq_false,
        false_and, or_false, true_and]
      constructor
      · rintro (⟨rfl, rfl⟩ | hmem)
        · exact .inr ⟨rfl, w, .inl rfl, rfl⟩
        · exact .inl ⟨hrest hmem, .inr hmem⟩
      · rintro (⟨hne, ⟨hji, _⟩ | hmem⟩ | ⟨rfl, u, hu, rfl⟩)
        · exact absurd hji hne
        · exact .inr hmem
        · cases hu with
          | inl hu => exact .inl ⟨rfl, by rw [hu]⟩
          | inr hu => exact absurd rfl (hrest hu)
    · rename_i hik
      simp only at hik
      simp only [List.mem_cons, Prod.mk.injEq, ih h, List.map_cons, not_or]
      constructor
      · rintro (⟨rfl, rfl⟩ | ⟨hne, hmem⟩ | ⟨rfl, ⟨u, hu, rfl⟩ | ⟨hk, rfl⟩⟩)
        · exact .inl ⟨hik, .inl ⟨rfl, rfl⟩⟩
        · exact .inl ⟨hne, .inr hmem⟩
        · exact .inr ⟨rfl, .inl ⟨u, .inr hu, rfl⟩⟩
        · exact .inr ⟨rfl, .inr ⟨⟨Ne.symm hik, hk⟩, rfl⟩⟩
      · rintro (⟨hne, hmem | hmem⟩ | ⟨rfl, ⟨u, hu | hu, rfl⟩ | ⟨hk, rfl⟩⟩)
        · exact .inl hmem
        · exact .inr (.inl ⟨hne, hmem⟩)
        · exact absurd hu.1.symm hik
        · exact .inr (.inr ⟨rfl, .inl ⟨u, hu, rfl⟩⟩)
        · exact .inr (.inr ⟨rfl, .inr ⟨hk.2, rfl⟩⟩)

/-- How often each key comes, with the tag of its first item. -/
def tally {τ : Type*} (key : α → κ) (tag : α → τ) (xs : List α) : List (κ × (Nat × τ)) :=
  xs.foldl (fun gs x => upsert (key x) (0, tag x) (fun v => (v.1 + 1, v.2)) gs) []

theorem tally_concat {τ : Type*} (key : α → κ) (tag : α → τ) (xs : List α) (x : α) :
    tally key tag (xs ++ [x]) =
      upsert (key x) (0, tag x) (fun v => (v.1 + 1, v.2)) (tally key tag xs) := by
  unfold tally
  rw [List.foldl_concat]

theorem nodup_tally {τ : Type*} (key : α → κ) (tag : α → τ) (xs : List α) :
    ((tally key tag xs).map Prod.fst).Nodup := by
  induction xs using List.reverseRecOn with
  | nil => exact List.nodup_nil
  | append_singleton xs x ih =>
    rw [tally_concat]
    exact nodup_upsert ih _ _ _

theorem mem_keys_tally {τ : Type*} {key : α → κ} {tag : α → τ} {xs : List α} {k : κ} :
    k ∈ (tally key tag xs).map Prod.fst ↔ ∃ x ∈ xs, key x = k := by
  induction xs using List.reverseRecOn with
  | nil => simp [tally]
  | append_singleton xs x ih =>
    rw [tally_concat, map_fst_upsert]
    have hnew : (∃ y ∈ xs ++ [x], key y = k) ↔ (∃ y ∈ xs, key y = k) ∨ key x = k := by
      simp [or_and_right, exists_or]
    rw [hnew]
    split
    · rename_i hx
      rw [ih]
      constructor
      · exact .inl
      · rintro (h | rfl)
        · exact h
        · exact ih.mp hx
    · rw [List.mem_append, List.mem_singleton, ih, eq_comm (a := k)]

/-- The count of a key is the number of its items. -/
theorem count_of_mem_tally {τ : Type*} {key : α → κ} {tag : α → τ} {xs : List α} {k : κ}
    {v : Nat × τ} (h : (k, v) ∈ tally key tag xs) : v.1 = xs.countP fun x => key x = k := by
  induction xs using List.reverseRecOn generalizing v with
  | nil => cases h
  | append_singleton xs x ih =>
    rw [tally_concat, mem_upsert (nodup_tally key tag xs)] at h
    rw [List.countP_append, List.countP_singleton]
    rcases h with ⟨hk, hmem⟩ | ⟨rfl, ⟨w, hw, rfl⟩ | ⟨hk, rfl⟩⟩
    · rw [if_neg (by simpa using Ne.symm hk), ih hmem]
      rfl
    · rw [if_pos (by simp), ih hw]
    · rw [if_pos (by simp)]
      have hnone : xs.countP (fun y => key y = key x) = 0 := by
        rw [List.countP_eq_zero]
        intro y hy
        simp only [decide_eq_true_eq]
        exact fun hkey => hk (mem_keys_tally.mpr ⟨y, hy, hkey⟩)
      rw [hnone]

/-- The groups of a list of items. -/
def group (key : α → κ) (start : ν) (add : ν → α → ν) (xs : List α) : List (κ × ν) :=
  xs.foldl (fun gs x => upsert (key x) start (fun v => add v x) gs) []

theorem group_eq (key : α → κ) (start : ν) (add : ν → α → ν) (xs : List α) :
    group key start add xs =
      (xs.map key).eraseDups.map fun k => (k, (xs.filter fun x => key x = k).foldl add start) := by
  induction xs using List.reverseRecOn with
  | nil => rfl
  | append_singleton xs x ih =>
    have hstep : group key start add (xs ++ [x]) =
        upsert (key x) start (fun v => add v x) (group key start add xs) := by
      unfold group
      rw [List.foldl_concat]
    rw [hstep, ih, List.map_append, List.map_singleton, eraseDups_concat]
    have hother : ∀ k, k ≠ key x → (xs ++ [x]).filter (fun y => key y = k) =
        xs.filter fun y => key y = k := by
      intro k hk
      rw [List.filter_append, List.filter_singleton]
      simp [Ne.symm hk]
    have hown : (xs ++ [x]).filter (fun y => key y = key x) =
        (xs.filter fun y => key y = key x) ++ [x] := by
      rw [List.filter_append, List.filter_singleton]
      simp
    split
    · rename_i hx
      rw [upsert_map (nodup_eraseDups _) _ (List.mem_eraseDups.mpr hx)]
      apply List.map_congr_left
      intro k _
      by_cases hk : k = key x
      · subst hk
        rw [if_pos rfl, hown, List.foldl_concat]
      · rw [if_neg hk, hother k hk]
    · rename_i hx
      have hnone : xs.filter (fun y => key y = key x) = [] := by
        rw [List.filter_eq_nil_iff]
        intro y hy
        simp only [decide_eq_true_eq]
        exact fun h => hx (List.mem_map.mpr ⟨y, hy, h⟩)
      rw [upsert_of_notMem, List.map_append, List.map_singleton, hown, hnone]
      · congr 1
        apply List.map_congr_left
        intro k hk
        rw [hother k fun h => hx (h ▸ List.mem_eraseDups.mp hk)]
      · rw [List.map_map]
        simpa [Function.comp_def] using hx

end Groups

/-- The order in which a hash map yields its entries: any rearrangement of them. -/
structure IterationOrder where
  arrange : {α : Type} → List α → List α
  perm : ∀ {α : Type} (l : List α), (arrange l).Perm l

end Grouping
