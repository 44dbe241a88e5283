import LensLM.Lib.Grouping
import LensLM.Lib.Ranking
import Mathlib.Data.List.Basic
import Mathlib.Data.Finset.Card
import Mathlib.Data.Prod.Lex

/-!
# Entries numbered by first appearance

A map is filled item by item: the first item of a key makes an entry with the next number, and each
later one updates it.
-/

namespace FirstSeen

open Grouping Ranking

set_option autoImplicit false

section Ordinals

variable {κ : Type*} [DecidableEq κ]

/-- The number of a key among the distinct keys. -/
def ordinal (ks : List κ) (k : κ) : Nat := ks.eraseDups.idxOf k

theorem ordinal_concat_of_mem {ks : List κ} {k : κ} (hk : k ∈ ks) (j : κ) :
    ordinal (ks ++ [j]) k = ordinal ks k := by
  unfold ordinal
  rw [eraseDups_concat]
  split
  · rfl
  · exact List.idxOf_append_of_mem (List.mem_eraseDups.mpr hk)

theorem ordinal_concat_new {ks : List κ} {k : κ} (hk : k ∉ ks) :
    ordinal (ks ++ [k]) k = ks.eraseDups.length := by
  unfold ordinal
  rw [eraseDups_concat, if_neg hk, List.idxOf_append_of_notMem (by simpa using hk)]
  simp

theorem ordinal_lt_of_mem {ks : List κ} {k : κ} (hk : k ∈ ks) :
    ordinal ks k < ks.eraseDups.length :=
  List.idxOf_lt_length_of_mem (List.mem_eraseDups.mpr hk)

theorem ordinal_inj {ks : List κ} {j k : κ} (hj : j ∈ ks) (h : ordinal ks j = ordinal ks k) :
    j = k :=
  (List.idxOf_inj (List.mem_eraseDups.mpr hj)).mp h

/-- The numbers follow the places where the keys first appear. -/
theorem ordinal_lt_iff {ks : List κ} {j k : κ} (hj : j ∈ ks) (hk : k ∈ ks) :
    ordinal ks j < ordinal ks k ↔ ks.idxOf j < ks.idxOf k := by
  induction ks using List.reverseRecOn with
  | nil => cases hj
  | append_singleton ks x ih =>
    by_cases hjm : j ∈ ks
    · rw [ordinal_concat_of_mem hjm, List.idxOf_append_of_mem hjm]
      by_cases hkm : k ∈ ks
      · rw [ordinal_concat_of_mem hkm, List.idxOf_append_of_mem hkm]
        exact ih hjm hkm
      · have hkx : k = x := by simpa [hkm] using hk
        subst hkx
        rw [ordinal_concat_new hkm, List.idxOf_append_of_notMem hkm]
        have := ordinal_lt_of_mem hjm
        have := List.idxOf_lt_length_of_mem hjm
        omega
    · have hjx : j = x := by simpa [hjm] using hj
      subst hjx
      rw [ordinal_concat_new hjm, List.idxOf_append_of_notMem hjm]
      by_cases hkm : k ∈ ks
      · rw [ordinal_concat_of_mem hkm, List.idxOf_append_of_mem hkm]
        have := ordinal_lt_of_mem hkm
        have := List.idxOf_lt_length_of_mem hkm
        omega
      · have hkj : k = j := by simpa [hkm] using hk
        subst hkj
        rw [ordinal_concat_new hkm, List.idxOf_append_of_notMem hkm]
        simp

end Ordinals

section Unions

variable {α : Type*} [DecidableEq α] {lists : List (List α)} {out : List α}

/-- The elements of some lists, none twice, in the order in which they first appear. -/
structure UnionOf (lists : List (List α)) (out : List α) : Prop where
  complete : ∀ x, x ∈ out ↔ ∃ l ∈ lists, x ∈ l
  nodup : out.Nodup
  order : ∀ x ∈ out, ∀ y ∈ out,
    out.idxOf x < out.idxOf y ↔ lists.flatten.idxOf x < lists.flatten.idxOf y

theorem foldl_pushNew_id (xs : List α) : xs.foldl (pushNew id) [] = xs.eraseDups := by
  have hmap := map_foldl_pushNew id xs
  rwa [List.map_id, List.map_id] at hmap

theorem unionOf_foldl_pushNew (lists : List (List α)) :
    UnionOf lists (lists.flatten.foldl (pushNew id) []) := by
  rw [foldl_pushNew_id]
  exact {
    complete := fun x => by rw [List.mem_eraseDups, List.mem_flatten]
    nodup := nodup_eraseDups _
    order := fun x hx y hy => ordinal_lt_iff (List.mem_eraseDups.mp hx) (List.mem_eraseDups.mp hy) }

/-- As long as there are different elements. -/
theorem UnionOf.length_eq (h : UnionOf lists out) : out.length = lists.flatten.toFinset.card := by
  have hsame : lists.flatten.toFinset = out.toFinset := by
    ext x
    rw [List.mem_toFinset, List.mem_toFinset, List.mem_flatten, h.complete]
  rw [hsame, List.toFinset_card_of_nodup h.nodup]

/-- Appended lists are their union exactly if nothing comes twice. -/
theorem unionOf_flatten_iff : UnionOf lists lists.flatten ↔ lists.flatten.Nodup := by
  constructor
  · exact UnionOf.nodup
  · intro h
    exact ⟨fun _ => List.mem_flatten, h, fun _ _ _ _ => Iff.rfl⟩

end Unions

section Entries

variable {α κ ν : Type*} [DecidableEq κ] (key : α → κ) (fresh : Nat → α → ν) (update : ν → α → ν)

/-- The entries so far, and how many were made. -/
def record (st : List (κ × ν) × Nat) (a : α) : List (κ × ν) × Nat :=
  if key a ∈ st.1.map Prod.fst then
    (st.1.map fun e => if e.1 = key a then (e.1, update e.2 a) else e, st.2)
  else (st.1 ++ [(key a, fresh st.2 a)], st.2 + 1)

def recorded (items : List α) : List (κ × ν) × Nat :=
  items.foldl (record key fresh update) ([], 0)

variable {key fresh update}

theorem recorded_concat (items : List α) (a : α) : recorded key fresh update (items ++ [a]) =
    record key fresh update (recorded key fresh update items) a := List.foldl_concat ..

theorem map_fst_recorded (items : List α) :
    (recorded key fresh update items).1.map Prod.fst = (items.map key).eraseDups := by
  induction items using List.reverseRecOn with
  | nil => simp [recorded]
  | append_singleton items a ih =>
    rw [recorded_concat, List.map_append, List.map_singleton, eraseDups_concat]
    unfold record
    rw [ih]
    simp only [List.mem_eraseDups]
    split
    · rw [← ih, List.map_map]
      apply List.map_congr_left
      intro e _
      rw [Function.comp_apply]
      split
      · rfl
      · rfl
    · rw [List.map_append, ih, List.map_singleton]

theorem nodup_recorded (items : List α) :
    ((recorded key fresh update items).1.map Prod.fst).Nodup := by
  rw [map_fst_recorded]
  exact nodup_eraseDups _

theorem mem_keys_recorded {items : List α} {k : κ} :
    k ∈ (recorded key fresh update items).1.map Prod.fst ↔ k ∈ items.map key := by
  rw [map_fst_recorded, List.mem_eraseDups]

theorem recorded_count (items : List α) :
    (recorded key fresh update items).2 = (items.map key).eraseDups.length := by
  induction items using List.reverseRecOn with
  | nil => rfl
  | append_singleton items a ih =>
    rw [recorded_concat, List.map_append, List.map_singleton, eraseDups_concat]
    unfold record
    simp only [mem_keys_recorded]
    split
    · exact ih
    · rw [ih, List.length_append]
      rfl

/-- What holds of a fresh entry, under its number, and of every update holds of all entries. -/
theorem recorded_induction {P : List α → κ → ν → Prop}
    (hfresh : ∀ items a, key a ∉ items.map key →
      P (items ++ [a]) (key a) (fresh (ordinal ((items ++ [a]).map key) (key a)) a))
    (hupdate : ∀ items a v, key a ∈ items.map key → P items (key a) v →
      P (items ++ [a]) (key a) (update v a))
    (hother : ∀ items a k v, k ≠ key a → k ∈ items.map key → P items k v → P (items ++ [a]) k v)
    {items : List α} {k : κ} {v : ν} (h : (k, v) ∈ (recorded key fresh update items).1) :
    P items k v := by
  induction items using List.reverseRecOn generalizing k v with
  | nil => cases h
  | append_singleton items a ih =>
    rw [recorded_concat] at h
    unfold record at h
    split at h
    · rename_i hseen
      obtain ⟨e, he, heq⟩ := List.mem_map.mp h
      have hP : P items e.1 e.2 := ih he
      split at heq
      · rename_i hkey
        cases heq
        rw [hkey] at hP ⊢
        exact hupdate items a e.2 (mem_keys_recorded.mp hseen) hP
      · rename_i hkey
        cases heq
        exact hother items a _ _ hkey (mem_keys_recorded.mp (List.mem_map_of_mem he)) hP
    · rename_i hnew
      have hnew : key a ∉ items.map key := fun hmem => hnew (mem_keys_recorded.mpr hmem)
      rcases List.mem_append.mp h with hmem | hmem
      · have hk : k ∈ items.map key := mem_keys_recorded.mp (List.mem_map_of_mem hmem)
        refine hother items a k v ?_ hk (ih hmem)
        rintro rfl
        exact hnew hk
      · cases List.mem_singleton.mp hmem
        have hnumber : (recorded key fresh update items).2 =
            ordinal ((items ++ [a]).map key) (key a) := by
          rw [recorded_count, List.map_append, List.map_singleton, ordinal_concat_new hnew]
        rw [hnumber]
        exact hfresh items a hnew

end Entries

section Standings

variable {κ ν σ : Type*} {score : ν → σ} {number : ν → Nat}

theorem nodup_standing_keys {es : List (κ × ν)} (h : (es.map fun e => number e.2).Nodup) :
    (es.map fun e => toLex (OrderDual.toDual (score e.2), number e.2)).Nodup := by
  apply List.Nodup.of_map fun k : σᵒᵈ ×ₗ Nat => (ofLex k).2
  rw [List.map_map]
  exact h

variable [LinearOrder σ] (score number)

/-- The entries by score, the highest first, and of equal scores by number. -/
def standings (es : List (κ × ν)) : List (κ × ν) :=
  sortByKey (fun e => toLex (OrderDual.toDual (score e.2), number e.2)) es

variable {score number}

theorem standings_perm (es : List (κ × ν)) : (standings score number es).Perm es :=
  sortByKey_perm _ es

theorem standings_pairwise {es : List (κ × ν)} (h : (es.map fun e => number e.2).Nodup) :
    (standings score number es).Pairwise fun d e =>
      score e.2 < score d.2 ∨ (score d.2 = score e.2 ∧ number d.2 < number e.2) := by
  apply (sortByKey_strict (nodup_standing_keys h)).imp
  intro d e hlt
  rcases Prod.Lex.toLex_lt_toLex.mp hlt with hscore | ⟨hscore, hnumber⟩
  · exact .inl (OrderDual.toDual_lt_toDual.mp hscore)
  · exact .inr ⟨OrderDual.toDual_inj.mp hscore, hnumber⟩

/-- The standings do not depend on the order in which a map is iterated. -/
theorem standings_eq_of_perm {es fs : List (κ × ν)} (hperm : es.Perm fs)
    (h : (es.map fun e => number e.2).Nodup) :
    standings score number es = standings score number fs :=
  sortByKey_eq_of_perm hperm (nodup_standing_keys h)

/-- Entries numbered by their keys have distinct numbers. -/
theorem nodup_numbers [DecidableEq κ] {es : List (κ × ν)} {ks : List κ}
    (hkeys : (es.map Prod.fst).Nodup) (hmem : ∀ e ∈ es, e.1 ∈ ks)
    (hnumber : ∀ e ∈ es, number e.2 = ordinal ks e.1) : (es.map fun e => number e.2).Nodup := by
  rw [List.map_congr_left hnumber]
  apply List.Nodup.map_on _ hkeys.of_map
  intro d hd e he heq
  exact List.inj_on_of_nodup_map hkeys hd he (ordinal_inj (hmem d hd) heq)

end Standings

end FirstSeen
