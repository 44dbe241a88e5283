import LensLM.Lib.Cutting

/-!
# The first place of a needle

A needle none of whose ends is also its beginning is not found before the place where it was written
behind a text without it.
-/

namespace Search

open Cutting

set_option autoImplicit false

variable {α : Type} {needle : List α}

/-- No part of the list is both its beginning and its end. -/
def Unbordered (needle : List α) : Prop :=
  ∀ v ∈ needle.inits, v ∈ needle.tails → v = [] ∨ v = needle

theorem unbordered_singleton (a : α) : Unbordered [a] := by
  intro v hv htail
  simpa using hv

/-- A needle that has its last symbol nowhere else. -/
theorem unbordered_concat {s : List α} {a : α} (h : a ∉ s) : Unbordered (s ++ [a]) := by
  intro v hv htail
  rw [List.mem_inits] at hv
  rw [List.mem_tails] at htail
  rcases List.eq_nil_or_concat' v with rfl | ⟨w, b, rfl⟩
  · exact .inl rfl
  · obtain rfl : b = a := by
      obtain ⟨front, hfront⟩ := htail
      rw [← List.append_assoc] at hfront
      exact List.singleton_inj.mp (List.append_inj_right' hfront rfl)
    rcases List.prefix_concat_iff.mp hv with heq | hin
    · exact .inr heq
    · exact absurd (hin.subset (List.mem_append_right w List.mem_cons_self)) h

/-- A needle that ends in what the text has only at its end is found there at most. -/
theorem suffix_of_infix_concat {s t : List α} {a : α} (ha : a ∉ s) (h : t ++ [a] <:+: s ++ [a]) :
    t <:+ s := by
  obtain ⟨front, behind, heq⟩ := h
  rcases List.eq_nil_or_concat' behind with rfl | ⟨w, b, rfl⟩
  · rw [List.append_nil, ← List.append_assoc] at heq
    exact ⟨front, List.append_inj_left' heq rfl⟩
  · rw [← List.append_assoc] at heq
    rw [← List.append_inj_left' heq rfl] at ha
    simp at ha

/-- A needle begins where its first symbol stands. -/
theorem infix_of_infix_append {s t u : List α} {a : α} (ha : a ∉ s) (h : a :: t <:+: s ++ u) :
    a :: t <:+: u := by
  induction s with
  | nil => exact h
  | cons b s ih =>
    rw [List.mem_cons, not_or] at ha
    rcases List.infix_cons_iff.mp h with h | h
    · exact absurd (List.cons_prefix_cons.mp h).1 ha.1
    · exact ih ha.2 h

/-- The needle does not begin in the text and end in the needle behind it. -/
theorem not_begins_within (hneedle : Unbordered needle) {body : List α} (hbody : body ≠ [])
    (hfree : ¬needle <:+: body) (rest : List α) : ¬needle <+: body ++ (needle ++ rest) := by
  intro h
  rcases prefix_cases h with h | ⟨v, hne, heq, hv⟩
  · exact hfree h.isInfix
  · have hlen : v.length < needle.length := by
      have hlong := congrArg List.length heq
      have hpos := List.length_pos_iff.mpr hbody
      rw [List.length_append] at hlong
      omega
    have hbegin : v <+: needle :=
      List.prefix_of_prefix_length_le hv (List.prefix_append needle rest) (le_of_lt hlen)
    rcases hneedle v ((List.mem_inits v needle).mpr hbegin)
      ((List.mem_tails v needle).mpr ⟨body, heq.symm⟩) with h | h
    · exact hne h
    · rw [h] at hlen
      omega

variable [DecidableEq α]

instance (needle : List α) : Decidable (Unbordered needle) :=
  inferInstanceAs (Decidable (∀ v ∈ needle.inits, v ∈ needle.tails → v = [] ∨ v = needle))

def findSubslice (needle : List α) : List α → Option Nat
  | [] => none
  | a :: rest =>
    if needle <+: a :: rest then some 0 else (findSubslice needle rest).map (· + 1)

/-- The rest behind the first place of the needle. -/
def after (needle : List α) (s : List α) : Option (List α) :=
  (findSubslice needle s).map fun found => s.drop (found + needle.length)

theorem findSubslice_here (hne : needle ≠ []) (rest : List α) :
    findSubslice needle (needle ++ rest) = some 0 := by
  cases needle with
  | nil => exact absurd rfl hne
  | cons a needle =>
    rw [List.cons_append, findSubslice, if_pos]
    exact List.prefix_append (a :: needle) rest

theorem findSubslice_behind (hneedle : Unbordered needle) (hne : needle ≠ []) {body : List α}
    (hfree : ¬needle <:+: body) (rest : List α) :
    findSubslice needle (body ++ (needle ++ rest)) = some body.length := by
  induction body with
  | nil => exact findSubslice_here hne rest
  | cons a body ih =>
    have hno := not_begins_within hneedle (List.cons_ne_nil a body) hfree rest
    have hrest : ¬needle <:+: body := by
      intro h
      exact hfree (h.trans (List.suffix_cons a body).isInfix)
    rw [List.cons_append] at hno ⊢
    rw [findSubslice, if_neg hno, ih hrest]
    rfl

theorem after_behind (hneedle : Unbordered needle) (hne : needle ≠ []) {body : List α}
    (hfree : ¬needle <:+: body) (rest : List α) :
    after needle (body ++ (needle ++ rest)) = some rest := by
  unfold after
  rw [findSubslice_behind hneedle hne hfree, Option.map_some, ← List.append_assoc,
    ← List.length_append, List.drop_left]

/-- What stands in front of the first place of the needle, and what stands behind it. -/
def splitFirst (needle s : List α) : Option (List α × List α) :=
  (findSubslice needle s).map fun found => (s.take found, s.drop (found + needle.length))

theorem findSubslice_eq_none (hne : needle ≠ []) {s : List α} :
    findSubslice needle s = none ↔ ¬needle <:+: s := by
  induction s with
  | nil => simp [findSubslice, hne]
  | cons a s ih =>
    rw [findSubslice, List.infix_cons_iff, not_or]
    split
    · rename_i hhere
      simp [hhere]
    · rename_i hhere
      rw [Option.map_eq_none_iff, ih]
      simp [hhere]

theorem splitFirst_eq_none (hne : needle ≠ []) {s : List α} :
    splitFirst needle s = none ↔ ¬needle <:+: s := by
  rw [splitFirst, Option.map_eq_none_iff, findSubslice_eq_none hne]

theorem split_of_findSubslice {s : List α} {found : Nat} (h : findSubslice needle s = some found) :
    s = s.take found ++ (needle ++ s.drop (found + needle.length)) ∧
      (needle ≠ [] → ¬needle <:+: s.take found) := by
  induction s generalizing found with
  | nil => simp [findSubslice] at h
  | cons a s ih =>
    rw [findSubslice] at h
    split at h
    · rename_i hhere
      obtain rfl := Option.some.inj h
      obtain ⟨rest, hrest⟩ := hhere
      rw [← hrest, List.take_zero, Nat.zero_add, List.drop_left]
      exact ⟨rfl, fun hne => by simp [hne]⟩
    · rename_i hhere
      obtain ⟨k, hk, rfl⟩ := Option.map_eq_some_iff.mp h
      obtain ⟨hs, hfree⟩ := ih hk
      have hshift : k + 1 + needle.length = k + needle.length + 1 := by omega
      rw [List.take_succ_cons, hshift, List.drop_succ_cons, List.cons_append, ← hs]
      refine ⟨rfl, fun hne hin => ?_⟩
      rcases List.infix_cons_iff.mp hin with hin | hin
      · exact hhere (hin.trans (List.prefix_cons_inj a |>.mpr (List.take_prefix k s)))
      · exact hfree hne hin

/-- A split is a place of the needle with none in front of it. -/
theorem splitFirst_eq_some (hneedle : Unbordered needle) (hne : needle ≠ []) {s a b : List α} :
    splitFirst needle s = some (a, b) ↔ s = a ++ (needle ++ b) ∧ ¬needle <:+: a := by
  constructor
  · intro h
    obtain ⟨found, hfound, heq⟩ := Option.map_eq_some_iff.mp h
    obtain ⟨rfl, rfl⟩ := Prod.mk.inj heq
    obtain ⟨hs, hfree⟩ := split_of_findSubslice hfound
    exact ⟨hs, hfree hne⟩
  · rintro ⟨rfl, hfree⟩
    rw [splitFirst, findSubslice_behind hneedle hne hfree, Option.map_some, List.take_left,
      ← List.append_assoc, ← List.length_append, List.drop_left]

theorem length_after_le {s r : List α} (h : after needle s = some r) : r.length ≤ s.length := by
  unfold after at h
  obtain ⟨found, -, rfl⟩ := Option.map_eq_some_iff.mp h
  rw [List.length_drop]
  omega

end Search
