import LensLM.LlmBudget
import LensLM.Lib.Batches

/-!
# The batches of the language model's calls

The sections of a map and of a coreference pass are packed in their order. An accumulator carries the
closed batches, the open one and its cost.
-/

namespace LensLM

open ByteText Batches

set_option autoImplicit false

section Loop

variable {T : Type} {budget separatorLen : Nat} {lenFn : T → Nat}

/-- An item brings its separator. -/
def itemCost (separatorLen : Nat) (lenFn : T → Nat) (item : T) : Nat := lenFn item + separatorLen

def batchStep (budget separatorLen : Nat) (lenFn : T → Nat) (st : List (List T) × List T × Nat)
    (item : T) : List (List T) × List T × Nat :=
  let cost := itemCost separatorLen lenFn item
  if !st.2.1.isEmpty && decide (st.2.2 + cost > budget) then (st.1 ++ [st.2.1], [item], cost)
  else (st.1, st.2.1 ++ [item], st.2.2 + cost)

/-- The open batch is the last one, and the counter is its cost. -/
inductive Open (budget separatorLen : Nat) (lenFn : T → Nat) (items : List T) :
    List (List T) × List T × Nat → Prop
  | empty : items = [] → Open budget separatorLen lenFn items ([], [], 0)
  | batch {closed : List (List T)} {current : List T} : current ≠ [] →
      Greedy (itemCost separatorLen lenFn) budget items (closed ++ [current]) →
      Open budget separatorLen lenFn items
        (closed, current, total (itemCost separatorLen lenFn) current)

theorem batchStep_open {items : List T} {st : List (List T) × List T × Nat} (item : T)
    (h : Open budget separatorLen lenFn items st) :
    Open budget separatorLen lenFn (items ++ [item]) (batchStep budget separatorLen lenFn st item) := by
  cases h with
  | empty hitems =>
    subst hitems
    have hopen : Open budget separatorLen lenFn [item]
        ([], [item], total (itemCost separatorLen lenFn) [item]) :=
      .batch (List.cons_ne_nil item []) .start
    rw [total_singleton] at hopen
    unfold batchStep
    rw [if_neg (by simp)]
    simpa using hopen
  | @batch closed current hne hgreedy =>
    have hcurrent : current.isEmpty = false := by simpa using hne
    unfold batchStep
    dsimp only
    rw [hcurrent]
    split
    · rename_i hover
      have hover := Nat.lt_of_succ_le (of_decide_eq_true hover)
      have hcost : itemCost separatorLen lenFn item = total (itemCost separatorLen lenFn) [item] :=
        total_singleton.symm
      rw [hcost]
      exact .batch (List.cons_ne_nil item []) (hgreedy.close hover)
    · rename_i hfits
      have hfits := Nat.not_lt.mp fun hover => hfits (decide_eq_true hover)
      rw [← total_concat]
      exact .batch (List.append_ne_nil_of_right_ne_nil _ (List.cons_ne_nil item []))
        (hgreedy.extend hfits)

variable (budget separatorLen lenFn) (items : List T)

theorem foldl_batchStep_open : Open budget separatorLen lenFn items
    (items.foldl (batchStep budget separatorLen lenFn) ([], [], 0)) := by
  induction items using List.reverseRecOn with
  | nil => exact .empty rfl
  | append_singleton items item ih =>
    rw [List.foldl_append]
    exact batchStep_open item ih

theorem batchByCharBudget_eq : batchByCharBudget items budget separatorLen lenFn =
    let st := items.foldl (batchStep budget separatorLen lenFn) ([], [], 0)
    if st.2.1.isEmpty then st.1 else st.1 ++ [st.2.1] := rfl

theorem greedy_batchByCharBudget : Greedy (itemCost separatorLen lenFn) budget items
    (batchByCharBudget items budget separatorLen lenFn) := by
  rw [batchByCharBudget_eq]
  have hopen := foldl_batchStep_open budget separatorLen lenFn items
  revert hopen
  generalize items.foldl (batchStep budget separatorLen lenFn) ([], [], 0) = st
  intro hopen
  cases hopen with
  | empty hitems =>
    subst hitems
    exact .nil
  | @batch closed current hne hgreedy =>
    have hcurrent : current.isEmpty = false := by simpa using hne
    dsimp only
    rw [hcurrent]
    exact hgreedy

end Loop

section Counts

variable {T : Type} {budget separatorLen : Nat} {lenFn : T → Nat}

/-- The characters of a batch, a separator for every item included. -/
def charCount (separatorLen : Nat) (lenFn : T → Nat) (batch : List T) : Nat :=
  (batch.map lenFn).sum + batch.length * separatorLen

theorem total_itemCost (batch : List T) :
    total (itemCost separatorLen lenFn) batch = charCount separatorLen lenFn batch := by
  unfold total itemCost charCount
  rw [List.sum_map_add, List.map_const', List.sum_replicate, smul_eq_mul]

theorem sum_le_charCount (batch : List T) :
    (batch.map lenFn).sum ≤ charCount separatorLen lenFn batch := Nat.le_add_right _ _

/-- The batches make up the items in their order, each is within the budget or a single item, and
the first item of the next batch would take it over. -/
structure CharBatches (budget separatorLen : Nat) (lenFn : T → Nat) (items : List T)
    (batches : List (List T)) : Prop where
  flatten : batches.flatten = items
  nonempty : [] ∉ batches
  within : ∀ batch ∈ batches,
    charCount separatorLen lenFn batch ≤ budget ∧ (batch.map lenFn).sum ≤ budget ∨
      ∃ item, batch = [item]
  full : batches.IsChain fun batch next => ∃ item rest, next = item :: rest ∧
    budget < charCount separatorLen lenFn (batch ++ [item])

theorem batchByCharBudget_batches (items : List T) (budget separatorLen : Nat) (lenFn : T → Nat) :
    CharBatches budget separatorLen lenFn items
      (batchByCharBudget items budget separatorLen lenFn) := by
  have h := greedy_batchByCharBudget budget separatorLen lenFn items
  refine ⟨h.flatten, h.nonempty, ?_, ?_⟩
  · intro batch hbatch
    refine (h.within batch hbatch).imp_left ?_
    intro hwithin
    rw [total_itemCost] at hwithin
    exact ⟨hwithin, (sum_le_charCount batch).trans hwithin⟩
  · refine List.IsChain.imp_of_mem_imp ?_ h.full
    intro batch next _ hnext hfull
    cases next with
    | nil => exact absurd hnext h.nonempty
    | cons item rest =>
      refine ⟨item, rest, rfl, ?_⟩
      rw [← total_itemCost, total_concat]
      exact hfull item rfl

end Counts

section Parents

theorem byteLen_intercalate_le (sep : Str) (texts : List Str) :
    byteLen (sep.intercalate texts) ≤ charCount (byteLen sep) byteLen texts := by
  unfold charCount
  induction texts with
  | nil => simp
  | cons text texts ih =>
    cases texts with
    | nil => simp [List.intercalate]
    | cons next texts =>
      rw [List.intercalate_cons_cons, byteLen_append, byteLen_append]
      simp only [List.map_cons, List.sum_cons, List.length_cons, Nat.add_mul] at ih ⊢
      omega

/-- What is sent of a document at once: no more bytes than the budget, or a single parent. -/
theorem batchParents_within {parentTexts : List Str} {text : Str}
    (h : text ∈ batchParents parentTexts) :
    byteLen text ≤ enrichmentBatchByteBudget ∨ text ∈ parentTexts := by
  have hgreedy := greedy_batchByCharBudget enrichmentBatchByteBudget parentSeparatorLen byteLen
    parentTexts
  obtain ⟨batch, hbatch, rfl⟩ := List.mem_map.mp h
  cases hgreedy.within batch hbatch with
  | inl hwithin =>
    rw [total_itemCost] at hwithin
    exact .inl ((byteLen_intercalate_le "\n\n".toList batch).trans hwithin)
  | inr hsingle =>
    obtain ⟨parent, rfl⟩ := hsingle
    have hmem := List.mem_flatten_of_mem hbatch (List.mem_singleton_self parent)
    rw [hgreedy.flatten] at hmem
    exact .inr (by simpa using hmem)

end Parents

end LensLM
