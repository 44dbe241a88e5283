import LensLM.AnswerPrompt

/-!
# Fitting a prompt into the context

What is left of the units and of the conversation is the first stage, in the order in which things
are dropped, that fits.
-/

namespace LensLM

open ByteText

set_option autoImplicit false

/-- A conversation of whole turns. -/
def turnMessages (turns : List (Str × Str)) : List LlmMessage :=
  turns.flatMap fun t => [⟨.user, t.1⟩, ⟨.assistant, t.2⟩]

@[simp] theorem turnMessages_nil : turnMessages [] = [] := rfl

@[simp] theorem turnMessages_cons (t : Str × Str) (turns : List (Str × Str)) :
    turnMessages (t :: turns) = ⟨.user, t.1⟩ :: ⟨.assistant, t.2⟩ :: turnMessages turns := rfl

@[simp] theorem length_turnMessages (turns : List (Str × Str)) :
    (turnMessages turns).length = 2 * turns.length := by
  induction turns with
  | nil => rfl
  | cons t turns ih =>
    simp only [turnMessages_cons, List.length_cons, ih]
    omega

@[simp] theorem drop_turnMessages_cons (t : Str × Str) (turns : List (Str × Str)) :
    (turnMessages (t :: turns)).drop 2 = turnMessages turns := rfl

section Budget

variable (tokenizer : Option (Str → Option Nat))

/-- What a conversation costs, message by message. -/
def historyTokens (history : List LlmMessage) : Nat :=
  (history.map fun m => measureTokens tokenizer m.content).sum

/-- The turns from the `j`-th on are the most recent ones that cost at most the cap. -/
structure Newest (cap : Nat) (turns : List (Str × Str)) (j : Nat) : Prop where
  le : j ≤ turns.length
  keeps : turns ≠ [] → j < turns.length
  within : historyTokens tokenizer (turnMessages (turns.drop j)) ≤ cap ∨
    (turns.drop j).length ≤ 1
  longest : ∀ k < j, cap < historyTokens tokenizer (turnMessages (turns.drop k))

theorem dropPairs_newest (cap : Nat) (turns : List (Str × Str)) :
    ∃ j, dropPairs tokenizer cap (turnMessages turns) = turnMessages (turns.drop j) ∧
      Newest tokenizer cap turns j := by
  induction turns with
  | nil =>
    refine ⟨0, ?_, ⟨by simp, by simp, by simp, by simp⟩⟩
    unfold dropPairs
    simp
  | cons t turns ih =>
    by_cases hwithin : historyTokens tokenizer (turnMessages (t :: turns)) ≤ cap
    · refine ⟨0, ?_, ⟨by simp, by simp, .inl hwithin, by simp⟩⟩
      rw [historyTokens] at hwithin
      unfold dropPairs
      rw [if_pos hwithin, ite_self]
      rfl
    · by_cases hlast : turns = []
      · refine ⟨0, ?_, ⟨by simp, by simp, .inr (by simp [hlast]), by simp⟩⟩
        unfold dropPairs
        rw [if_neg (by simp [hlast])]
        rfl
      · have hpos : 0 < turns.length := List.length_pos_of_ne_nil hlast
        obtain ⟨j, hj, hnewest⟩ := ih
        refine ⟨j + 1, ?_, ⟨?_, ?_, hnewest.within, ?_⟩⟩
        · rw [historyTokens] at hwithin
          unfold dropPairs
          rw [if_pos (by rw [length_turnMessages, List.length_cons]; omega), if_neg hwithin,
            drop_turnMessages_cons, hj, List.drop_succ_cons]
        · have := hnewest.le
          simpa using this
        · intro _
          have := hnewest.keeps hlast
          simpa using this
        · intro k hk
          cases k with
          | zero => exact Nat.lt_of_not_le hwithin
          | succ k => exact hnewest.longest k (by omega)

theorem budgetHistory_newest (turns : List (Str × Str)) {context : Nat} (hcontext : 0 < context) :
    ∃ j, budgetHistory tokenizer (turnMessages turns) context = turnMessages (turns.drop j) ∧
      Newest tokenizer (context / historyBudgetDivisor) turns j := by
  unfold budgetHistory
  split
  · next hempty =>
    have hzero : context ≠ 0 := by omega
    have hnil : turns = [] := by
      cases turns with
      | nil => rfl
      | cons t turns => simp [hzero] at hempty
    subst hnil
    exact ⟨0, rfl, ⟨by simp, by simp, by simp, by simp⟩⟩
  · exact dropPairs_newest tokenizer _ turns

end Budget

namespace FitInput

variable {κ : Type} (input : FitInput κ)

/-- The texts and the smallest reply are within the limit. -/
def Fits (units : List (ContextUnit κ)) (history : List LlmMessage) : Prop :=
  input.assembled units history + minOutputTokens ≤ input.ctxLimit

section Loop

variable {input} {units : List (ContextUnit κ)} {history : List LlmMessage}

theorem fitLoop_fits (h : input.Fits units history) :
    input.fitLoop units history = (units, history) := by
  rw [Fits] at h
  rw [fitLoop, if_pos h]

theorem fitLoop_dropLast (h : ¬ input.Fits units history) (hlen : 1 < units.length) :
    input.fitLoop units history = input.fitLoop units.dropLast history := by
  rw [Fits] at h
  rw [fitLoop, if_neg h, if_pos hlen]

theorem fitLoop_drop (h : ¬ input.Fits units history) (hunits : units.length ≤ 1)
    (hlen : 2 < history.length) :
    input.fitLoop units history = input.fitLoop units (history.drop 2) := by
  rw [Fits] at h
  rw [fitLoop, if_neg h, if_neg (by omega), if_pos hlen]

theorem fitLoop_end (hunits : units.length ≤ 1) (hlen : history.length ≤ 2) :
    input.fitLoop units history = (units, history) := by
  rw [fitLoop, if_neg (show ¬ 1 < units.length by omega),
    if_neg (show ¬ 2 < history.length by omega), ite_self]

end Loop

/-- Units are dropped down to one, and no longer than need be. -/
theorem fitLoop_units (units : List (ContextUnit κ)) (history : List LlmMessage) (n : Nat)
    (hn : n ≤ units.length) :
    ∃ i ≤ n, (0 < n → 0 < i) ∧
      input.fitLoop (units.take n) history = input.fitLoop (units.take i) history ∧
      (input.Fits (units.take i) history ∨ i ≤ 1) ∧
      ∀ k, i < k → k ≤ n → ¬ input.Fits (units.take k) history := by
  induction n with
  | zero => exact ⟨0, Nat.le_refl 0, by simp, rfl, .inr (by simp), by omega⟩
  | succ n ih =>
    by_cases hdone : input.Fits (units.take (n + 1)) history ∨ n = 0
    · refine ⟨n + 1, Nat.le_refl _, by simp, rfl, ?_, by omega⟩
      rcases hdone with hfits | rfl
      · exact .inl hfits
      · exact .inr (Nat.le_refl 1)
    · obtain ⟨hnot, hpos⟩ := not_or.mp hdone
      obtain ⟨i, hi, hkeep, hloop, hstop, hleast⟩ := ih (by omega)
      refine ⟨i, by omega, fun _ => hkeep (Nat.pos_of_ne_zero hpos), ?_, hstop, ?_⟩
      · have hlen : 1 < (units.take (n + 1)).length := by
          rw [List.length_take]
          omega
        have htake : (units.take (n + 1)).dropLast = units.take n := by
          rw [List.dropLast_eq_take, List.take_take, List.length_take]
          congr 1
          omega
        rw [fitLoop_dropLast hnot hlen, htake, hloop]
      · intro k hik hk
        rcases Nat.lt_or_ge n k with hlt | hle
        · obtain rfl : k = n + 1 := by omega
          exact hnot
        · exact hleast k hik hle

/-- With one unit left pairs are dropped down to one, and no longer than need be. -/
theorem fitLoop_turns {units : List (ContextUnit κ)} (hunits : units.length ≤ 1)
    (turns : List (Str × Str)) :
    ∃ j ≤ turns.length, (turns ≠ [] → j < turns.length) ∧
      input.fitLoop units (turnMessages turns) = (units, turnMessages (turns.drop j)) ∧
      (input.Fits units (turnMessages (turns.drop j)) ∨ (turns.drop j).length ≤ 1) ∧
      ∀ k < j, ¬ input.Fits units (turnMessages (turns.drop k)) := by
  induction turns with
  | nil =>
    exact ⟨0, by simp, by simp, fitLoop_end hunits (by simp), .inr (by simp), by simp⟩
  | cons t turns ih =>
    by_cases hdone : input.Fits units (turnMessages (t :: turns)) ∨ turns = []
    · refine ⟨0, by simp, by simp, ?_, ?_, by simp⟩
      · rcases hdone with hfits | rfl
        · exact fitLoop_fits hfits
        · exact fitLoop_end hunits (by simp)
      · rcases hdone with hfits | rfl
        · exact .inl hfits
        · exact .inr (by simp)
    · obtain ⟨hnot, hsome⟩ := not_or.mp hdone
      have hpos : 0 < turns.length := List.length_pos_of_ne_nil hsome
      obtain ⟨j, hj, hkeep, hloop, hstop, hleast⟩ := ih
      refine ⟨j + 1, by simpa using hj, fun _ => by simpa using hkeep hsome, ?_, hstop, ?_⟩
      · have hmore : 2 < (turnMessages (t :: turns)).length := by
          rw [length_turnMessages, List.length_cons]
          omega
        rw [fitLoop_drop hnot hunits hmore, drop_turnMessages_cons, hloop, List.drop_succ_cons]
      · intro k hk
        cases k with
        | zero => exact hnot
        | succ k => exact hleast k (by omega)

/-- The first `i` units and the turns from the `j`-th on are the first stage that fits, or the last
one there is. -/
structure Fitted (units : List (ContextUnit κ)) (turns : List (Str × Str)) (i j : Nat) : Prop where
  units_le : i ≤ units.length
  turns_le : j ≤ turns.length
  keeps_unit : units ≠ [] → 0 < i
  keeps_turn : turns ≠ [] → j < turns.length
  units_first : 0 < j → i ≤ 1
  fits : input.Fits (units.take i) (turnMessages (turns.drop j)) ∨
    i ≤ 1 ∧ (turns.drop j).length ≤ 1
  units_needed : ∀ k, i < k → k ≤ units.length → ¬ input.Fits (units.take k) (turnMessages turns)
  turns_needed : ∀ k < j, ¬ input.Fits (units.take i) (turnMessages (turns.drop k))

theorem fitLoop_fitted (units : List (ContextUnit κ)) (turns : List (Str × Str)) :
    ∃ i j, input.fitLoop units (turnMessages turns) =
      (units.take i, turnMessages (turns.drop j)) ∧ input.Fitted units turns i j := by
  obtain ⟨i, hi, hkeep, hloop, hstop, hleast⟩ :=
    input.fitLoop_units units (turnMessages turns) units.length (Nat.le_refl _)
  rw [List.take_length] at hloop
  have hunit : units ≠ [] → 0 < i := fun h => hkeep (List.length_pos_of_ne_nil h)
  by_cases hfits : input.Fits (units.take i) (turnMessages turns)
  · refine ⟨i, 0, ?_, ⟨hi, by simp, hunit, List.length_pos_of_ne_nil, by simp, .inl hfits, hleast,
      by simp⟩⟩
    rw [hloop, fitLoop_fits hfits]
    rfl
  · have hone : i ≤ 1 := hstop.resolve_left hfits
    have hlen : (units.take i).length ≤ 1 := by
      rw [List.length_take]
      omega
    obtain ⟨j, hj, hturn, hdrop, hend, hfirst⟩ := input.fitLoop_turns hlen turns
    refine ⟨i, j, by rw [hloop, hdrop], ⟨hi, hj, hunit, hturn, fun _ => hone, ?_, hleast, hfirst⟩⟩
    rcases hend with hend | hend
    · exact .inl hend
    · exact .inr ⟨hone, hend⟩

end FitInput

/-- Of the units a prefix and of the conversation the last turns remain, the first stage that fits;
the reply is then not longer than the rest of the context. The conversation was cut before in
the same way. -/
theorem fitToContext_fitted {κ : Type} (input : FitInput κ) (units : List (ContextUnit κ))
    (turns : List (Str × Str)) (hlimit : 0 < input.ctxLimit) :
    (∃ i j, input.Fitted units turns i j ∧
      (input.fitToContext units (turnMessages turns)).units = units.take i ∧
      (input.fitToContext units (turnMessages turns)).history = turnMessages (turns.drop j) ∧
      (input.fitToContext units (turnMessages turns)).system = input.system ∧
      (input.fitToContext units (turnMessages turns)).prompt = input.prompt (units.take i) ∧
      (input.assembled (units.take i) (turnMessages (turns.drop j)) < input.ctxLimit →
        (input.fitToContext units (turnMessages turns)).maxTokens +
          input.assembled (units.take i) (turnMessages (turns.drop j)) ≤ input.ctxLimit)) ∧
    ∃ j, Newest input.tokenizer (input.ctxLimit / historyBudgetDivisor) turns j ∧
      budgetHistory input.tokenizer (turnMessages turns) input.ctxLimit =
        turnMessages (turns.drop j) := by
  constructor
  · obtain ⟨i, j, hloop, hfitted⟩ := input.fitLoop_fitted units turns
    have hzero : input.ctxLimit ≠ 0 := by omega
    refine ⟨i, j, hfitted, ?_⟩
    simp only [FitInput.fitToContext, if_neg hzero, hloop, true_and]
    intro hroom
    have hmod := Nat.mod_le (input.ctxLimit -
      input.assembled (units.take i) (turnMessages (turns.drop j))) (2 ^ 32)
    omega
  · obtain ⟨j, hj, hnewest⟩ := budgetHistory_newest input.tokenizer turns hlimit
    exact ⟨j, hnewest, hj⟩

/-- With a counter that takes each character for a token, the older of two turns goes. -/
theorem fitToContext_fitted_oldest :
    let input : FitInput Unit := ⟨⟨fun _ => [], fun _ _ _ _ _ => [], fun _ _ => ([], [])⟩,
      fun _ => none, fun _ => none, [], [], some fun s => some s.length, 260⟩
    let turns := [("ab".toList, "cd".toList), (['e'], ['f'])]
    0 < input.ctxLimit ∧ (input.fitToContext [] (turnMessages turns)).history =
      turnMessages [(['e'], ['f'])] := by
  intro input turns
  obtain ⟨⟨i, j, hfitted, -, hhistory, -⟩, -⟩ := fitToContext_fitted input [] turns (by decide)
  refine ⟨by decide, ?_⟩
  have hover : ¬ input.Fits [] (turnMessages turns) := by
    unfold FitInput.Fits
    decide
  have hlt := hfitted.keeps_turn (by decide)
  rcases Nat.eq_zero_or_pos j with rfl | hpos
  · rcases hfitted.fits with hfits | hlast
    · rw [List.take_nil] at hfits
      exact absurd hfits hover
    · exact absurd hlast.2 (by decide)
  · obtain rfl : j = 1 := by
      simp only [turns, List.length_cons, List.length_nil] at hlt
      omega
    exact hhistory

end LensLM
