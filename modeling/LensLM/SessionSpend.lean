import LensLM.LlmBudget
import LensLM.Lib.EventRuns

/-!
# The spend of a session

The counters of a session are shared by its jobs and are added to without a check. A spent session
is free again when its counter has wrapped around, and at no other time.
-/

namespace LensLM

open EventRuns

set_option autoImplicit false

namespace SessionBudget

def withMaxTokens (maxTokens : UInt32) : SessionBudget where
  tokens := 0
  calls := 0
  maxTokens := maxTokens.toNat

/-- What a session reports of a projected call. -/
def Exceeded (projectedTokens : UInt32) (session : SessionBudget) : Prop :=
  session.maxTokens < saturatingAdd session.tokens projectedTokens.toNat

instance (projectedTokens : UInt32) (session : SessionBudget) :
    Decidable (session.Exceeded projectedTokens) := inferInstanceAs (Decidable (_ < _))

/-- Whatever a job has left itself, it is stopped by its session. -/
theorem checkBeforeDispatch_of_exceeded {session : SessionBudget} {projectedTokens : UInt32}
    (budget : Budget) (h : session.Exceeded projectedTokens) :
    budget.checkBeforeDispatch session projectedTokens.toNat = .exceeded := by
  unfold Budget.checkBeforeDispatch
  split
  · rfl
  · split
    · rfl
    · exact if_pos h

/-- A job within its own ceilings is stopped by its session alone. -/
theorem exceeded_of_checkBeforeDispatch {session : SessionBudget} {projectedTokens : UInt32}
    {budget : Budget} (hcalls : saturatingAdd budget.jobCalls 1 ≤ budget.maxCallsPerJob)
    (htokens : saturatingAdd budget.jobTokens projectedTokens.toNat ≤ budget.maxTokensPerJob)
    (h : budget.checkBeforeDispatch session projectedTokens.toNat = .exceeded) :
    session.Exceeded projectedTokens := by
  unfold Budget.checkBeforeDispatch at h
  rw [if_neg (Nat.not_lt.mpr hcalls), if_neg (Nat.not_lt.mpr htokens)] at h
  split at h
  · assumption
  · cases h

/-- The step of a session: a job records the tokens of an answer. -/
def recordStep (session : SessionBudget) (tokensUsed : UInt32) : SessionBudget :=
  session.record tokensUsed.toNat

/-- A record in a spent session does not wrap the counter around, or it wraps it so far that the
next call is over the ceiling again. -/
def LeavesSpent (projectedTokens : UInt32) (session : SessionBudget) (tokensUsed : UInt32) : Prop :=
  session.Exceeded projectedTokens →
    session.tokens + tokensUsed.toNat < 2 ^ 32 ∨
      2 ^ 32 + session.maxTokens < session.tokens + tokensUsed.toNat + projectedTokens.toNat

/-- The counter has its width. -/
def Fits (session : SessionBudget) : Prop := session.tokens < 2 ^ 32

variable {session : SessionBudget} {projectedTokens tokensUsed : UInt32}

theorem recordStep_fits (session : SessionBudget) (tokensUsed : UInt32) :
    (session.recordStep tokensUsed).Fits := Nat.mod_lt _ (by omega)

theorem exceeded_iff : session.Exceeded projectedTokens ↔
    session.maxTokens < session.tokens + projectedTokens.toNat ∧ session.maxTokens < u32Max := by
  unfold Exceeded saturatingAdd
  exact Nat.lt_min

theorem recordStep_exceeded_of_lt (h : session.tokens + tokensUsed.toNat < 2 ^ 32)
    (hspent : session.Exceeded projectedTokens) :
    (session.recordStep tokensUsed).Exceeded projectedTokens := by
  have hcounter : (session.recordStep tokensUsed).tokens = session.tokens + tokensUsed.toNat :=
    Nat.mod_eq_of_lt h
  rw [exceeded_iff] at hspent ⊢
  rw [hcounter]
  exact ⟨by have := hspent.1; change session.maxTokens < _; omega, hspent.2⟩

/-- The counter wraps at most once in a record. -/
theorem recordStep_exceeded_iff (hfits : session.Fits)
    (h : 2 ^ 32 ≤ session.tokens + tokensUsed.toNat) (hspent : session.Exceeded projectedTokens) :
    (session.recordStep tokensUsed).Exceeded projectedTokens ↔
      2 ^ 32 + session.maxTokens < session.tokens + tokensUsed.toNat + projectedTokens.toNat := by
  have hused := tokensUsed.toNat_lt
  have hcounter : (session.recordStep tokensUsed).tokens + 2 ^ 32 =
      session.tokens + tokensUsed.toNat := by
    change (session.tokens + tokensUsed.toNat) % 2 ^ 32 + 2 ^ 32 = _
    unfold Fits at hfits
    omega
  have hceiling : (session.recordStep tokensUsed).maxTokens = session.maxTokens := rfl
  rw [exceeded_iff, hceiling]
  have hmax := (exceeded_iff.mp hspent).2
  constructor
  · intro hafter
    have := hafter.1
    omega
  · intro hfar
    exact ⟨by omega, hmax⟩

theorem leavesSpent_iff (hfits : session.Fits) :
    (session.Exceeded projectedTokens →
      (session.recordStep tokensUsed).Exceeded projectedTokens) ↔
      session.LeavesSpent projectedTokens tokensUsed := by
  unfold LeavesSpent
  by_cases hspent : session.Exceeded projectedTokens
  · simp only [hspent, true_imp_iff]
    by_cases hwrap : session.tokens + tokensUsed.toNat < 2 ^ 32
    · exact iff_of_true (recordStep_exceeded_of_lt hwrap hspent) (.inl hwrap)
    · rw [recordStep_exceeded_iff hfits (Nat.not_lt.mp hwrap) hspent]
      exact (or_iff_right hwrap).symm
  · simp only [hspent, false_imp_iff]

/-- A session that is spent stays so, in every run of records that wrap no spent counter back below
its ceiling, and in no other. -/
theorem stays_exceeded_iff (maxTokens projectedTokens : UInt32) (records : List UInt32) :
    Stays recordStep (Exceeded projectedTokens) (withMaxTokens maxTokens) records ↔
      Along recordStep (LeavesSpent projectedTokens) (withMaxTokens maxTokens) records := by
  rw [stays_iff_along]
  have hfits : (withMaxTokens maxTokens).Fits := by
    change 0 < 2 ^ 32
    omega
  exact Along.congr (fun session used _ => recordStep_fits session used)
    (fun session _ h => leavesSpent_iff h) hfits

theorem stays_exceeded_wrapped :
    ¬ Stays recordStep (Exceeded 0) (withMaxTokens 500000) [4294967295, 1] := by
  intro h
  exact absurd (h [4294967295] [1] [] rfl (by decide +kernel)) (by decide +kernel)

end SessionBudget

end LensLM
