import Mathlib.Tactic.ByContra

/-!
# Runs of events

A component takes one event after the other, in whatever order they come. A condition on the single
steps carries an invariant through a run; where each violation shows at once, it is exact. What holds once
stays where every step keeps it.
-/

namespace EventRuns

set_option autoImplicit false

variable {σ ε : Type} (step : σ → ε → σ)

def after (s : σ) (events : List ε) : σ := events.foldl step s

/-- Every step meets `P`, a condition on the state before it and the event. -/
def Along (P : σ → ε → Prop) (s : σ) : List ε → Prop
  | [] => True
  | e :: events => P s e ∧ Along P (step s e) events

instance decidableAlong (P : σ → ε → Prop) [∀ s e, Decidable (P s e)] (s : σ) :
    (events : List ε) → Decidable (Along step P s events)
  | [] => inferInstanceAs (Decidable True)
  | e :: events =>
    have := decidableAlong P (step s e) events
    inferInstanceAs (Decidable (P s e ∧ _))

/-- `Q` holds of every state of the run, the first and the last one included. -/
def Throughout (Q : σ → Prop) (s : σ) : List ε → Prop
  | [] => Q s
  | e :: events => Q s ∧ Throughout Q (step s e) events

/-- Once `Q` holds in a run, it holds of every later state of it. -/
def Stays (Q : σ → Prop) (s : σ) (events : List ε) : Prop :=
  ∀ earlier later rest, earlier ++ (later ++ rest) = events →
    Q (after step s earlier) → Q (after step s (earlier ++ later))

variable {step} {P : σ → ε → Prop} {I Q : σ → Prop} {s : σ} {events : List ε}

theorem after_append (later : List ε) :
    after step s (events ++ later) = after step (after step s events) later := List.foldl_append

theorem Throughout.start (h : Throughout step Q s events) : Q s := by
  cases events with
  | nil => exact h
  | cons e events => exact h.1

theorem Throughout.stop (h : Throughout step Q s events) : Q (after step s events) := by
  induction events generalizing s with
  | nil => exact h
  | cons e events ih => exact ih h.2

theorem Throughout.mono {R : σ → Prop} (h : Throughout step Q s events) (hQR : ∀ t, Q t → R t) :
    Throughout step R s events := by
  induction events generalizing s with
  | nil => exact hQR s h
  | cons e events ih => exact ⟨hQR s h.1, ih h.2⟩

theorem Along.imp {R : σ → ε → Prop} (h : Along step P s events) (hPR : ∀ t e, P t e → R t e) :
    Along step R s events := by
  induction events generalizing s with
  | nil => trivial
  | cons e events ih => exact ⟨hPR s e h.1, ih h.2⟩

/-- The condition of the last step, in the state before it. -/
theorem Along.last {e : ε} (h : Along step P s (events ++ [e])) : P (after step s events) e := by
  induction events generalizing s with
  | nil => exact h.1
  | cons d events ih => exact ih h.2

/-- The condition holds of the rest of a run as well. -/
theorem Along.rest {later : List ε} (h : Along step P s (events ++ later)) :
    Along step P (after step s events) later := by
  induction events generalizing s with
  | nil => exact h
  | cons d events ih => exact ih h.2

/-- An invariant of the steps that meet the condition holds throughout a run of them. -/
theorem Along.throughout (hkeep : ∀ s e, I s → P s e → I (step s e))
    (h : Along step P s events) (hs : I s) : Throughout step I s events := by
  induction events generalizing s with
  | nil => exact hs
  | cons e events ih => exact ⟨hs, ih h.2 (hkeep s e hs h.1)⟩

/-- An invariant of every step holds throughout any run. -/
theorem throughout_of_keep (hkeep : ∀ s e, I s → I (step s e)) (hs : I s) :
    Throughout step I s events := by
  induction events generalizing s with
  | nil => exact hs
  | cons e events ih => exact ⟨hs, ih (hkeep s e hs)⟩

/-- If a step that violates the condition leads out of `Q`, the condition is exact. -/
theorem throughout_iff_along (hkeep : ∀ s e, I s → P s e → I (step s e)) (hgood : ∀ s, I s → Q s)
    (hbad : ∀ s e, I s → ¬ P s e → ¬ Q (step s e)) (hs : I s) :
    Throughout step Q s events ↔ Along step P s events := by
  constructor
  · intro h
    induction events generalizing s with
    | nil => trivial
    | cons e events ih =>
      have hP : P s e := by
        by_contra hn
        exact hbad s e hs hn h.2.start
      exact ⟨hP, ih (hkeep s e hs hP) h.2⟩
  · intro h
    exact (h.throughout hkeep hs).mono hgood

theorem Along.stop_of_start {later : List ε}
    (h : Along step (fun t e => Q t → Q (step t e)) s (events ++ later)) (hs : Q s) :
    Q (after step s events) := by
  induction events generalizing s with
  | nil => exact hs
  | cons e events ih => exact ih h.2 (h.1 hs)

/-- What stays is what every step keeps. -/
theorem stays_iff_along :
    Stays step Q s events ↔ Along step (fun t e => Q t → Q (step t e)) s events := by
  constructor
  · intro h
    induction events generalizing s with
    | nil => trivial
    | cons e events ih =>
      refine ⟨h [] [e] events rfl, ih ?_⟩
      intro earlier later rest heq
      exact h (e :: earlier) later rest (congrArg (e :: ·) heq)
  · rintro h earlier later rest rfl hQ
    rw [after_append]
    exact h.rest.stop_of_start hQ

/-- Two conditions that agree where an invariant of all steps holds. -/
theorem Along.congr {R : σ → ε → Prop} (hkeep : ∀ t e, I t → I (step t e))
    (hPR : ∀ t e, I t → (P t e ↔ R t e)) (hs : I s) :
    Along step P s events ↔ Along step R s events := by
  induction events generalizing s with
  | nil => exact Iff.rfl
  | cons e events ih => exact and_congr (hPR s e hs) (ih (hkeep s e hs))

end EventRuns
