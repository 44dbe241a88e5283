import LensLM.Lib.Executions

/-!
# Crashes and recovery

A process runs one program after the other. It may crash before any command, and then a recovery
program runs before anything else does, which may crash as well. `Within` checks that a program
keeps an assertion at every command and leaves another one at its end. From such checks of the
programs and of the recovery follows what holds in every state of a run.
-/

namespace Programs

set_option autoImplicit false

variable {C : Type} {Reply : C → Type} {ε α β σ : Type}

section Within

variable (step : (c : C) → σ → Option (Except ε (Reply c) × σ))

/-- The assertion `J` holds before every command and at the end, and `Q` at the end. -/
def Within (J : σ → Prop) (Q : Except ε α → σ → Prop) : Program C Reply ε α → σ → Prop
  | .ret a, s => J s ∧ Q (.ok a) s
  | .fail e, s => J s ∧ Q (.error e) s
  | .call c k, s => J s ∧ ∀ r s', step c s = some (r, s') → Within J Q (k r) s'

variable {step} {J : σ → Prop} {s : σ}

theorem Within.mono {Q R : Except ε α → σ → Prop} {p : Program C Reply ε α}
    (h : Within step J Q p s) (hQR : ∀ r t, J t → Q r t → R r t) : Within step J R p s := by
  induction p generalizing s with
  | ret a => exact ⟨h.1, hQR _ _ h.1 h.2⟩
  | fail e => exact ⟨h.1, hQR _ _ h.1 h.2⟩
  | call c k ih => exact ⟨h.1, fun r s' hr => ih r (h.2 r s' hr)⟩

/-- The second program is checked where the first one ends, with its result. -/
theorem Within.bind {Q : Except ε β → σ → Prop} {p : Program C Reply ε α}
    {f : α → Program C Reply ε β} (h : Within step J (fun r t => match r with
      | .ok a => Within step J Q (f a) t
      | .error e => Q (.error e) t) p s) : Within step J Q (p.bind f) s := by
  induction p generalizing s with
  | ret a => exact h.2
  | fail e => exact h
  | call c k ih => exact ⟨h.1, fun r s' hr => ih r (h.2 r s' hr)⟩

theorem Within.handle {Q : Except ε α → σ → Prop} {p : Program C Reply ε α}
    {f : ε → Program C Reply ε α} (h : Within step J (fun r t => match r with
      | .ok a => Q (.ok a) t
      | .error e => Within step J Q (f e) t) p s) : Within step J Q (p.handle f) s := by
  induction p generalizing s with
  | ret a => exact h
  | fail e => exact h.2
  | call c k ih => exact ⟨h.1, fun r s' hr => ih r (h.2 r s' hr)⟩

theorem Within.perform {c : C} {Q : Except ε (Reply c) → σ → Prop} (hs : J s)
    (h : ∀ r s', step c s = some (r, s') → J s' ∧ Q r s') :
    Within step J Q (Program.perform c) s := by
  refine ⟨hs, fun r s' hr => ?_⟩
  cases r with
  | ok a => exact h _ _ hr
  | error e => exact h _ _ hr

/-- What every turn of a loop keeps. -/
theorem Within.forEach {I : List β → σ → Prop} {f : β → Program C Reply ε Unit}
    (hstep : ∀ x xs t, J t → I (x :: xs) t →
      Within step J (fun r t' => r = .ok () ∧ I xs t') (f x) t) {xs : List β} (hs : J s)
    (hI : I xs s) : Within step J (fun r t => r = .ok () ∧ I [] t) (Program.forEach xs f) s := by
  induction xs generalizing s with
  | nil => exact ⟨hs, rfl, hI⟩
  | cons x xs ih =>
    apply Within.bind
    apply (hstep x xs s hs hI).mono
    intro r t ht h
    obtain ⟨rfl, h⟩ := h
    exact ih ht h

/-- What an execution of a checked program ends with. -/
theorem Within.result {Q : Except ε α → σ → Prop} {p : Program C Reply ε α} {r : Except ε α}
    {s' : σ} (h : Within step J Q p s) (hexec : Exec (fun c (_ : Unit) => step c) p s r s') :
    J s' ∧ Q r s' := by
  induction hexec with
  | ret a s => exact h
  | fail e s => exact h
  | call x hr _ ih => exact ih (h.2 _ _ hr)

end Within

section Runs

/-- What a process is about: nothing, a program, nothing after a crash, or its recovery. -/
inductive Phase (C : Type) (Reply : C → Type) (ε : Type) where
  | idle
  | running (p : Program C Reply ε Unit)
  | down
  | recovering (p : Program C Reply ε Unit)

variable (step : (c : C) → σ → Option (Except ε (Reply c) × σ))
variable (programs recovery : Program C Reply ε Unit → Prop)

inductive ProcessStep : Phase C Reply ε × σ → Phase C Reply ε × σ → Prop
  | begin {p : Program C Reply ε Unit} {s : σ} : programs p → ProcessStep (.idle, s) (.running p, s)
  | command {c : C} {k : Except ε (Reply c) → Program C Reply ε Unit} {r : Except ε (Reply c)}
      {s s' : σ} : step c s = some (r, s') →
        ProcessStep (.running (.call c k), s) (.running (k r), s')
  | done {s : σ} : ProcessStep (.running (.ret ()), s) (.idle, s)
  | failed {e : ε} {s : σ} : ProcessStep (.running (.fail e), s) (.idle, s)
  | crash {phase : Phase C Reply ε} {s : σ} : ProcessStep (phase, s) (.down, s)
  | restart {p : Program C Reply ε Unit} {s : σ} :
      recovery p → ProcessStep (.down, s) (.recovering p, s)
  | recover {c : C} {k : Except ε (Reply c) → Program C Reply ε Unit} {r : Except ε (Reply c)}
      {s s' : σ} : step c s = some (r, s') →
        ProcessStep (.recovering (.call c k), s) (.recovering (k r), s')
  | recovered {s : σ} : ProcessStep (.recovering (.ret ()), s) (.idle, s)

inductive ProcessRun (start : σ) : Phase C Reply ε × σ → Prop
  | start : ProcessRun start (.idle, start)
  | step {x y : Phase C Reply ε × σ} : ProcessRun start x →
      ProcessStep step programs recovery x y → ProcessRun start y

/-- What is known in each phase. -/
def Phase.Holds (J Idle : σ → Prop) : Phase C Reply ε × σ → Prop
  | (.idle, s) => J s ∧ Idle s
  | (.running p, s) => Within step J (fun _ => Idle) p s
  | (.down, s) => J s
  | (.recovering p, s) => Within step J (fun r t => r = .ok () → Idle t) p s

variable {step programs recovery} {J Idle : σ → Prop}

theorem Within.holds {Q : Except ε α → σ → Prop} {p : Program C Reply ε α} {s : σ}
    (h : Within step J Q p s) : J s := by
  cases p with
  | ret a => exact h.1
  | fail e => exact h.1
  | call c k => exact h.1

theorem Phase.Holds.always {x : Phase C Reply ε × σ} (h : Phase.Holds step J Idle x) : J x.2 := by
  obtain ⟨phase, s⟩ := x
  cases phase with
  | idle => exact h.1
  | running p => exact Within.holds h
  | down => exact h
  | recovering p => exact Within.holds h

/-- Programs that keep an assertion, from idle to idle, and a recovery that leads back there. -/
theorem ProcessRun.holds (hprograms : ∀ p, programs p → ∀ s, J s → Idle s →
      Within step J (fun _ => Idle) p s)
    (hrecovery : ∀ p, recovery p → ∀ s, J s →
      Within step J (fun r t => r = .ok () → Idle t) p s)
    {start : σ} (hJ : J start) (hIdle : Idle start) {x : Phase C Reply ε × σ}
    (h : ProcessRun step programs recovery start x) : Phase.Holds step J Idle x := by
  induction h with
  | start => exact ⟨hJ, hIdle⟩
  | step _ hs ih =>
    cases hs with
    | begin hp => exact hprograms _ hp _ ih.1 ih.2
    | command hr => exact ih.2 _ _ hr
    | done => exact ih
    | failed => exact ih
    | crash => exact ih.always
    | restart hp => exact hrecovery _ hp _ ih
    | recover hr => exact ih.2 _ _ hr
    | recovered => exact ⟨ih.1, ih.2 rfl⟩

/-- A program that runs to its end takes the process from idle to idle. -/
theorem ProcessRun.complete {start s s' : σ} {p : Program C Reply ε Unit} {r : Except ε Unit}
    (h : ProcessRun step programs recovery start (.idle, s)) (hp : programs p)
    (hexec : Exec (fun c (_ : Unit) => step c) p s r s') :
    ProcessRun step programs recovery start (.idle, s') := by
  have hrunning := h.step (.begin hp)
  clear h hp
  induction hexec with
  | ret a s => exact hrunning.step .done
  | fail e s => exact hrunning.step .failed
  | call x hr _ ih => exact ih (hrunning.step (.command hr))

end Runs

end Programs
