import LensLM.Lib.Executions

/-!
# Programs under every choice

`Throughout` checks a program against every choice of the environment: an assertion holds wherever
the program may be stopped, and another one where it ends. The rules follow the program, and what
is checked holds of every execution.
-/

namespace Programs

set_option autoImplicit false

variable {C : Type} {Reply : C → Type} {ε α β φ σ : Type}

/-- Whatever the environment chooses, `J` holds before every command and at the end, and `Q` at
the end. -/
def Throughout (react : (c : C) → φ → σ → Option (Except ε (Reply c) × σ)) (J : σ → Prop)
    (Q : Except ε α → σ → Prop) : Program C Reply ε α → σ → Prop
  | .ret a, s => J s ∧ Q (.ok a) s
  | .fail e, s => J s ∧ Q (.error e) s
  | .call c k, s => J s ∧ ∀ x r s', react c x s = some (r, s') → Throughout react J Q (k r) s'

variable {react : (c : C) → φ → σ → Option (Except ε (Reply c) × σ)} {J : σ → Prop} {s : σ}

namespace Throughout

theorem holds {Q : Except ε α → σ → Prop} {p : Program C Reply ε α}
    (h : Throughout react J Q p s) : J s := by
  cases p with
  | ret a => exact h.1
  | fail e => exact h.1
  | call c k => exact h.1

theorem mono {Q R : Except ε α → σ → Prop} {p : Program C Reply ε α}
    (h : Throughout react J Q p s) (hQR : ∀ r t, J t → Q r t → R r t) :
    Throughout react J R p s := by
  induction p generalizing s with
  | ret a => exact ⟨h.1, hQR _ _ h.1 h.2⟩
  | fail e => exact ⟨h.1, hQR _ _ h.1 h.2⟩
  | call c k ih => exact ⟨h.1, fun x r s' hr => ih r (h.2 x r s' hr)⟩

/-- What holds wherever a program may be stopped holds at its end. -/
theorem weaken {J' : σ → Prop} {Q : Except ε α → σ → Prop} {p : Program C Reply ε α}
    (h : Throughout react J Q p s) (hJ : ∀ t, J t → J' t) :
    Throughout react J' (fun r t => J t ∧ Q r t) p s := by
  induction p generalizing s with
  | ret a => exact ⟨hJ _ h.1, h⟩
  | fail e => exact ⟨hJ _ h.1, h⟩
  | call c k ih => exact ⟨hJ _ h.1, fun x r s' hr => ih r (h.2 x r s' hr)⟩

/-- Two checks of one program, of which the second says what holds at the end besides. -/
theorem and {J' : σ → Prop} {Q R : Except ε α → σ → Prop} {p : Program C Reply ε α}
    (h : Throughout react J Q p s) (h' : Throughout react J' R p s) :
    Throughout react J (fun r t => Q r t ∧ J' t ∧ R r t) p s := by
  induction p generalizing s with
  | ret a => exact ⟨h.1, h.2, h'⟩
  | fail e => exact ⟨h.1, h.2, h'⟩
  | call c k ih => exact ⟨h.1, fun x r s' hr => ih r (h.2 x r s' hr) (h'.2 x r s' hr)⟩

/-- The second program is checked where the first one ends, with its result. -/
theorem bind {Q : Except ε β → σ → Prop} {p : Program C Reply ε α} {f : α → Program C Reply ε β}
    (h : Throughout react J (fun r t => match r with
      | .ok a => Throughout react J Q (f a) t
      | .error e => Q (.error e) t) p s) : Throughout react J Q (p.bind f) s := by
  induction p generalizing s with
  | ret a => exact h.2
  | fail e => exact h
  | call c k ih => exact ⟨h.1, fun x r s' hr => ih r (h.2 x r s' hr)⟩

theorem handle {Q : Except ε α → σ → Prop} {p : Program C Reply ε α}
    {f : ε → Program C Reply ε α} (h : Throughout react J (fun r t => match r with
      | .ok a => Q (.ok a) t
      | .error e => Throughout react J Q (f e) t) p s) : Throughout react J Q (p.handle f) s := by
  induction p generalizing s with
  | ret a => exact h
  | fail e => exact h.2
  | call c k ih => exact ⟨h.1, fun x r s' hr => ih r (h.2 x r s' hr)⟩

theorem perform {c : C} {Q : Except ε (Reply c) → σ → Prop} (hs : J s)
    (h : ∀ x r s', react c x s = some (r, s') → J s' ∧ Q r s') :
    Throughout react J Q (Program.perform c) s := by
  refine ⟨hs, fun x r s' hr => ?_⟩
  cases r with
  | ok a => exact h x _ _ hr
  | error e => exact h x _ _ hr

/-- The last program runs after an end of either kind. -/
theorem ensuring {Q : Except ε α → σ → Prop} {p : Program C Reply ε α}
    {last : Program C Reply ε Unit}
    (h : Throughout react J (fun r => Throughout react J (fun r' t => match r' with
      | .ok _ => Q r t
      | .error e => Q (.error e) t) last) p s) :
    Throughout react J Q (p.ensuring last) s := by
  have hlast : ∀ r t, Throughout react J (fun r' t => match r' with
      | .ok _ => Q r t
      | .error e => Q (.error e) t) last t →
      Throughout react J Q (last.bind fun _ => Program.ofExcept r) t := by
    intro r t h
    apply bind
    apply h.mono
    intro r' u hu hr'
    cases r' with
    | ok _ =>
      cases r with
      | ok a => exact ⟨hu, hr'⟩
      | error e => exact ⟨hu, hr'⟩
    | error e => exact hr'
  apply bind
  apply handle
  apply bind
  apply h.mono
  intro r t ht h
  cases r with
  | ok a => exact ⟨ht, hlast _ t h⟩
  | error e => exact ⟨ht, hlast _ t h⟩

/-- What every turn of a loop keeps. -/
theorem forEach {I : List β → σ → Prop} {Q : Except ε Unit → σ → Prop}
    {f : β → Program C Reply ε Unit} (hstep : ∀ x xs t, J t → I (x :: xs) t →
      Throughout react J (fun r t' => match r with
        | .ok _ => I xs t'
        | .error e => Q (.error e) t') (f x) t)
    (hend : ∀ t, J t → I [] t → Q (.ok ()) t) {xs : List β} (hs : J s) (hI : I xs s) :
    Throughout react J Q (Program.forEach xs f) s := by
  induction xs generalizing s with
  | nil => exact ⟨hs, hend s hs hI⟩
  | cons x xs ih =>
    apply bind
    apply (hstep x xs s hs hI).mono
    intro r t ht h
    cases r with
    | ok _ => exact ih ht h
    | error e => exact h

/-- A program whose commands all keep the assertion. -/
theorem quiet {P : C → Prop} (hkeep : ∀ c x s r s', P c → J s → react c x s = some (r, s') → J s')
    {p : Program C Reply ε α} (hp : p.All P) (hs : J s) :
    Throughout react J (fun _ _ => True) p s := by
  induction p generalizing s with
  | ret a => exact ⟨hs, trivial⟩
  | fail e => exact ⟨hs, trivial⟩
  | call c k ih =>
    exact ⟨hs, fun x r s' hr => ih r (hp.2 r) (hkeep c x s r s' hp.1 hs hr)⟩

/-- What an execution of a checked program ends with. -/
theorem result {Q : Except ε α → σ → Prop} {p : Program C Reply ε α} {r : Except ε α} {s' : σ}
    (h : Throughout react J Q p s) (hexec : Exec react p s r s') : J s' ∧ Q r s' := by
  induction hexec with
  | ret a s => exact h
  | fail e s => exact h
  | call x hr _ ih => exact ih (h.2 x _ _ hr)

end Throughout

section Crashes

/-- A crash stops the program before one of its commands, or at its end. -/
inductive Stopped (react : (c : C) → φ → σ → Option (Except ε (Reply c) × σ)) :
    Program C Reply ε α → σ → σ → Prop
  | here (p : Program C Reply ε α) (s : σ) : Stopped react p s s
  | call {c : C} {k : Except ε (Reply c) → Program C Reply ε α} {s s₁ s' : σ}
      {r : Except ε (Reply c)} (x : φ) :
      react c x s = some (r, s₁) → Stopped react (k r) s₁ s' → Stopped react (.call c k) s s'

theorem Throughout.stopped {Q : Except ε α → σ → Prop} {p : Program C Reply ε α} {s' : σ}
    (h : Throughout react J Q p s) (hs : Stopped react p s s') : J s' := by
  induction hs with
  | here p s => exact h.holds
  | call x hr _ ih => exact ih (h.2 x _ _ hr)

/-- The state after some commands, if the environment always makes the same choice. -/
def stopAfter (react : (c : C) → φ → σ → Option (Except ε (Reply c) × σ)) (x : φ) :
    Nat → Program C Reply ε α → σ → Option σ
  | 0, _, s => some s
  | n + 1, .call c k, s => (react c x s).bind fun out => stopAfter react x n (k out.1) out.2
  | _ + 1, _, _ => none

theorem stopped_of_stopAfter {x : φ} {n : Nat} {p : Program C Reply ε α} {s' : σ}
    (h : stopAfter react x n p s = some s') : Stopped react p s s' := by
  induction n generalizing p s with
  | zero =>
    cases h
    exact .here p _
  | succ n ih =>
    cases p with
    | ret a => cases h
    | fail e => cases h
    | call c k =>
      obtain ⟨⟨r, s₁⟩, hr, h⟩ := Option.bind_eq_some_iff.mp h
      exact .call x hr (ih h)

/-- Programs run one after the other, each from a state that allows it, while the process is up. It
may go down between them or in the middle of one, and comes up with a recovery that succeeds. -/
inductive CrashRun (react : (c : C) → φ → σ → Option (Except ε (Reply c) × σ))
    (allowed : σ → Program C Reply ε Unit → Prop) (recovery : Program C Reply ε Unit → Prop)
    (start : σ) : Bool → σ → Prop
  | start : CrashRun react allowed recovery start true start
  | ran {p : Program C Reply ε Unit} {r : Except ε Unit} {s s' : σ} :
      CrashRun react allowed recovery start true s → allowed s p → Exec react p s r s' →
      CrashRun react allowed recovery start true s'
  | crashed {p : Program C Reply ε Unit} {s s' : σ} :
      CrashRun react allowed recovery start true s → allowed s p → Stopped react p s s' →
      CrashRun react allowed recovery start false s'
  | quit {s : σ} : CrashRun react allowed recovery start true s →
      CrashRun react allowed recovery start false s
  | crashedAgain {p : Program C Reply ε Unit} {s s' : σ} :
      CrashRun react allowed recovery start false s → recovery p → Stopped react p s s' →
      CrashRun react allowed recovery start false s'
  | restarted {p : Program C Reply ε Unit} {s s' : σ} :
      CrashRun react allowed recovery start false s → recovery p → Exec react p s (.ok ()) s' →
      CrashRun react allowed recovery start true s'

/-- What allowed programs and recoveries keep at every command holds in every state of a run. -/
theorem CrashRun.keeps {allowed : σ → Program C Reply ε Unit → Prop}
    {recovery : Program C Reply ε Unit → Prop} {start : σ} {up : Bool}
    (h : CrashRun react allowed recovery start up s) (hstart : J start)
    (hallowed : ∀ t p, J t → allowed t p → Throughout react J (fun _ _ => True) p t)
    (hrecovery : ∀ t p, J t → recovery p → Throughout react J (fun _ _ => True) p t) : J s := by
  induction h with
  | start => exact hstart
  | ran _ hp hexec ih => exact ((hallowed _ _ ih hp).result hexec).1
  | crashed _ hp hstopped ih => exact (hallowed _ _ ih hp).stopped hstopped
  | quit _ ih => exact ih
  | crashedAgain _ hp hstopped ih => exact (hrecovery _ _ ih hp).stopped hstopped
  | restarted _ hp hexec ih => exact ((hrecovery _ _ ih hp).result hexec).1

end Crashes

end Programs
