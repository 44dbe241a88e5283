import Mathlib.Logic.Function.Basic
import Mathlib.Logic.Relation

/-!
# Pools of programs

A program issues atomic commands and goes on with what each replies. A pool runs programs over
one shared state in any order, and an observer notes what every thread has done. `Follows` checks
one program against what its notes allow it to do next, and `Pool.Run.keeps` puts an invariant of
the shared state together with the checked programs.
-/

namespace Programs

set_option autoImplicit false

/-- A program over the commands `C`; a call that fails hands its error to the continuation. -/
inductive Program (C : Type) (Reply : C → Type) (ε α : Type) where
  | ret (a : α)
  | fail (e : ε)
  | call (c : C) (k : Except ε (Reply c) → Program C Reply ε α)

namespace Program

variable {C : Type} {Reply : C → Type} {ε α β : Type}

def bind (p : Program C Reply ε α) (f : α → Program C Reply ε β) : Program C Reply ε β :=
  match p with
  | .ret a => f a
  | .fail e => .fail e
  | .call c k => .call c fun r => (k r).bind f

/-- Goes on with `h` after an error of `p`. -/
def handle (p : Program C Reply ε α) (h : ε → Program C Reply ε α) : Program C Reply ε α :=
  match p with
  | .ret a => .ret a
  | .fail e => h e
  | .call c k => .call c fun r => (k r).handle h

instance : Monad (Program C Reply ε) where
  pure := .ret
  bind := bind

def ofExcept : Except ε α → Program C Reply ε α
  | .ok a => .ret a
  | .error e => .fail e

/-- One call, whose error ends the program. -/
def perform (c : C) : Program C Reply ε (Reply c) := .call c ofExcept

def forEach (xs : List β) (f : β → Program C Reply ε Unit) : Program C Reply ε Unit :=
  match xs with
  | [] => .ret ()
  | x :: xs => (f x).bind fun _ => forEach xs f

/-- The result of `p` with its error, after `last` in either case. -/
def ensuring (p : Program C Reply ε α) (last : Program C Reply ε Unit) : Program C Reply ε α :=
  ((p.bind fun a => .ret (Except.ok a)).handle fun e => .ret (Except.error e)).bind fun r =>
    last.bind fun _ => ofExcept r

/-- The program with its error as a result. -/
def attempt (p : Program C Reply ε α) : Program C Reply ε (Except ε α) :=
  (p.bind fun a => .ret (Except.ok a)).handle fun e => .ret (Except.error e)

def Returned (p : Program C Reply ε α) : Prop := ∃ a, p = .ret a

/-- The program has come to its end, well or not. -/
def Ended (p : Program C Reply ε α) : Prop := p.Returned ∨ ∃ e, p = .fail e

instance (p : Program C Reply ε α) : Decidable p.Returned :=
  match p with
  | .ret a => .isTrue ⟨a, rfl⟩
  | .fail _ => .isFalse nofun
  | .call _ _ => .isFalse nofun

/-- All commands of the program, whatever they reply. -/
def All (P : C → Prop) : Program C Reply ε α → Prop
  | .ret _ => True
  | .fail _ => True
  | .call c k => P c ∧ ∀ r, (k r).All P

/-- The program with its commands translated. -/
def embed {D : Type} (f : D → C) (p : Program D (fun d => Reply (f d)) ε α) :
    Program C Reply ε α :=
  match p with
  | .ret a => .ret a
  | .fail e => .fail e
  | .call d k => .call (f d) fun r => (k r).embed f

section All

variable {P : C → Prop}

theorem All.mono {Q : C → Prop} {p : Program C Reply ε α} (h : p.All P) (hPQ : ∀ c, P c → Q c) :
    p.All Q := by
  induction p with
  | ret a => trivial
  | fail e => trivial
  | call c k ih => exact ⟨hPQ c h.1, fun r => ih r (h.2 r)⟩

theorem All.bind {p : Program C Reply ε α} {f : α → Program C Reply ε β} (h : p.All P)
    (hf : ∀ a, (f a).All P) : (p.bind f).All P := by
  induction p with
  | ret a => exact hf a
  | fail e => trivial
  | call c k ih => exact ⟨h.1, fun r => ih r (h.2 r)⟩

theorem All.handle {p : Program C Reply ε α} {f : ε → Program C Reply ε α} (h : p.All P)
    (hf : ∀ e, (f e).All P) : (p.handle f).All P := by
  induction p with
  | ret a => trivial
  | fail e => exact hf e
  | call c k ih => exact ⟨h.1, fun r => ih r (h.2 r)⟩

theorem all_ofExcept (r : Except ε α) : (ofExcept r : Program C Reply ε α).All P := by
  cases r with
  | ok a => trivial
  | error e => trivial

theorem all_perform {c : C} (h : P c) : (perform c : Program C Reply ε (Reply c)).All P :=
  ⟨h, all_ofExcept⟩

theorem all_forEach {xs : List β} {f : β → Program C Reply ε Unit} (h : ∀ x ∈ xs, (f x).All P) :
    (forEach xs f).All P := by
  induction xs with
  | nil => trivial
  | cons x xs ih =>
    exact (h x List.mem_cons_self).bind fun _ => ih fun y hy => h y (List.mem_cons_of_mem x hy)

end All

end Program

/-- A command that was issued, with the choice the environment made, the state it met and what
it replied. -/
structure Record (C : Type) (Reply : C → Type) (ε φ σ : Type) where
  command : C
  choice : φ
  before : σ
  reply : Except ε (Reply command)

/-- The shared state's answers (none where a command blocks), and the notes of the observer. -/
structure Machine (C : Type) (Reply : C → Type) (ε φ σ γ : Type) where
  react : (c : C) → φ → σ → Option (Except ε (Reply c) × σ)
  note : γ → Record C Reply ε φ σ → γ

structure Thread (C : Type) (Reply : C → Type) (ε α γ : Type) where
  program : Program C Reply ε α
  seen : γ

structure Pool (ι C : Type) (Reply : C → Type) (ε α σ γ : Type) where
  state : σ
  thread : ι → Thread C Reply ε α γ

/-- A condition on the steps that are taken: the notes on every thread, the thread, its command,
the choice and the state. -/
abbrev Guard (ι C φ σ γ : Type) := (ι → γ) → ι → C → φ → σ → Prop

def Unrestricted {ι C φ σ γ : Type} : Guard ι C φ σ γ := fun _ _ _ _ _ => True

instance {ι C φ σ γ : Type} (g : ι → γ) (i : ι) (c : C) (x : φ) (s : σ) :
    Decidable (Unrestricted g i c x s) := .isTrue trivial

section Pools

variable {ι C : Type} {Reply : C → Type} {ε α φ σ γ : Type}

def Pool.start (s : σ) (g : γ) (programs : ι → Program C Reply ε α) : Pool ι C Reply ε α σ γ where
  state := s
  thread i := ⟨programs i, g⟩

def Pool.seen (w : Pool ι C Reply ε α σ γ) (i : ι) : γ := (w.thread i).seen

variable [DecidableEq ι] (m : Machine C Reply ε φ σ γ)

/-- Thread `i` goes on with `p`. -/
def Pool.put (w : Pool ι C Reply ε α σ γ) (i : ι) (p : Program C Reply ε α) (g : γ) (s : σ) :
    Pool ι C Reply ε α σ γ where
  state := s
  thread := Function.update w.thread i ⟨p, g⟩

theorem Pool.seen_put (w : Pool ι C Reply ε α σ γ) (i : ι) (p : Program C Reply ε α) (g : γ)
    (s : σ) : (w.put i p g s).seen = Function.update w.seen i g := by
  funext j
  by_cases hj : j = i
  · subst hj
    simp [Pool.put, Pool.seen]
  · simp [Pool.put, Pool.seen, hj]

/-- The steps a condition allows. -/
inductive Pool.Step (guard : Guard ι C φ σ γ) (w : Pool ι C Reply ε α σ γ) :
    Pool ι C Reply ε α σ γ → Prop
  | mk (i : ι) (x : φ) {c : C} {k : Except ε (Reply c) → Program C Reply ε α}
      {r : Except ε (Reply c)} {s : σ} :
      (w.thread i).program = .call c k → guard w.seen i c x w.state →
      m.react c x w.state = some (r, s) →
      Step guard w (w.put i (k r) (m.note (w.seen i) ⟨c, x, w.state, r⟩) s)

def Pool.Run (guard : Guard ι C φ σ γ) : Pool ι C Reply ε α σ γ → Pool ι C Reply ε α σ γ → Prop :=
  Relation.ReflTransGen (Pool.Step m guard)

variable (guard : Guard ι C φ σ γ) [∀ g i c x s, Decidable (guard g i c x s)]

/-- Thread `i` takes its next step, unless it is finished or the step is not possible. -/
def Pool.next (w : Pool ι C Reply ε α σ γ) (i : ι) (x : φ) : Option (Pool ι C Reply ε α σ γ) :=
  match (w.thread i).program with
  | .call c k =>
    if guard w.seen i c x w.state then
      (m.react c x w.state).map fun rs =>
        w.put i (k rs.1) (m.note (w.seen i) ⟨c, x, w.state, rs.1⟩) rs.2
    else none
  | _ => none

/-- Plays a schedule to its end, if every step is possible. -/
def Pool.play (w : Pool ι C Reply ε α σ γ) : List (ι × φ) → Option (Pool ι C Reply ε α σ γ)
  | [] => some w
  | (i, x) :: schedule => (w.next m guard i x).bind fun w' => w'.play schedule

variable {m guard}

theorem Pool.next_step {w w' : Pool ι C Reply ε α σ γ} {i : ι} {x : φ}
    (h : w.next m guard i x = some w') : Pool.Step m guard w w' := by
  unfold Pool.next at h
  split at h
  · rename_i c k hp
    split at h
    · rename_i hg
      obtain ⟨⟨r, s⟩, hr, rfl⟩ := Option.map_eq_some_iff.mp h
      exact .mk i x hp hg hr
    · cases h
  · cases h

theorem Pool.run_play {w w' : Pool ι C Reply ε α σ γ} {schedule : List (ι × φ)}
    (h : w.play m guard schedule = some w') : w.Run m guard w' := by
  induction schedule generalizing w with
  | nil =>
    cases h
    exact .refl
  | cons step schedule ih =>
    obtain ⟨v, hv, h⟩ := Option.bind_eq_some_iff.mp h
    exact .head (Pool.next_step hv) (ih h)

omit [∀ g i c x s, Decidable (guard g i c x s)] in
/-- A run under a condition is one under every weaker condition. -/
theorem Pool.Run.mono {guard' : Guard ι C φ σ γ} {w w' : Pool ι C Reply ε α σ γ}
    (run : w.Run m guard w') (h : ∀ g i c x s, guard g i c x s → guard' g i c x s) :
    w.Run m guard' w' := by
  refine Relation.ReflTransGen.mono ?_ _ _ run
  intro v v' hstep
  cases hstep with
  | mk i x hp hg hr => exact .mk i x hp (h _ _ _ _ _ hg) hr

/-- A state that a schedule reaches. -/
theorem Pool.run_of_play {w : Pool ι C Reply ε α σ γ} {schedule : List (ι × φ)}
    {p : Pool ι C Reply ε α σ γ → Bool} (h : (w.play m guard schedule).any p = true) :
    ∃ w', w.Run m guard w' ∧ p w' = true := by
  obtain ⟨w', hw, hp⟩ := (Option.any_eq_true _ _).mp h
  exact ⟨w', Pool.run_play hw, hp⟩

end Pools

/-- What a thread may count on: a fact about every state it meets, and the commands that its
notes allow it to issue. -/
structure Discipline (C σ γ : Type) where
  known : σ → Prop
  allows : C → γ → Prop

section Follows

variable {C : Type} {Reply : C → Type} {ε α β φ σ γ : Type} {c : C}
variable (m : Machine C Reply ε φ σ γ) (d : Discipline C σ γ)

/-- A reply that a command can get. -/
def Answers (c : C) (x : φ) (s : σ) (r : Except ε (Reply c)) : Prop :=
  d.known s ∧ ∃ s', m.react c x s = some (r, s')

/-- From here on the program issues allowed commands only; it returns in `post` and fails in
`fault`. -/
def Follows (post : α → γ → Prop) (fault : ε → γ → Prop) : Program C Reply ε α → γ → Prop
  | .ret a, g => post a g
  | .fail e, g => fault e g
  | .call c k, g => d.allows c g ∧
    ∀ x s r, Answers m d c x s r → Follows post fault (k r) (m.note g ⟨c, x, s, r⟩)

variable {m d}

theorem Follows.mono {post post' : α → γ → Prop} {fault fault' : ε → γ → Prop}
    {p : Program C Reply ε α} {g : γ} (h : Follows m d post fault p g)
    (hp : ∀ a g, post a g → post' a g) (hf : ∀ e g, fault e g → fault' e g) :
    Follows m d post' fault' p g := by
  induction p generalizing g with
  | ret a => exact hp _ _ h
  | fail e => exact hf _ _ h
  | call c k ih => exact ⟨h.1, fun x s r hr => ih r (h.2 x s r hr)⟩

theorem Follows.bind {Q : α → γ → Prop} {post : β → γ → Prop} {fault : ε → γ → Prop}
    {p : Program C Reply ε α} {f : α → Program C Reply ε β} {g : γ}
    (h : Follows m d Q fault p g) (hf : ∀ a g, Q a g → Follows m d post fault (f a) g) :
    Follows m d post fault (p.bind f) g := by
  induction p generalizing g with
  | ret a => exact hf a g h
  | fail e => exact h
  | call c k ih => exact ⟨h.1, fun x s r hr => ih r (h.2 x s r hr)⟩

theorem Follows.handle {Q fault : ε → γ → Prop} {post : α → γ → Prop} {p : Program C Reply ε α}
    {f : ε → Program C Reply ε α} {g : γ} (h : Follows m d post Q p g)
    (hf : ∀ e g, Q e g → Follows m d post fault (f e) g) :
    Follows m d post fault (p.handle f) g := by
  induction p generalizing g with
  | ret a => exact h
  | fail e => exact hf e g h
  | call c k ih => exact ⟨h.1, fun x s r hr => ih r (h.2 x s r hr)⟩

theorem Follows.ended {J : γ → Prop} {p : Program C Reply ε α} {g : γ}
    (h : Follows m d (fun _ => J) (fun _ => J) p g) (he : p.Ended) : J g := by
  cases he with
  | inl hret =>
    obtain ⟨a, rfl⟩ := hret
    exact h
  | inr hfail =>
    obtain ⟨e, rfl⟩ := hfail
    exact h

theorem Follows.attempt {Q : α → γ → Prop} {QF fault : ε → γ → Prop} {p : Program C Reply ε α}
    {g : γ} (h : Follows m d Q QF p g) : Follows m d (fun r g => match r with
      | .ok a => Q a g
      | .error e => QF e g) fault p.attempt g := by
  apply Follows.handle (Q := QF)
  · exact Follows.bind h fun a g hg => hg
  · exact fun e g hg => hg

/-- The last program runs after an end of either kind. -/
theorem Follows.ensuring {Q post : α → γ → Prop} {QF fault : ε → γ → Prop}
    {p : Program C Reply ε α} {last : Program C Reply ε Unit} {g : γ}
    (h : Follows m d Q QF p g)
    (hok : ∀ a g, Q a g → Follows m d (fun _ => post a) fault last g)
    (hfault : ∀ e g, QF e g → Follows m d (fun _ => fault e) fault last g) :
    Follows m d post fault (p.ensuring last) g := by
  apply Follows.bind h.attempt
  intro r g hg
  cases r with
  | ok a => exact Follows.bind (hok a g hg) fun _ g hpost => hpost
  | error e => exact Follows.bind (hfault e g hg) fun _ g hf => hf

/-- A call whose error ends the program. -/
theorem Follows.perform {post : Reply c → γ → Prop} {fault : ε → γ → Prop} {g : γ}
    (hc : d.allows c g)
    (hok : ∀ x s a, Answers m d c x s (.ok a) → post a (m.note g ⟨c, x, s, .ok a⟩))
    (hfault : ∀ x s e, Answers m d c x s (.error e) → fault e (m.note g ⟨c, x, s, .error e⟩)) :
    Follows m d post fault (Program.perform c) g := by
  refine ⟨hc, fun x s r hr => ?_⟩
  cases r with
  | ok a => exact hok x s a hr
  | error e => exact hfault x s e hr

/-- A loop, with an assertion on the elements that are still to come. -/
theorem Follows.forEach {J : List β → γ → Prop} {fault : ε → γ → Prop}
    {f : β → Program C Reply ε Unit}
    (step : ∀ x xs g, J (x :: xs) g → Follows m d (fun _ => J xs) fault (f x) g)
    (xs : List β) {g : γ} (h : J xs g) :
    Follows m d (fun _ => J []) fault (Program.forEach xs f) g := by
  induction xs generalizing g with
  | nil => exact h
  | cons x xs ih => exact Follows.bind (step x xs g h) fun _ g hg => ih hg

/-- A program whose commands all leave an assertion on the notes as it is. -/
theorem Follows.quiet {P : C → Prop} {J : γ → Prop} (allowed : ∀ c g, P c → J g → d.allows c g)
    (noted : ∀ c g x s r, P c → J g → J (m.note g ⟨c, x, s, r⟩)) {p : Program C Reply ε α}
    (hp : p.All P) {g : γ} (hj : J g) : Follows m d (fun _ => J) (fun _ => J) p g := by
  induction p generalizing g with
  | ret a => exact hj
  | fail e => exact hj
  | call c k ih =>
    exact ⟨allowed c g hp.1 hj, fun x s r _ => ih r (hp.2 r) (noted c g x s r hp.1 hj)⟩

section Embed

variable {D : Type} (f : D → C)

/-- The machine as a translated program meets it. -/
def Machine.pull (m : Machine C Reply ε φ σ γ) : Machine D (fun d => Reply (f d)) ε φ σ γ where
  react d := m.react (f d)
  note g r := m.note g ⟨f r.command, r.choice, r.before, r.reply⟩

def Discipline.pull (d : Discipline C σ γ) : Discipline D σ γ where
  known := d.known
  allows c := d.allows (f c)

theorem Follows.embed {post : α → γ → Prop} {fault : ε → γ → Prop}
    {p : Program D (fun d => Reply (f d)) ε α} {g : γ}
    (h : Follows (m.pull f) (d.pull f) post fault p g) :
    Follows m d post fault (p.embed f) g := by
  induction p generalizing g with
  | ret a => exact h
  | fail e => exact h
  | call c k ih => exact ⟨h.1, fun x s r hr => ih r (h.2 x s r hr)⟩

end Embed

end Follows

section Keeps

variable {ι C : Type} {Reply : C → Type} {ε α φ σ γ : Type} [DecidableEq ι]
variable {m : Machine C Reply ε φ σ γ} {d : ι → Discipline C σ γ} {guard : Guard ι C φ σ γ}
variable {I : (ι → γ) → σ → Prop}

/-- An invariant that every allowed command keeps holds all along a run of programs that keep to
what they are allowed. -/
theorem Pool.Run.keeps {post : ι → α → γ → Prop} {fault : ι → ε → γ → Prop}
    {w w' : Pool ι C Reply ε α σ γ} (run : w.Run m guard w')
    (known : ∀ i g s, I g s → (d i).known s)
    (step : ∀ g i c x s r s', I g s → (d i).allows c (g i) → guard g i c x s →
      m.react c x s = some (r, s') → I (Function.update g i (m.note (g i) ⟨c, x, s, r⟩)) s')
    (hinv : I w.seen w.state)
    (hf : ∀ i, Follows m (d i) (post i) (fault i) (w.thread i).program (w.seen i)) :
    I w'.seen w'.state ∧
      ∀ i, Follows m (d i) (post i) (fault i) (w'.thread i).program (w'.seen i) := by
  induction run with
  | refl => exact ⟨hinv, hf⟩
  | @tail v v' _ hstep ih =>
    obtain ⟨hinv, hf⟩ := ih
    cases hstep with
    | @mk i x c k r s hp hg hr =>
      have h := hf i
      rw [hp] at h
      refine ⟨?_, ?_⟩
      · rw [Pool.seen_put]
        exact step _ i c x _ r s hinv h.1 hg hr
      · intro j
        by_cases hj : j = i
        · subst hj
          simpa [Pool.put, Pool.seen] using h.2 x v.state r ⟨known _ _ _ hinv, s, hr⟩
        · simpa [Pool.put, Pool.seen, hj] using hf j

end Keeps

end Programs
