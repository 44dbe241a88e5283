import LensLM.Lib.Outcome

/-!
# Computations that ask an outside world

A fallible computation threads the state of a world whose answers are unknown. `Ensures`
says what its value satisfies whatever the world answers.
-/

namespace Effects

open Outcome

set_option autoImplicit false

universe u

/-- The state of the world is kept when the computation fails. -/
abbrev Eff (ε σ α : Type u) : Type u := ExceptT ε (StateM σ) α

variable {ε σ α β : Type u}

/-- The result of a computation in a world. -/
def Eff.result (x : Eff ε σ α) (s : σ) : Except ε α := (x.run.run s).1

/-- A computation with its failure as a value. -/
def attempt {ε' : Type u} (x : Eff ε σ α) : Eff ε' σ (Except ε α) :=
  ExceptT.mk fun s =>
    let (r, s') := x.run.run s
    (.ok r, s')

theorem run_bind_ok {x : Eff ε σ α} {f : α → Eff ε σ β} {s s' : σ} {a : α}
    (h : x.run.run s = (.ok a, s')) : (x >>= f).run.run s = (f a).run.run s' := by
  rw [ExceptT.run_bind, StateT.run_bind, h]
  rfl

theorem run_bind_error {x : Eff ε σ α} {f : α → Eff ε σ β} {s s' : σ} {e : ε}
    (h : x.run.run s = (.error e, s')) : (x >>= f).run.run s = (.error e, s') := by
  rw [ExceptT.run_bind, StateT.run_bind, h]
  rfl

theorem run_bind_eq_ok {x : Eff ε σ α} {f : α → Eff ε σ β} {s s' : σ} {b : β} :
    (x >>= f).run.run s = (.ok b, s') ↔
      ∃ a s₁, x.run.run s = (.ok a, s₁) ∧ (f a).run.run s₁ = (.ok b, s') := by
  constructor
  · intro h
    cases hx : x.run.run s with
    | mk r s₁ =>
      cases r with
      | ok a => exact ⟨a, s₁, rfl, (run_bind_ok hx).symm.trans h⟩
      | error e =>
        rw [run_bind_error hx] at h
        cases h
  · rintro ⟨a, s₁, hx, hf⟩
    rw [run_bind_ok hx, hf]

theorem run_attempt {ε' : Type u} {x : Eff ε σ α} {s s' : σ} {r : Except ε α}
    (h : x.run.run s = (r, s')) :
    (attempt x : Eff ε' σ (Except ε α)).run.run s = (.ok r, s') := by
  have hrun : (attempt x : Eff ε' σ (Except ε α)).run.run s =
      (.ok (x.run.run s).1, (x.run.run s).2) := rfl
  rw [hrun, h]

/-- In every world a returned value satisfies `Q`. -/
def Ensures (x : Eff ε σ α) (Q : α → Prop) : Prop :=
  ∀ s, Meets (x.result s) Q fun _ => True

theorem ensures_pure {a : α} {Q : α → Prop} (h : Q a) : Ensures (pure a : Eff ε σ α) Q :=
  fun _ => h

theorem Ensures.mono {x : Eff ε σ α} {Q R : α → Prop} (h : Ensures x Q) (hQR : ∀ a, Q a → R a) :
    Ensures x R :=
  fun s => (h s).mono hQR fun _ hE => hE

theorem Ensures.and {x : Eff ε σ α} {Q R : α → Prop} (hQ : Ensures x Q) (hR : Ensures x R) :
    Ensures x fun a => Q a ∧ R a :=
  fun s => ((hQ s).and (hR s)).mono (fun _ h => h) fun _ _ => trivial

/-- Every value of a call is one that it returns in some world. -/
theorem ensures_returned (x : Eff ε σ α) : Ensures x fun a => ∃ s, x.result s = .ok a := by
  intro s
  cases h : x.result s with
  | ok a => exact ⟨s, h⟩
  | error e => trivial

theorem Ensures.bind {x : Eff ε σ α} {f : α → Eff ε σ β} {Q : α → Prop} {R : β → Prop}
    (hx : Ensures x Q) (hf : ∀ a, Q a → Ensures (f a) R) : Ensures (x >>= f) R := by
  intro s
  have hxs := hx s
  have hrun : (x >>= f).result s = match x.run.run s with
      | (.ok a, s') => (f a).result s'
      | (.error e, _) => .error e := by
    simp only [Eff.result, ExceptT.run_bind, StateT.run_bind]
    cases x.run.run s with
    | mk r s' => cases r with
      | ok a => rfl
      | error e => rfl
  rw [hrun]
  cases hr : x.run.run s with
  | mk r s' =>
    cases r with
    | ok a =>
      simp only [Eff.result, hr] at hxs
      exact hf a hxs s'
    | error e => trivial

theorem ensures_foldlM {ι : Type u} {I : β → Prop} {f : β → ι → Eff ε σ β}
    (hstep : ∀ b i, I b → Ensures (f b i) I) (l : List ι) {b : β} (h : I b) :
    Ensures (l.foldlM f b) I := by
  induction l generalizing b with
  | nil => exact ensures_pure h
  | cons i l ih =>
    rw [List.foldlM_cons]
    exact (hstep b i h).bind fun _ hb => ih hb

/-- From a world with `P`, a value comes with `Q` and an error with `E` of the world after. -/
def Triple (P : σ → Prop) (x : Eff ε σ α) (Q : α → σ → Prop) (E : ε → σ → Prop) : Prop :=
  ∀ s, P s → match x.run.run s with
    | (.ok a, s') => Q a s'
    | (.error e, s') => E e s'

/-- The world keeps `I` however the computation ends. -/
def Keeps (I : σ → Prop) (x : Eff ε σ α) : Prop := Triple I x (fun _ => I) fun _ => I

variable {P : σ → Prop} {Q : α → σ → Prop} {R : β → σ → Prop} {E : ε → σ → Prop}

theorem triple_pure {a : α} (h : ∀ s, P s → Q a s) : Triple P (pure a : Eff ε σ α) Q E :=
  fun s hs => h s hs

theorem Triple.mono {P' : σ → Prop} {Q' : α → σ → Prop} {E' : ε → σ → Prop} {x : Eff ε σ α}
    (h : Triple P x Q E) (hP : ∀ s, P' s → P s) (hQ : ∀ a s, Q a s → Q' a s)
    (hE : ∀ e s, E e s → E' e s) : Triple P' x Q' E' := by
  intro s hs
  have hx := h s (hP s hs)
  cases hr : x.run.run s with
  | mk r s' =>
    rw [hr] at hx
    cases r with
    | ok a => exact hQ a s' hx
    | error e => exact hE e s' hx

theorem Triple.bind {x : Eff ε σ α} {f : α → Eff ε σ β} (hx : Triple P x Q E)
    (hf : ∀ a, Triple (Q a) (f a) R E) : Triple P (x >>= f) R E := by
  intro s hs
  have hxs := hx s hs
  rw [ExceptT.run_bind, StateT.run_bind]
  cases hr : x.run.run s with
  | mk r s' =>
    rw [hr] at hxs
    cases r with
    | ok a => exact hf a s' hxs
    | error e => exact hxs

theorem keeps_pure {I : σ → Prop} (a : α) : Keeps I (pure a : Eff ε σ α) :=
  fun _ hs => hs

theorem Keeps.bind {I : σ → Prop} {x : Eff ε σ α} {f : α → Eff ε σ β} (hx : Keeps I x)
    (hf : ∀ a, Keeps I (f a)) : Keeps I (x >>= f) :=
  Triple.bind hx hf

theorem Keeps.attempt {ε' : Type u} {I : σ → Prop} {x : Eff ε σ α} (h : Keeps I x) :
    Keeps I (attempt x : Eff ε' σ (Except ε α)) := by
  intro s hs
  have hx := h s hs
  cases hr : x.run.run s with
  | mk r s' =>
    rw [run_attempt hr]
    rw [hr] at hx
    cases r with
    | ok a => exact hx
    | error e => exact hx

theorem triple_foldlM {ι : Type u} {I : β → σ → Prop} {f : β → ι → Eff ε σ β}
    (hstep : ∀ b i, Triple (I b) (f b i) I E) (l : List ι) {b : β} :
    Triple (I b) (l.foldlM f b) I E := by
  induction l generalizing b with
  | nil => exact triple_pure fun _ h => h
  | cons i l ih =>
    rw [List.foldlM_cons]
    exact (hstep b i).bind fun _ => ih

theorem keeps_foldlM {ι : Type u} {I : σ → Prop} {f : β → ι → Eff ε σ β}
    (hstep : ∀ b i, Keeps I (f b i)) (l : List ι) (b : β) : Keeps I (l.foldlM f b) :=
  triple_foldlM hstep l

/-- What holds of the world after a run, however it ended. -/
theorem Triple.final {I : σ → Prop} {x : Eff ε σ α} (h : Triple P x (fun _ => I) fun _ => I)
    {s : σ} (hs : P s) : I (x.run.run s).2 := by
  have hx := h s hs
  cases hr : x.run.run s with
  | mk r s' =>
    rw [hr] at hx
    cases r with
    | ok a => exact hx
    | error e => exact hx

end Effects
