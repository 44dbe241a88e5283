import Mathlib.Data.List.Basic

/-!
# Partial correctness of fallible computations

`Meets x Q E` says what holds of a value and what holds of an error. The loops of the
model are folds, so one rule carries an invariant along a fold, and one lemma says at
which prefix a fold fails.
-/

namespace Outcome

set_option autoImplicit false

universe u v w

variable {ε : Type u} {α β : Type v}

/-- A returned value satisfies `Q`, an error satisfies `E`. -/
def Meets (x : Except ε α) (Q : α → Prop) (E : ε → Prop) : Prop :=
  match x with
  | .ok a => Q a
  | .error e => E e

@[simp] theorem meets_ok {a : α} {Q : α → Prop} {E : ε → Prop} :
    Meets (.ok a) Q E ↔ Q a := Iff.rfl

@[simp] theorem meets_pure {a : α} {Q : α → Prop} {E : ε → Prop} :
    Meets (pure a : Except ε α) Q E ↔ Q a := Iff.rfl

@[simp] theorem meets_error {e : ε} {Q : α → Prop} {E : ε → Prop} :
    Meets (.error e) Q E ↔ E e := Iff.rfl

theorem Meets.value {x : Except ε α} {Q : α → Prop} {E : ε → Prop} (h : Meets x Q E) {a : α}
    (hx : x = .ok a) : Q a := by
  subst hx
  exact h

theorem Meets.failure {x : Except ε α} {Q : α → Prop} {E : ε → Prop} (h : Meets x Q E) {e : ε}
    (hx : x = .error e) : E e := by
  subst hx
  exact h

theorem meets_iff {x : Except ε α} {Q : α → Prop} {E : ε → Prop} :
    Meets x Q E ↔ (∀ a, x = .ok a → Q a) ∧ (∀ e, x = .error e → E e) := by
  cases x <;> simp [Meets]

theorem Meets.mono {x : Except ε α} {Q Q' : α → Prop} {E E' : ε → Prop} (h : Meets x Q E)
    (hQ : ∀ a, Q a → Q' a) (hE : ∀ e, E e → E' e) : Meets x Q' E' := by
  cases x with
  | ok a => exact hQ a h
  | error e => exact hE e h

/-- Only what holds of the values. -/
theorem Meets.values {x : Except ε α} {Q : α → Prop} {E : ε → Prop} (h : Meets x Q E) :
    Meets x Q fun _ => True :=
  h.mono (fun _ hQ => hQ) fun _ _ => trivial

theorem Meets.and {x : Except ε α} {Q R : α → Prop} {E F : ε → Prop} (h : Meets x Q E)
    (h' : Meets x R F) : Meets x (fun a => Q a ∧ R a) E := by
  cases x with
  | ok a => exact ⟨h, h'⟩
  | error e => exact h

theorem Meets.bind {x : Except ε α} {f : α → Except ε β} {Q : α → Prop} {R : β → Prop}
    {E : ε → Prop} (h : Meets x Q E) (hf : ∀ a, x = .ok a → Q a → Meets (f a) R E) :
    Meets (x >>= f) R E := by
  cases x with
  | ok a => exact hf a rfl h
  | error e => exact h

theorem bind_eq_ok {x : Except ε α} {f : α → Except ε β} {b : β} :
    (x >>= f) = .ok b ↔ ∃ a, x = .ok a ∧ f a = .ok b := by
  cases x <;> simp [Bind.bind, Except.bind]

theorem bind_eq_error {x : Except ε α} {f : α → Except ε β} {e : ε} :
    (x >>= f) = .error e ↔ x = .error e ∨ ∃ a, x = .ok a ∧ f a = .error e := by
  cases x <;> simp [Bind.bind, Except.bind]

section Fold

variable {σ : Type v} {ι : Type w} {f : σ → ι → Except ε σ}

/-- The state a fold has reached when it comes to an element. -/
def Reaches (f : σ → ι → Except ε σ) (s : σ) (l : List ι) (a : ι) (t : σ) : Prop :=
  ∃ pre post, l = pre ++ a :: post ∧ pre.foldlM f s = .ok t

/-- A fold fails exactly when one of its steps fails in the state reached before it. -/
theorem foldlM_eq_error {s : σ} {l : List ι} {e : ε} :
    l.foldlM f s = .error e ↔ ∃ a t, Reaches f s l a t ∧ f t a = .error e := by
  induction l generalizing s with
  | nil =>
    constructor
    · intro h
      exact absurd h (by simp [List.foldlM, Pure.pure, Except.pure])
    · rintro ⟨a, t, ⟨pre, post, h, _⟩, _⟩
      simp at h
  | cons b l ih =>
    rw [List.foldlM_cons, bind_eq_error]
    constructor
    · rintro (h | ⟨s', hs, h⟩)
      · exact ⟨b, s, ⟨[], l, rfl, rfl⟩, h⟩
      · obtain ⟨a, t, ⟨pre, post, rfl, ht⟩, he⟩ := ih.mp h
        refine ⟨a, t, ⟨b :: pre, post, rfl, ?_⟩, he⟩
        rw [List.foldlM_cons, hs]
        exact ht
    · rintro ⟨a, t, ⟨pre, post, hl, ht⟩, he⟩
      cases pre with
      | nil =>
        obtain ⟨rfl, rfl⟩ : b = a ∧ l = post := by simpa using hl
        obtain rfl : s = t := by simpa [List.foldlM, Pure.pure, Except.pure] using ht
        exact Or.inl he
      | cons c pre =>
        obtain ⟨rfl, rfl⟩ : b = c ∧ l = pre ++ a :: post := by simpa using hl
        rw [List.foldlM_cons, bind_eq_ok] at ht
        obtain ⟨s', hs, ht⟩ := ht
        exact Or.inr ⟨s', hs, ih.mpr ⟨a, t, ⟨pre, post, rfl, ht⟩, he⟩⟩

/-- An invariant indexed by the processed and the remaining elements holds along a fold. -/
theorem meets_foldlM {I : List ι → List ι → σ → Prop} {E : ε → Prop} {s : σ} (l : List ι)
    (h0 : I [] l s)
    (step : ∀ pre a post t, l = pre ++ a :: post → I pre (a :: post) t →
      Reaches f s l a t → Meets (f t a) (I (pre ++ [a]) post) E) :
    Meets (l.foldlM f s) (I l []) E := by
  suffices ∀ post pre t, l = pre ++ post → pre.foldlM f s = .ok t → I pre post t →
      Meets (post.foldlM f t) (I l []) E from this l [] s rfl rfl h0
  intro post
  induction post with
  | nil =>
    intro pre t hl _ hI
    obtain rfl : l = pre := by simpa using hl
    exact hI
  | cons a post ih =>
    intro pre t hl ht hI
    rw [List.foldlM_cons]
    refine (step pre a post t hl hI ⟨pre, post, hl, ht⟩).bind fun t' ht' hI' => ?_
    refine ih (pre ++ [a]) t' (by simp [hl]) ?_ hI'
    rw [List.foldlM_append, ht]
    show (List.foldlM f t [a]) = .ok t'
    rw [List.foldlM_cons, ht']
    rfl

end Fold

end Outcome
