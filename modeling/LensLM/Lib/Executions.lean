import LensLM.Lib.Programs

/-!
# Executions of one program

A program runs to its end while the environment chooses at every command. What is known of an
execution is taken apart along the program.
-/

namespace Programs

set_option autoImplicit false

variable {C D : Type} {Reply : C → Type} {ε α β φ σ : Type}

/-- The program runs from a state to its result and a last state. -/
inductive Exec (react : (c : C) → φ → σ → Option (Except ε (Reply c) × σ)) :
    Program C Reply ε α → σ → Except ε α → σ → Prop
  | ret (a : α) (s : σ) : Exec react (.ret a) s (.ok a) s
  | fail (e : ε) (s : σ) : Exec react (.fail e) s (.error e) s
  | call {c : C} {k : Except ε (Reply c) → Program C Reply ε α} {s s₁ s' : σ}
      {r : Except ε (Reply c)} {res : Except ε α} (x : φ) :
      react c x s = some (r, s₁) → Exec react (k r) s₁ res s' → Exec react (.call c k) s res s'

/-- The execution in which the environment always makes the same choice, if nothing blocks. -/
def runWith (react : (c : C) → φ → σ → Option (Except ε (Reply c) × σ)) (x : φ) :
    Program C Reply ε α → σ → Option (Except ε α × σ)
  | .ret a, s => some (.ok a, s)
  | .fail e, s => some (.error e, s)
  | .call c k, s => (react c x s).bind fun out => runWith react x (k out.1) out.2

theorem exec_of_runWith {react : (c : C) → φ → σ → Option (Except ε (Reply c) × σ)} {x : φ}
    {p : Program C Reply ε α} {s s' : σ} {r : Except ε α}
    (h : runWith react x p s = some (r, s')) : Exec react p s r s' := by
  induction p generalizing s with
  | ret a =>
    cases h
    exact .ret a _
  | fail e =>
    cases h
    exact .fail e _
  | call c k ih =>
    obtain ⟨⟨r₁, s₁⟩, hr, h⟩ := Option.bind_eq_some_iff.mp h
    exact .call x hr (ih r₁ h)

namespace Exec

variable {react : (c : C) → φ → σ → Option (Except ε (Reply c) × σ)}
variable {s s' : σ}

theorem ret_inv {a : α} {r : Except ε α} (h : Exec react (.ret a) s r s') : r = .ok a ∧ s' = s := by
  cases h
  exact ⟨rfl, rfl⟩

theorem fail_inv {e : ε} {r : Except ε α} (h : Exec react (.fail e) s r s') :
    r = .error e ∧ s' = s := by
  cases h
  exact ⟨rfl, rfl⟩

/-- A failure of the first program is one of the whole; else the second goes on with its result. -/
theorem bind_inv {p : Program C Reply ε α} {f : α → Program C Reply ε β} {r : Except ε β}
    (h : Exec react (p.bind f) s r s') : (∃ e, r = .error e ∧ Exec react p s (.error e) s') ∨
      ∃ a s₁, Exec react p s (.ok a) s₁ ∧ Exec react (f a) s₁ r s' := by
  induction p generalizing s with
  | ret a => exact .inr ⟨a, s, .ret a s, h⟩
  | fail e =>
    obtain ⟨rfl, rfl⟩ := h.fail_inv
    exact .inl ⟨e, rfl, .fail e _⟩
  | call c k ih =>
    cases h with
    | call x hr h =>
      obtain ⟨e, he, hp⟩ | ⟨a, s₁, hp, hf⟩ := ih _ h
      · exact .inl ⟨e, he, .call x hr hp⟩
      · exact .inr ⟨a, s₁, .call x hr hp, hf⟩

theorem bind_ok {p : Program C Reply ε α} {f : α → Program C Reply ε β} {b : β}
    (h : Exec react (p.bind f) s (.ok b) s') :
    ∃ a s₁, Exec react p s (.ok a) s₁ ∧ Exec react (f a) s₁ (.ok b) s' := by
  obtain ⟨e, he, _⟩ | h := h.bind_inv
  · cases he
  · exact h

theorem perform_inv {c : C} {r : Except ε (Reply c)}
    (h : Exec react (Program.perform c) s r s') : ∃ x, react c x s = some (r, s') := by
  cases h with
  | @call _ _ _ _ _ r' _ x hr h =>
    cases r' with
    | ok a =>
      obtain ⟨rfl, rfl⟩ := h.ret_inv
      exact ⟨x, hr⟩
    | error e =>
      obtain ⟨rfl, rfl⟩ := h.fail_inv
      exact ⟨x, hr⟩

theorem handle_inv {p : Program C Reply ε α} {f : ε → Program C Reply ε α} {r : Except ε α}
    (h : Exec react (p.handle f) s r s') : (∃ a, r = .ok a ∧ Exec react p s (.ok a) s') ∨
      ∃ e s₁, Exec react p s (.error e) s₁ ∧ Exec react (f e) s₁ r s' := by
  induction p generalizing s with
  | ret a =>
    obtain ⟨rfl, rfl⟩ := h.ret_inv
    exact .inl ⟨a, rfl, .ret a _⟩
  | fail e => exact .inr ⟨e, s, .fail e s, h⟩
  | call c k ih =>
    cases h with
    | call x hr h =>
      obtain ⟨a, ha, hp⟩ | ⟨e, s₁, hp, hf⟩ := ih _ h
      · exact .inl ⟨a, ha, .call x hr hp⟩
      · exact .inr ⟨e, s₁, .call x hr hp, hf⟩

/-- The last program runs after an end of either kind, and its own failure replaces the result. -/
theorem ensuring_inv {p : Program C Reply ε α} {last : Program C Reply ε Unit} {r : Except ε α}
    (h : Exec react (p.ensuring last) s r s') : ∃ r₁ s₁, Exec react p s r₁ s₁ ∧
      (Exec react last s₁ (.ok ()) s' ∧ r = r₁ ∨
        ∃ e, Exec react last s₁ (.error e) s' ∧ r = .error e) := by
  have hresult : ∀ {r₁ : Except ε (Except ε α)} {s₁ : σ}, Exec react ((p.bind fun a =>
      .ret (.ok a)).handle fun e => .ret (.error e)) s r₁ s₁ →
      ∃ r₂, r₁ = .ok r₂ ∧ Exec react p s r₂ s₁ := by
    intro r₁ s₁ h
    obtain ⟨a, ha, h⟩ | ⟨e, s₂, h, hf⟩ := h.handle_inv
    · obtain ⟨b, s₃, hp, h⟩ := h.bind_ok
      obtain ⟨hb, rfl⟩ := h.ret_inv
      exact ⟨.ok b, by rw [ha, hb], hp⟩
    · obtain ⟨hr, rfl⟩ := hf.ret_inv
      obtain ⟨e', he, hp⟩ | ⟨a, s₃, _, h⟩ := h.bind_inv
      · cases he
        exact ⟨.error e, hr, hp⟩
      · cases h
  obtain ⟨e, _, h⟩ | ⟨r₁, s₁, h, hlast⟩ := h.bind_inv
  · obtain ⟨_, he, _⟩ := hresult h
    cases he
  · obtain ⟨r₂, hr₂, hp⟩ := hresult h
    cases hr₂
    refine ⟨r₁, s₁, hp, ?_⟩
    obtain ⟨e, he, h⟩ | ⟨_, s₂, hlast, h⟩ := hlast.bind_inv
    · exact .inr ⟨e, h, he⟩
    · cases r₁ with
      | ok a =>
        obtain ⟨rfl, rfl⟩ := h.ret_inv
        exact .inl ⟨hlast, rfl⟩
      | error e =>
        obtain ⟨rfl, rfl⟩ := h.fail_inv
        exact .inl ⟨hlast, rfl⟩

/-- What every command keeps is kept by every program. -/
theorem keeps {R : σ → σ → Prop} (hrefl : ∀ s, R s s)
    (htrans : ∀ s s₁ s', R s s₁ → R s₁ s' → R s s')
    (hstep : ∀ c x s r s', react c x s = some (r, s') → R s s') {p : Program C Reply ε α}
    {r : Except ε α} (h : Exec react p s r s') : R s s' := by
  induction h with
  | ret a s => exact hrefl s
  | fail e s => exact hrefl s
  | call x hr _ ih => exact htrans _ _ _ (hstep _ x _ _ _ hr) ih

theorem embed_inv {f : D → C} {p : Program D (fun d => Reply (f d)) ε α} {r : Except ε α}
    (h : Exec react (p.embed f) s r s') : Exec (fun d => react (f d)) p s r s' := by
  induction p generalizing s with
  | ret a =>
    obtain ⟨rfl, rfl⟩ := h.ret_inv
    exact .ret a _
  | fail e =>
    obtain ⟨rfl, rfl⟩ := h.fail_inv
    exact .fail e _
  | call c k ih =>
    cases h with
    | call x hr h => exact .call x hr (ih _ h)

end Exec

end Programs
