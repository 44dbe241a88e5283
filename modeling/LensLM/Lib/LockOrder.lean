import Mathlib.Logic.Function.Basic

/-!
# Locks that are taken in an order

A table says of each lock who holds it. Where every party waits only for locks that come after those
it holds, there is always one that need not wait.
-/

namespace LockOrder

set_option autoImplicit false

variable {κ τ : Type} {holder : κ → Option τ} {held held' : τ → κ → Prop}

/-- The table agrees with what the parties hold. -/
def Kept (holder : κ → Option τ) (held : τ → κ → Prop) : Prop :=
  ∀ x k, holder k = some x ↔ held x k

theorem Kept.unique (h : Kept holder held) {x y : τ} {k : κ} (hx : held x k) (hy : held y k) :
    x = y :=
  Option.some.inj (((h x k).mpr hx).symm.trans ((h y k).mpr hy))

theorem Kept.congr (h : Kept holder held) (hheld : ∀ x k, held' x k ↔ held x k) :
    Kept holder held' := fun x k => (h x k).trans (hheld x k).symm

variable [DecidableEq κ]

/-- A free lock is taken. -/
theorem Kept.acquire (h : Kept holder held) {x : τ} {k : κ} (hfree : holder k = none)
    (hheld : ∀ y l, held' y l ↔ held y l ∨ y = x ∧ l = k) :
    Kept (Function.update holder k (some x)) held' := by
  intro y l
  rw [hheld y l]
  by_cases hl : l = k
  · subst hl
    have hnone : ¬held y l := fun hy => by
      rw [(h y l).mpr hy] at hfree
      cases hfree
    rw [Function.update_self, Option.some.injEq]
    simp [hnone, eq_comm]
  · rw [Function.update_of_ne hl, h y l]
    simp [hl]

/-- A lock is given back by who holds it. -/
theorem Kept.release (h : Kept holder held) {x : τ} {k : κ} (hx : held x k)
    (hheld : ∀ y l, held' y l ↔ held y l ∧ ¬(y = x ∧ l = k)) :
    Kept (Function.update holder k none) held' := by
  intro y l
  rw [hheld y l]
  by_cases hl : l = k
  · subst hl
    rw [Function.update_self]
    constructor
    · intro hn
      cases hn
    · rintro ⟨hy, hne⟩
      exact absurd ⟨h.unique hy hx, rfl⟩ hne
  · rw [Function.update_of_ne hl, h y l]
    simp [hl]

variable {waits : τ → Option κ} {rank : κ → Nat} {x : τ} {k : κ}

/-- A party waits for nothing, or for a lock that is free. -/
def Ready (holder : κ → Option τ) (waits : τ → Option κ) (x : τ) : Prop :=
  ∀ k, waits x = some k → holder k = none

omit [DecidableEq κ]

theorem ready_of_free (hwaits : waits x = some k) (hfree : holder k = none) :
    Ready holder waits x := by
  intro l hl
  rw [hwaits] at hl
  rwa [← Option.some.inj hl]

theorem ready_of_busy (hwaits : waits x = none) : Ready holder waits x := by
  intro l hl
  rw [hwaits] at hl
  cases hl

/-- The holder of the lock that a party waits for, the holder of what that one waits for, and so on:
the ranks rise along the way, so that it ends at a party which is ready. -/
theorem Kept.exists_ready (h : Kept holder held) {bound : Nat} (hbound : ∀ k, rank k < bound)
    (hordered : ∀ x k l, waits x = some k → held x l → rank l < rank k) (x : τ) :
    ∃ y, Ready holder waits y ∧ (y = x ∨ ∃ l, held y l) := by
  -- the induction is on how many ranks are left above that of the lock that is waited for
  have hway : ∀ n x k, waits x = some k → bound - rank k ≤ n →
      ∃ y, Ready holder waits y ∧ (y = x ∨ ∃ l, held y l) := by
    intro n
    induction n with
    | zero =>
      intro x k _ hn
      have hlt := hbound k
      omega
    | succ n ih =>
      intro x k hk hn
      cases hholder : holder k with
      | none => exact ⟨x, ready_of_free hk hholder, .inl rfl⟩
      | some y =>
        have hy := (h y k).mp hholder
        cases hw : waits y with
        | none => exact ⟨y, ready_of_busy hw, .inr ⟨k, hy⟩⟩
        | some l =>
          have hlt := hordered y l k hw hy
          have hlast := hbound l
          obtain ⟨z, hready, hz⟩ := ih y l hw (by omega)
          refine ⟨z, hready, .inr ?_⟩
          rcases hz with rfl | hz
          · exact ⟨k, hy⟩
          · exact hz
  cases hw : waits x with
  | none => exact ⟨x, ready_of_busy hw, .inl rfl⟩
  | some k => exact hway (bound - rank k) x k hw (Nat.le_refl _)

end LockOrder
