import Mathlib.Data.List.Basic

/-!
# Feeding a machine block by block

A machine takes blocks of one size and may fail. What is left over waits for more, so that it makes
no difference in what portions the input comes.
-/

namespace BlockFeed

set_option autoImplicit false

variable {σ α β ε : Type} (step : σ → List α → Except ε (σ × List β)) (size : Nat)

/-- The machine after all whole blocks, the input that is left, and the output. -/
def feed (s : σ) (pending : List α) : Except ε (σ × List α × List β) :=
  if 0 < size ∧ size ≤ pending.length then do
    let r ← step s (pending.take size)
    let rest ← feed r.1 (pending.drop size)
    return (rest.1, rest.2.1, r.2 ++ rest.2.2)
  else return (s, pending, [])
termination_by pending.length
decreasing_by
  rw [List.length_drop]
  omega

variable {step size} {s : σ} {pending : List α}

theorem feed_short (h : pending.length < size) : feed step size s pending = .ok (s, pending, []) := by
  rw [feed, if_neg (by omega)]
  rfl

theorem feed_block (hsize : 0 < size) (h : size ≤ pending.length) :
    feed step size s pending = (step s (pending.take size)).bind fun r =>
      (feed step size r.1 (pending.drop size)).bind fun rest =>
        .ok (rest.1, rest.2.1, r.2 ++ rest.2.2) := by
  rw [feed, if_pos ⟨hsize, h⟩]
  rfl

/-- Less than a block is left. -/
theorem length_left_lt (hsize : 0 < size) {r : σ × List α × List β}
    (h : feed step size s pending = .ok r) : r.2.1.length < size := by
  induction hn : pending.length using Nat.strongRecOn generalizing s pending r with
  | _ n ih =>
    rcases Nat.lt_or_ge pending.length size with hshort | hlong
    · rw [feed_short hshort] at h
      obtain rfl := Except.ok.inj h
      exact hshort
    · rw [feed_block hsize hlong] at h
      cases hstep : step s (pending.take size) with
      | error e => simp [hstep, Except.bind] at h
      | ok r' =>
        cases hrest : feed step size r'.1 (pending.drop size) with
        | error e => simp [hstep, hrest, Except.bind] at h
        | ok rest =>
          simp only [hstep, hrest, Except.bind, Except.ok.injEq] at h
          subst h
          have hlt := ih (pending.drop size).length (by rw [List.length_drop]; omega) hrest rfl
          exact hlt

/-- Input that comes later is fed to the machine as it was left. -/
theorem feed_append (hsize : 0 < size) (more : List α) :
    feed step size s (pending ++ more) = (feed step size s pending).bind fun r =>
      (feed step size r.1 (r.2.1 ++ more)).bind fun rest =>
        .ok (rest.1, rest.2.1, r.2.2 ++ rest.2.2) := by
  induction hn : pending.length using Nat.strongRecOn generalizing s pending with
  | _ n ih =>
    rcases Nat.lt_or_ge pending.length size with hshort | hlong
    · rw [feed_short hshort]
      simp only [Except.bind, List.nil_append]
      cases feed step size s (pending ++ more) <;> rfl
    · have htake : (pending ++ more).take size = pending.take size :=
        List.take_append_of_le_length hlong
      have hdrop : (pending ++ more).drop size = pending.drop size ++ more :=
        List.drop_append_of_le_length hlong
      rw [feed_block hsize (by rw [List.length_append]; omega), feed_block hsize hlong, htake, hdrop]
      cases step s (pending.take size) with
      | error e => rfl
      | ok r =>
        simp only [Except.bind]
        rw [ih (pending.drop size).length (by rw [List.length_drop]; omega) rfl]
        cases feed step size r.1 (pending.drop size) with
        | error e => rfl
        | ok rest =>
          simp only [Except.bind]
          cases feed step size rest.1 (rest.2.1 ++ more) with
          | error e => rfl
          | ok last => simp only [List.append_assoc]

end BlockFeed
