import LensLM.Lib.EventRuns
import LensLM.Lib.Slots
import Mathlib.Data.List.Basic
import Mathlib.Data.List.Nodup

/-!
# Drop targets

All drop targets share one native listener. The first target that registers sets it up, which takes
a promise, and the last one that leaves tears it down, at once or when the promise resolves.
-/

namespace LensLM.DragDrop

open EventRuns

set_option autoImplicit false

/-- The module's variables, and what they have led to outside: promises and listeners go by the
order in which they were asked for. A promise that is given up unlistens when it resolves. -/
structure Registry (D : Type) where
  targets : List D
  listenerPromise : Option Nat
  unlistenFn : Option Nat
  /-- The targets of all registrations, and whether each was removed. -/
  registrations : List (D × Bool)
  asked : Nat
  pending : List Nat
  givenUp : List Nat
  live : List Nat
  calls : List Nat

namespace Registry

variable {D : Type}

def start : Registry D := ⟨[], none, none, [], 0, [], [], [], []⟩

/-- A call of the function that ends listener `i`. -/
def unlisten (r : Registry D) (i : Nat) : Registry D :=
  { r with live := r.live.erase i, calls := r.calls ++ [i] }

/-- `promise.then((fn) => fn())`, at once if the promise has resolved. -/
def thenUnlisten (r : Registry D) (i : Nat) : Registry D :=
  let r := { r with givenUp := r.givenUp ++ [i] }
  if i ∈ r.pending then r else r.unlisten i

def teardownListener (r : Registry D) : Registry D :=
  match r.unlistenFn with
  | some i => { r.unlisten i with unlistenFn := none, listenerPromise := none }
  | none =>
    match r.listenerPromise with
    | some i => { r.thenUnlisten i with listenerPromise := none }
    | none => r

def registerDropTarget (isTauri : Bool) (r : Registry D) (target : D) : Registry D :=
  if isTauri then
    let r := { r with
      targets := r.targets ++ [target]
      registrations := r.registrations ++ [(target, false)] }
    if r.targets.length = 1 ∧ r.listenerPromise = none then
      { r with
        listenerPromise := some r.asked
        asked := r.asked + 1
        pending := r.pending ++ [r.asked] }
    else r
  else { r with registrations := r.registrations ++ [(target, true)] }

/-- The function that the `k`-th registration returned. -/
def unregister [DecidableEq D] (r : Registry D) (k : Nat) : Registry D :=
  match r.registrations[k]? with
  | some (target, false) =>
    let r := { r with
      registrations := r.registrations.set k (target, true)
      targets := r.targets.erase target }
    if r.targets = [] then r.teardownListener else r
  | _ => r

/-- The promise resolves: the listener lives, and what was waiting for it runs. -/
def resolve (r : Registry D) (i : Nat) : Registry D :=
  if i ∈ r.pending then
    let r := { r with
      pending := r.pending.erase i
      live := r.live ++ [i]
      unlistenFn := some i }
    (r.givenUp.filter (· = i)).foldl unlisten r
  else r

end Registry

inductive Event (D : Type) where
  | register (target : D)
  | unregister (k : Nat)
  | resolve (i : Nat)

def step {D : Type} [DecidableEq D] (isTauri : Bool) (r : Registry D) : Event D → Registry D
  | .register target => r.registerDropTarget isTauri target
  | .unregister k => r.unregister k
  | .resolve i => r.resolve i

/-- With no promise pending one listener lives if there is a target, and none otherwise; no listener
is ended twice. -/
structure Delivers {D : Type} (r : Registry D) : Prop where
  once : r.pending = [] → r.live.length = if r.targets = [] then 0 else 1
  calls : r.calls.Nodup

/-- When the last target leaves, the function on hold is not that of a promise that was given up. -/
def LeavesClear {D : Type} [DecidableEq D] (r : Registry D) : Event D → Prop
  | .unregister k => ∀ target, r.registrations[k]? = some (target, false) →
      r.targets.erase target = [] → ∀ i ∈ r.unlistenFn, i ∉ r.givenUp
  | .register _ => True
  | .resolve _ => True

/-- Every promise that pends is the current one or was given up, and the only listener that lives is
that of the current one. -/
structure Orderly {D : Type} (r : Registry D) : Prop where
  current : r.listenerPromise = none ↔ r.targets = []
  currentAsked : ∀ i, r.listenerPromise = some i → i < r.asked
  pendingAsked : ∀ i ∈ r.pending, i < r.asked
  givenUpAsked : ∀ i ∈ r.givenUp, i < r.asked
  callsAsked : ∀ i ∈ r.calls, i < r.asked
  pendingNodup : r.pending.Nodup
  givenUpNodup : r.givenUp.Nodup
  callsNodup : r.calls.Nodup
  waiting : ∀ i ∈ r.pending, r.listenerPromise = some i ∨ i ∈ r.givenUp
  ended : ∀ i ∈ r.calls, i ∉ r.pending ∧ r.listenerPromise ≠ some i
  kept : ∀ i, r.listenerPromise = some i → i ∉ r.givenUp
  live : r.live = r.listenerPromise.toList.filter (· ∉ r.pending)
  onHold : ∀ i, r.unlistenFn = some i →
    i ∉ r.pending ∧ (i ∈ r.givenUp ∨ r.listenerPromise = some i)
  held : ∀ i, r.listenerPromise = some i → i ∉ r.pending → r.unlistenFn ≠ none
  past : ∀ i ∈ r.givenUp, i ∉ r.pending → i ∈ r.calls

section Steps

variable {D : Type} {r : Registry D}

theorem orderly_start : Orderly (Registry.start : Registry D) := by
  constructor <;> simp [Registry.start]

theorem Orderly.delivers (h : Orderly r) : Delivers r := by
  refine ⟨fun hnone => ?_, h.callsNodup⟩
  rw [h.live, hnone]
  by_cases ht : r.targets = []
  · rw [if_pos ht, h.current.mpr ht]
    rfl
  · rw [if_neg ht]
    obtain ⟨i, hi⟩ := Option.ne_none_iff_exists'.mp (mt h.current.mp ht)
    rw [hi]
    rfl

theorem Orderly.register (h : Orderly r) (isTauri : Bool) (target : D) :
    Orderly (r.registerDropTarget isTauri target) := by
  unfold Registry.registerDropTarget
  dsimp only
  split
  · split
    · rename_i hfirst
      have hnew : ∀ i ∈ r.pending, i ≠ r.asked :=
        fun i hi => Nat.ne_of_lt (h.pendingAsked i hi)
      constructor
      case current => simp
      case currentAsked =>
        intro i hi
        cases hi
        exact Nat.lt_succ_self _
      case pendingAsked =>
        apply Slots.forall_mem_push
        · exact fun i hi => Nat.lt_succ_of_lt (h.pendingAsked i hi)
        · exact Nat.lt_succ_self _
      case givenUpAsked => exact fun i hi => Nat.lt_succ_of_lt (h.givenUpAsked i hi)
      case callsAsked => exact fun i hi => Nat.lt_succ_of_lt (h.callsAsked i hi)
      case pendingNodup =>
        apply Slots.nodup_push h.pendingNodup
        exact fun hi => hnew _ hi rfl
      case givenUpNodup => exact h.givenUpNodup
      case callsNodup => exact h.callsNodup
      case waiting =>
        apply Slots.forall_mem_push
        · intro i hi
          rcases h.waiting i hi with hcur | hgiven
          · rw [hfirst.2] at hcur
            cases hcur
          · exact .inr hgiven
        · exact .inl rfl
      case ended =>
        intro i hi
        have hlt := h.callsAsked i hi
        constructor
        · intro hmem
          rcases List.mem_append.mp hmem with hmem | hmem
          · exact (h.ended i hi).1 hmem
          · exact Nat.ne_of_lt hlt (List.mem_singleton.mp hmem)
        · intro heq
          exact Nat.ne_of_lt hlt (Option.some.inj heq).symm
      case kept =>
        intro i hi hgiven
        cases hi
        exact Nat.lt_irrefl _ (h.givenUpAsked _ hgiven)
      case live =>
        show r.live = _
        rw [h.live, hfirst.2]
        simp
      case onHold =>
        intro i hi
        obtain ⟨hpending, hgiven | hcur⟩ := h.onHold i hi
        · refine ⟨?_, .inl hgiven⟩
          intro hmem
          rcases List.mem_append.mp hmem with hmem | hmem
          · exact hpending hmem
          · exact Nat.ne_of_lt (h.givenUpAsked i hgiven) (List.mem_singleton.mp hmem)
        · rw [hfirst.2] at hcur
          cases hcur
      case held =>
        intro i hi hpending
        cases hi
        exact absurd (List.mem_append_right _ (List.mem_singleton_self _)) hpending
      case past =>
        intro i hi hpending
        exact h.past i hi fun hmem => hpending (List.mem_append_left _ hmem)
    · rename_i hlater
      have hcur : r.listenerPromise ≠ none := by
        intro hnone
        apply hlater
        refine ⟨?_, hnone⟩
        rw [h.current.mp hnone]
        rfl
      exact { h with current := by simp [hcur] }
  · exact { h with }

/-- The listener of the current promise is ended, which has resolved. -/
theorem Orderly.unlisten (h : Orderly r) {i : Nat} (hcur : r.listenerPromise = some i)
    (hpending : i ∉ r.pending) : Orderly { ({ r with targets := [] } : Registry D).unlisten i with
      unlistenFn := none, listenerPromise := none } := by
  constructor
  case current => exact iff_of_true rfl rfl
  case currentAsked => exact nofun
  case pendingAsked => exact h.pendingAsked
  case givenUpAsked => exact h.givenUpAsked
  case callsAsked => exact Slots.forall_mem_push h.callsAsked (h.currentAsked i hcur)
  case pendingNodup => exact h.pendingNodup
  case givenUpNodup => exact h.givenUpNodup
  case callsNodup =>
    apply Slots.nodup_push h.callsNodup
    exact fun hi => (h.ended i hi).2 hcur
  case waiting =>
    intro j hj
    rcases h.waiting j hj with hj' | hgiven
    · rw [hcur] at hj'
      cases hj'
      exact absurd hj hpending
    · exact .inr hgiven
  case ended =>
    apply Slots.forall_mem_push
    · exact fun j hj => ⟨(h.ended j hj).1, nofun⟩
    · exact ⟨hpending, nofun⟩
  case kept => exact nofun
  case live =>
    show r.live.erase i = []
    rw [h.live, hcur]
    simp [hpending]
  case onHold => exact nofun
  case held => exact nofun
  case past =>
    intro j hj hjp
    exact List.mem_append_left _ (h.past j hj hjp)

/-- The current promise is given up while it pends. -/
theorem Orderly.giveUp (h : Orderly r) {i : Nat} (hcur : r.listenerPromise = some i)
    (hhold : r.unlistenFn = none) : Orderly { r with
      targets := [], givenUp := r.givenUp ++ [i], listenerPromise := none } := by
  have hpending : i ∈ r.pending := by
    by_contra hn
    exact h.held i hcur hn hhold
  constructor
  case current => exact iff_of_true rfl rfl
  case currentAsked => exact nofun
  case pendingAsked => exact h.pendingAsked
  case givenUpAsked => exact Slots.forall_mem_push h.givenUpAsked (h.pendingAsked i hpending)
  case callsAsked => exact h.callsAsked
  case pendingNodup => exact h.pendingNodup
  case givenUpNodup => exact Slots.nodup_push h.givenUpNodup (h.kept i hcur)
  case callsNodup => exact h.callsNodup
  case waiting =>
    intro j hj
    right
    rcases h.waiting j hj with hj' | hgiven
    · rw [hcur] at hj'
      cases hj'
      exact List.mem_append_right _ (List.mem_singleton_self i)
    · exact List.mem_append_left _ hgiven
  case ended => exact fun j hj => ⟨(h.ended j hj).1, nofun⟩
  case kept => exact nofun
  case live =>
    show r.live = []
    rw [h.live, hcur]
    simp [hpending]
  case onHold =>
    intro j hj
    rw [hhold] at hj
    cases hj
  case held => exact nofun
  case past =>
    apply Slots.forall_mem_push
    · exact h.past
    · exact fun hjp => absurd hpending hjp

/-- With no target left and a clear hold, the current listener is ended or given up. -/
theorem Orderly.teardown (h : Orderly r) (hclear : ∀ i ∈ r.unlistenFn, i ∉ r.givenUp) :
    Orderly ({ r with targets := [] } : Registry D).teardownListener := by
  unfold Registry.teardownListener
  split
  · rename_i i hi
    obtain ⟨hpending, hgiven | hcur⟩ := h.onHold i hi
    · exact absurd hgiven (hclear i hi)
    · exact h.unlisten hcur hpending
  · rename_i hhold
    split
    · rename_i i hcur
      have hpending : i ∈ r.pending := by
        by_contra hn
        exact h.held i hcur hn hhold
      have hgive := h.giveUp hcur hhold
      rw [Registry.thenUnlisten, if_pos hpending]
      exact hgive
    · rename_i hcur
      exact { h with current := iff_of_true hcur rfl }

theorem Orderly.unregister [DecidableEq D] (h : Orderly r) (k : Nat)
    (hclear : LeavesClear r (.unregister k)) : Orderly (r.unregister k) := by
  unfold Registry.unregister
  split
  · rename_i target hk
    dsimp only
    split
    · rename_i hlast
      rw [hlast]
      have hmarked : Orderly { r with registrations := r.registrations.set k (target, true) } :=
        { h with }
      exact hmarked.teardown (hclear target hk hlast)
    · rename_i hmore
      have hne : r.targets ≠ [] := by
        intro hnil
        rw [hnil] at hmore
        exact hmore rfl
      exact { h with current := iff_of_false (mt h.current.mp hne) hmore }
  · exact h

/-- Once it has resolved, the current listener lives and is on hold. -/
theorem Orderly.resolveCurrent (h : Orderly r) {i : Nat} (hi : i ∈ r.pending)
    (hcur : r.listenerPromise = some i) : Orderly { r with
      pending := r.pending.erase i, live := r.live ++ [i], unlistenFn := some i } := by
  have hresolved : i ∉ r.pending.erase i := h.pendingNodup.not_mem_erase
  constructor
  case current => exact h.current
  case currentAsked => exact h.currentAsked
  case pendingAsked => exact fun j hj => h.pendingAsked j (List.mem_of_mem_erase hj)
  case givenUpAsked => exact h.givenUpAsked
  case callsAsked => exact h.callsAsked
  case pendingNodup => exact h.pendingNodup.erase i
  case givenUpNodup => exact h.givenUpNodup
  case callsNodup => exact h.callsNodup
  case waiting => exact fun j hj => h.waiting j (List.mem_of_mem_erase hj)
  case ended =>
    exact fun j hj => ⟨fun hmem => (h.ended j hj).1 (List.mem_of_mem_erase hmem), (h.ended j hj).2⟩
  case kept => exact h.kept
  case live =>
    show r.live ++ [i] = r.listenerPromise.toList.filter _
    rw [h.live, hcur]
    simp [hi, hresolved]
  case onHold =>
    intro j hj
    cases hj
    exact ⟨hresolved, .inr hcur⟩
  case held => exact fun _ _ _ => nofun
  case past =>
    intro j hj hjp
    apply h.past j hj
    intro hmem
    have hji : j ≠ i := by
      intro heq
      rw [heq] at hj
      exact h.kept i hcur hj
    exact hjp ((List.mem_erase_of_ne hji).mpr hmem)

/-- A promise that was given up resolves, and its listener is ended at once. -/
theorem Orderly.resolveGivenUp (h : Orderly r) {i : Nat} (hi : i ∈ r.pending)
    (hgiven : i ∈ r.givenUp) : Orderly (({ r with
      pending := r.pending.erase i, live := r.live ++ [i], unlistenFn := some i }
        : Registry D).unlisten i) := by
  have hresolved : i ∉ r.pending.erase i := h.pendingNodup.not_mem_erase
  have hother : ∀ j, r.listenerPromise = some j → j ≠ i := by
    intro j hj heq
    rw [heq] at hj
    exact h.kept i hj hgiven
  constructor
  case current => exact h.current
  case currentAsked => exact h.currentAsked
  case pendingAsked => exact fun j hj => h.pendingAsked j (List.mem_of_mem_erase hj)
  case givenUpAsked => exact h.givenUpAsked
  case callsAsked => exact Slots.forall_mem_push h.callsAsked (h.pendingAsked i hi)
  case pendingNodup => exact h.pendingNodup.erase i
  case givenUpNodup => exact h.givenUpNodup
  case callsNodup =>
    apply Slots.nodup_push h.callsNodup
    exact fun hcall => (h.ended i hcall).1 hi
  case waiting => exact fun j hj => h.waiting j (List.mem_of_mem_erase hj)
  case ended =>
    apply Slots.forall_mem_push
    · intro j hj
      exact ⟨fun hmem => (h.ended j hj).1 (List.mem_of_mem_erase hmem), (h.ended j hj).2⟩
    · exact ⟨hresolved, fun hcur => hother i hcur rfl⟩
  case kept => exact h.kept
  case live =>
    show (r.live ++ [i]).erase i = r.listenerPromise.toList.filter _
    have hnot : i ∉ r.live := by
      rw [h.live]
      intro hmem
      exact hother i (Option.mem_toList.mp (List.mem_filter.mp hmem).1) rfl
    rw [List.erase_append_right _ hnot, h.live]
    simp only [List.erase_cons_head, List.append_nil]
    apply List.filter_congr
    intro j hj
    simp only [Registry.unlisten, List.mem_erase_of_ne (hother j (Option.mem_toList.mp hj))]
  case onHold =>
    intro j hj
    cases hj
    exact ⟨hresolved, .inl hgiven⟩
  case held => exact fun _ _ _ => nofun
  case past =>
    intro j hj hjp
    by_cases hji : j = i
    · exact List.mem_append_right _ (List.mem_singleton.mpr hji)
    · apply List.mem_append_left
      apply h.past j hj
      exact fun hmem => hjp ((List.mem_erase_of_ne hji).mpr hmem)

theorem Orderly.resolve (h : Orderly r) (i : Nat) : Orderly (r.resolve i) := by
  unfold Registry.resolve
  split
  · rename_i hi
    dsimp only
    by_cases hgiven : i ∈ r.givenUp
    · rw [List.filter_eq, List.count_eq_one_of_mem h.givenUpNodup hgiven]
      exact h.resolveGivenUp hi hgiven
    · rw [List.filter_eq, List.count_eq_zero_of_not_mem hgiven]
      exact h.resolveCurrent hi ((h.waiting i hi).resolve_right hgiven)
  · exact h

end Steps

section Runs

variable {D : Type} [DecidableEq D] {r : Registry D} (isTauri : Bool)

theorem Orderly.step (h : Orderly r) (e : Event D) (hclear : LeavesClear r e) :
    Orderly (step isTauri r e) := by
  cases e with
  | register target => exact h.register isTauri target
  | unregister k => exact h.unregister k hclear
  | resolve i => exact h.resolve i

/-- A listener that was given up and resolved has been ended; on hold it is ended again. -/
theorem Orderly.not_delivers (h : Orderly r) (e : Event D) (hclear : ¬ LeavesClear r e) :
    ¬ Delivers (DragDrop.step isTauri r e) := by
  cases e with
  | register target => exact absurd trivial hclear
  | resolve i => exact absurd trivial hclear
  | unregister k =>
    simp only [LeavesClear, not_forall] at hclear
    obtain ⟨target, hk, hlast, i, hhold, hgiven⟩ := hclear
    have hcalled := h.past i (not_not.mp hgiven) (h.onHold i hhold).1
    intro hd
    have hcalls : (DragDrop.step isTauri r (.unregister k)).calls = r.calls ++ [i] := by
      have hi : r.unlistenFn = some i := hhold
      simp [DragDrop.step, Registry.unregister, hk, hlast, Registry.teardownListener, hi,
        Registry.unlisten]
    have hnodup := hd.calls
    rw [hcalls] at hnodup
    exact (List.nodup_append.mp hnodup).2.2 i hcalled i (List.mem_singleton_self i) rfl

/-- In a run there is always the one listener that is needed, and none is ended twice, exactly if
the last target always leaves with a clear hold. -/
theorem delivers_throughout_iff (events : List (Event D)) :
    Throughout (step isTauri) Delivers Registry.start events ↔
      Along (step isTauri) LeavesClear Registry.start events :=
  throughout_iff_along (fun _ e h hclear => h.step isTauri e hclear) (fun _ h => h.delivers)
    (fun _ e h hclear => h.not_delivers isTauri e hclear) orderly_start

/-- A target comes and goes before its promise resolves; so does the next one. -/
def twoBriefTargets : List (Event Nat) :=
  [.register 0, .unregister 0, .resolve 0, .register 1, .unregister 1, .resolve 1]

/-- The first listener is ended twice, and the second one outlives both targets. -/
theorem twoBriefTargets_leak :
    (after (step true) Registry.start twoBriefTargets).calls = [0, 0] ∧
      (after (step true) Registry.start twoBriefTargets).live = [1] ∧
      (after (step true) Registry.start twoBriefTargets).targets = [] ∧
      ¬ Throughout (step true) Delivers Registry.start twoBriefTargets := by
  refine ⟨by decide, by decide, by decide, fun h => ?_⟩
  have hcalls : (after (step true) Registry.start twoBriefTargets).calls.Nodup := h.stop.calls
  revert hcalls
  decide

end Runs

end LensLM.DragDrop
