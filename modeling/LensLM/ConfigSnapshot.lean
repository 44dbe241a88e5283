import LensLM.Lib.EventRuns
import Mathlib.Data.List.Basic

/-!
# The snapshot of the settings

The interface keeps a snapshot of the engine's configuration. Loads, and the re-reads that confirm a
write, set it when their replies arrive; the writes themselves wait in one queue.
-/

namespace LensLM.ConfigSnapshot

open EventRuns

set_option autoImplicit false

/-- What a call waits for. A `get_config` holds the configuration that the engine read for it; `seen`
is the snapshot that a persist found. -/
inductive Call (C : Type) where
  | load (read : Option C)
  | queued (mutate : C → C) (seen : Option C)
  | fetch (mutate : C → C) (seen : Option C) (read : Option C)
  | write (mutate : C → C) (seen : Option C) (config : C) (applied : Bool)
  | reread (mutate : C → C) (seen : Option C) (read : Option C)
  | settled

structure Store (C : Type) where
  cfg : Option C
  loadError : Option String
  staleError : Option String
  persistError : Option String
  /-- The load that the callers of `ensureLoaded` share. -/
  loadPromise : Option Nat
  /-- The engine's configuration. -/
  engine : C
  calls : List (Call C)

namespace Store

variable {C : Type}

def start (engine : C) : Store C := ⟨none, none, none, none, none, engine, []⟩

/-- `load`, up to its reply. -/
def load (isTauri : Bool) (s : Store C) : Store C :=
  if isTauri then { s with calls := s.calls ++ [.load none] }
  else { s with
    cfg := none, loadError := none, staleError := none, persistError := none
    calls := s.calls ++ [.settled] }

def loadArrived (s : Store C) (i : Nat) (config : C) : Store C :=
  { s with
    cfg := some config, loadError := none, staleError := none, persistError := none
    loadPromise := if s.loadPromise = some i then none else s.loadPromise
    calls := s.calls.set i .settled }

def loadFailed (s : Store C) (i : Nat) (message : String) : Store C :=
  let s := { s with
    loadPromise := if s.loadPromise = some i then none else s.loadPromise
    calls := s.calls.set i .settled }
  match s.cfg with
  | none => { s with loadError := some message }
  | some _ => { s with staleError := some message }

def ensureLoaded (isTauri : Bool) (s : Store C) : Store C :=
  match s.cfg, s.loadPromise with
  | some _, _ => s
  | none, some _ => s
  | none, none =>
    let s := { s.load isTauri with loadPromise := some s.calls.length }
    if isTauri then s else { s with loadPromise := none }

def refreshConfig (isTauri : Bool) (s : Store C) : Store C := s.load isTauri

/-- `persist`, up to its turn in the queue. -/
def persist (isTauri : Bool) (s : Store C) (mutate : C → C) : Store C :=
  if isTauri then { s with calls := s.calls ++ [.queued mutate s.cfg] } else s

/-- The re-read failed: the snapshot becomes the value that was worked out when `persist` was
called. -/
def rereadFailed (s : Store C) (i : Nat) (mutate : C → C) (seen : Option C) (message : String) :
    Store C :=
  let optimistic := seen.map mutate
  { s with
    cfg := optimistic.or s.cfg
    persistError := some message
    calls := s.calls.set i .settled }

end Store

inductive Event (C : Type) where
  | ensureLoaded
  | refreshConfig
  | persist (mutate : C → C)
  /-- The write of a call is next in the queue. -/
  | turn (i : Nat)
  /-- The engine serves the `get_config` of a call. -/
  | read (i : Nat)
  /-- The engine serves the `set_config` of a call. -/
  | apply (i : Nat)
  | reply (i : Nat)
  | fail (i : Nat) (message : String)

section Steps

variable {C : Type}

/-- The call's write is in the queue, or on its way. -/
def Call.inQueue : Call C → Bool
  | .queued .. | .fetch .. | .write .. => true
  | .load _ | .reread .. | .settled => false

def Store.turn (s : Store C) (i : Nat) : Store C :=
  match s.calls[i]? with
  | some (.queued mutate seen) =>
    if (s.calls.take i).any Call.inQueue then s
    else { s with calls := s.calls.set i (.fetch mutate seen none) }
  | _ => s

def Store.read (s : Store C) (i : Nat) : Store C :=
  match s.calls[i]? with
  | some (.load none) => { s with calls := s.calls.set i (.load (some s.engine)) }
  | some (.fetch mutate seen none) =>
    { s with calls := s.calls.set i (.fetch mutate seen (some s.engine)) }
  | some (.reread mutate seen none) =>
    { s with calls := s.calls.set i (.reread mutate seen (some s.engine)) }
  | _ => s

def Store.apply (s : Store C) (i : Nat) : Store C :=
  match s.calls[i]? with
  | some (.write mutate seen config false) =>
    { s with engine := config, calls := s.calls.set i (.write mutate seen config true) }
  | _ => s

def Store.reply (s : Store C) (i : Nat) : Store C :=
  match s.calls[i]? with
  | some (.load (some config)) => s.loadArrived i config
  | some (.fetch mutate seen (some config)) =>
    { s with calls := s.calls.set i (.write mutate seen (mutate config) false) }
  | some (.write mutate seen _ true) =>
    { s with calls := s.calls.set i (.reread mutate seen none) }
  | some (.reread _ _ (some config)) =>
    { s with cfg := some config, persistError := none, calls := s.calls.set i .settled }
  | _ => s

/-- A failed `get_config`; that of a write ends the whole `persist`. -/
def Store.fail (s : Store C) (i : Nat) (message : String) : Store C :=
  match s.calls[i]? with
  | some (.load _) => s.loadFailed i message
  | some (.fetch ..) => { s with calls := s.calls.set i .settled }
  | some (.reread mutate seen _) => s.rereadFailed i mutate seen message
  | _ => s

def step (isTauri : Bool) (s : Store C) : Event C → Store C
  | .ensureLoaded => s.ensureLoaded isTauri
  | .refreshConfig => s.refreshConfig isTauri
  | .persist mutate => s.persist isTauri mutate
  | .turn i => s.turn i
  | .read i => s.read i
  | .apply i => s.apply i
  | .reply i => s.reply i
  | .fail i message => s.fail i message

end Steps

section Properties

variable {C : Type}

def Settled (s : Store C) : Prop := ∀ c ∈ s.calls, c = .settled

/-- A snapshot is that of the engine, or an error says that it may not be. -/
def Matches (s : Store C) : Prop :=
  ∀ config, s.cfg = some config →
    config = s.engine ∨ s.staleError ≠ none ∨ s.persistError ≠ none

/-- When the re-read of a persist fails, each field that it leaves alone and that the snapshot shows
as the engine has it is still shown so. -/
def KeepsDurable (s : Store C) : Event C → Prop
  | .fail i message => ∀ mutate seen read, s.calls[i]? = some (.reread mutate seen read) →
      ∀ (V : Type) (field : C → V), (∀ c, field (mutate c) = field c) →
        s.cfg.map field = some (field s.engine) →
        (s.fail i message).cfg.map field = some (field s.engine)
  | _ => True

/-- The call ends with the engine's answer in the snapshot or with an error. -/
def Call.answers : Call C → Bool
  | .load _ | .write .. | .reread .. => true
  | .queued .. | .fetch .. | .settled => false

/-- A reply with which the last answer arrives was read after the last write. -/
def LastReadCurrent (s : Store C) : Event C → Prop
  | .reply i => ∀ config,
      (s.calls[i]? = some (.load (some config)) ∨
        ∃ mutate seen, s.calls[i]? = some (.reread mutate seen (some config))) →
      (∃ j c, j ≠ i ∧ s.calls[j]? = some c ∧ c.answers = true) ∨ config = s.engine
  | _ => True

/-- When the re-read of a persist fails, the snapshot that it found had all the durable fields of
others that the snapshot has now. -/
def SeenCurrent (s : Store C) : Event C → Prop
  | .fail i _ => ∀ mutate seen read, s.calls[i]? = some (.reread mutate (some seen) read) →
      ∀ (V : Type) (field : C → V), (∀ c, field (mutate c) = field c) →
        s.cfg.map field = some (field s.engine) → field seen = field s.engine
  | _ => True

end Properties

section Invariant

variable {C : Type} {s : Store C}

/-- Some call is still to bring its answer, or the snapshot matches. -/
def Accounted (s : Store C) : Prop := (∃ c ∈ s.calls, c.answers = true) ∨ Matches s

theorem accounted_start (engine : C) : Accounted (Store.start engine) := by
  right
  intro config hc
  cases hc

theorem Accounted.settled (h : Accounted s) (hs : Settled s) : Matches s := by
  cases h with
  | inl h =>
    obtain ⟨c, hc, ha⟩ := h
    rw [hs c hc] at ha
    cases ha
  | inr h => exact h

theorem exists_answers_set {calls : List (Call C)} {i : Nat} {c d : Call C}
    (hi : calls[i]? = some c) (hd : d.answers = true) :
    ∃ c ∈ calls.set i d, c.answers = true := by
  refine ⟨d, ?_, hd⟩
  have hlt := (List.getElem?_eq_some_iff.mp hi).1
  exact List.mem_of_getElem? (List.getElem?_set_self hlt)

/-- The other calls are as they were. -/
theorem answers_elsewhere {calls : List (Call C)} {i j : Nat} {c d : Call C} (hne : j ≠ i)
    (hj : calls[j]? = some c) (hc : c.answers = true) : ∃ c ∈ calls.set i d, c.answers = true := by
  refine ⟨c, ?_, hc⟩
  apply List.mem_of_getElem? (i := j)
  rw [List.getElem?_set_ne (Ne.symm hne)]
  exact hj

/-- A call that brings no answer moves on, and nothing else changes. -/
theorem Accounted.move (h : Accounted s) {i : Nat} {c : Call C} (d : Call C)
    (hi : s.calls[i]? = some c) (hc : c.answers = false) :
    Accounted { s with calls := s.calls.set i d } := by
  cases h with
  | inl h =>
    obtain ⟨e, he, ha⟩ := h
    obtain ⟨j, hj⟩ := List.mem_iff_getElem?.mp he
    left
    apply answers_elsewhere _ hj ha
    rintro rfl
    rw [hi] at hj
    cases hj
    rw [hc] at ha
    cases ha
  | inr h => exact .inr h

theorem Accounted.append (h : Accounted s) (c : Call C) :
    Accounted { s with calls := s.calls ++ [c] } := by
  cases h with
  | inl h =>
    obtain ⟨d, hd, ha⟩ := h
    exact .inl ⟨d, List.mem_append_left _ hd, ha⟩
  | inr h => exact .inr h

theorem accounted_load (s : Store C) : Accounted (s.load true) :=
  .inl ⟨.load none, List.mem_append_right _ (List.mem_singleton_self _), rfl⟩

theorem Accounted.ensureLoaded (h : Accounted s) : Accounted (s.ensureLoaded true) := by
  unfold Store.ensureLoaded
  split
  · exact h
  · exact h
  · exact accounted_load s

theorem Accounted.turn (h : Accounted s) (i : Nat) : Accounted (s.turn i) := by
  unfold Store.turn
  split
  · rename_i hi
    split
    · exact h
    · exact h.move _ hi rfl
  · exact h

theorem Accounted.read (h : Accounted s) (i : Nat) : Accounted (s.read i) := by
  unfold Store.read
  split
  · rename_i hi
    exact .inl (exists_answers_set hi rfl)
  · rename_i hi
    exact h.move _ hi rfl
  · rename_i hi
    exact .inl (exists_answers_set hi rfl)
  · exact h

theorem Accounted.apply (h : Accounted s) (i : Nat) : Accounted (s.apply i) := by
  unfold Store.apply
  split
  · rename_i hi
    exact .inl (exists_answers_set hi rfl)
  · exact h

/-- With the last answer the snapshot becomes current. -/
theorem Accounted.reply (h : Accounted s) (i : Nat) (hlast : LastReadCurrent s (.reply i)) :
    Accounted (s.reply i) := by
  unfold Store.reply
  split
  · rename_i config hi
    rcases hlast config (.inl hi) with ⟨j, c, hj, hc, ha⟩ | heq
    · exact .inl (answers_elsewhere hj hc ha)
    · right
      intro shown hshown
      cases hshown
      exact .inl heq
  · rename_i hi
    exact .inl (exists_answers_set hi rfl)
  · rename_i hi
    exact .inl (exists_answers_set hi rfl)
  · rename_i mutate seen config hi
    rcases hlast config (.inr ⟨mutate, seen, hi⟩) with ⟨j, c, hj, hc, ha⟩ | heq
    · exact .inl (answers_elsewhere hj hc ha)
    · right
      intro shown hshown
      cases hshown
      exact .inl heq
  · exact h

theorem Accounted.fail (h : Accounted s) (i : Nat) (message : String) :
    Accounted (s.fail i message) := by
  unfold Store.fail
  split
  · right
    unfold Store.loadFailed
    dsimp only
    split
    · rename_i hnone
      intro config hc
      rw [hnone] at hc
      cases hc
    · intro config _
      exact .inr (.inl (Option.some_ne_none _))
  · rename_i hi
    exact h.move _ hi rfl
  · right
    intro config _
    exact .inr (.inr (Option.some_ne_none _))
  · exact h

theorem Accounted.step (h : Accounted s) (e : Event C) (hlast : LastReadCurrent s e) :
    Accounted (step true s e) := by
  cases e with
  | ensureLoaded => exact h.ensureLoaded
  | refreshConfig => exact accounted_load s
  | persist mutate => exact h.append _
  | turn i => exact h.turn i
  | read i => exact h.read i
  | apply i => exact h.apply i
  | reply i => exact h.reply i hlast
  | fail i message => exact h.fail i message

/-- A failed re-read keeps the durable fields exactly if the persist had seen them. -/
theorem keepsDurable_iff (e : Event C) : KeepsDurable s e ↔ SeenCurrent s e := by
  cases e with
  | fail i message =>
    constructor
    · intro h mutate seen read hi V field hfield hshown
      have hkept := h mutate (some seen) read hi V field hfield hshown
      simp only [Store.fail, hi, Store.rereadFailed, Option.map_some, Option.some_or,
        Option.some.injEq, hfield] at hkept
      exact hkept
    · intro h mutate seen read hi V field hfield hshown
      cases seen with
      | none =>
        simp only [Store.fail, hi, Store.rereadFailed, Option.map_none, Option.none_or]
        exact hshown
      | some seen =>
        simp only [Store.fail, hi, Store.rereadFailed, Option.map_some, Option.some_or, hfield]
        rw [h mutate seen read hi V field hfield hshown]
  | ensureLoaded => exact Iff.rfl
  | refreshConfig => exact Iff.rfl
  | persist mutate => exact Iff.rfl
  | turn i => exact Iff.rfl
  | read i => exact Iff.rfl
  | apply i => exact Iff.rfl
  | reply i => exact Iff.rfl

end Invariant

section Runs

variable {C : Type}

/-- If the last answer of every bunch of calls is current, the settled snapshot matches; and failed
re-reads keep the durable fields exactly if the persists had seen them. -/
theorem snapshot_converges (engine : C) (events : List (Event C))
    (hlast : Along (step true) LastReadCurrent (Store.start engine) events) :
    Throughout (step true) (fun s => Settled s → Matches s) (Store.start engine) events ∧
      (Along (step true) KeepsDurable (Store.start engine) events ↔
        Along (step true) SeenCurrent (Store.start engine) events) := by
  constructor
  · have hinv : Throughout (step true) Accounted (Store.start engine) events :=
      hlast.throughout (fun _ e h he => h.step e he) (accounted_start engine)
    exact hinv.mono fun _ h hs => h.settled hs
  · constructor
    · intro h
      exact h.imp fun _ e he => (keepsDurable_iff e).mp he
    · intro h
      exact h.imp fun _ e he => (keepsDurable_iff e).mpr he

/-- A persist whose write and re-read succeed. -/
def persisted {C : Type} (i : Nat) : List (Event C) :=
  [.turn i, .read i, .reply i, .apply i, .reply i, .read i, .reply i]

/-- One persist after a load, with every reply in time. -/
theorem snapshot_converges_inOrder :
    Throughout (step true) (fun s => Settled s → Matches s) (Store.start 0)
        ([.ensureLoaded, .read 0, .reply 0, .persist (· + 1)] ++ persisted 1) ∧
      (Along (step true) KeepsDurable (Store.start 0)
          ([.ensureLoaded, .read 0, .reply 0, .persist (· + 1)] ++ persisted 1) ↔
        Along (step true) SeenCurrent (Store.start 0)
          ([.ensureLoaded, .read 0, .reply 0, .persist (· + 1)] ++ persisted 1)) := by
  apply snapshot_converges 0
  refine ⟨trivial, trivial, ?_, trivial, trivial, trivial, ?_, trivial, ?_, trivial, ?_, trivial⟩
  · rintro config (hload | ⟨_, _, hreread⟩)
    · cases hload
      exact .inr rfl
    · cases hreread
  · rintro config (hload | ⟨_, _, hreread⟩)
    · cases hload
    · cases hreread
  · rintro config (hload | ⟨_, _, hreread⟩)
    · cases hload
    · cases hreread
  · rintro config (hload | ⟨_, _, hreread⟩)
    · cases hload
    · cases hreread
      exact .inr rfl

/-- A refresh is read before a persist and answered after it. -/
def overtaken : List (Event Nat) :=
  [.refreshConfig, .read 0, .persist (· + 1)] ++ persisted 1 ++ [.reply 0]

/-- Two persists of two fields are called together, and the second one's re-read fails. -/
def rereadFails : List (Event (Bool × Bool)) :=
  [.ensureLoaded, .read 0, .reply 0, .persist fun c => (true, c.2), .persist fun c => (c.1, true)] ++
    persisted 1 ++ [.turn 2, .read 2, .reply 2, .apply 2, .reply 2]

/-- The old reply stays in the snapshot without an error; the failed re-read takes the first field
back, which the engine has. -/
theorem lateReplies_undo :
    ¬ Throughout (step true) (fun s => Settled s → Matches s) (Store.start 0) overtaken ∧
      ¬ Along (step true) KeepsDurable (Store.start (false, false))
        (rereadFails ++ [.fail 2 "closed"]) := by
  constructor
  · intro h
    have hsettled : Settled (after (step true) (Store.start 0) overtaken) := by
      intro c hc
      rcases List.mem_cons.mp hc with rfl | hc
      · rfl
      · exact List.mem_singleton.mp hc
    rcases h.stop hsettled 0 rfl with heq | hstale | hpersist
    · exact absurd heq (by decide)
    · exact hstale rfl
    · exact hpersist rfl
  · intro h
    have hkept := h.last _ _ _ rfl Bool Prod.fst (fun _ => rfl) rfl
    revert hkept
    decide

end Runs

end LensLM.ConfigSnapshot
