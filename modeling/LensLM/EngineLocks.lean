import LensLM.Lib.EventRuns
import LensLM.Lib.LockOrder
import Mathlib.Data.Finset.Basic
import Mathlib.Data.List.Count

/-!
# The locks of the engine and the queue of the resolution

Tasks take the permit of the ingest, the lock of a notebook and the quiesce lock in this order. An
enrichment asks for a pass over its notebook; one worker takes together what was asked meanwhile,
and makes one pass over each notebook under the lock of the notebook.
-/

namespace LensLM.EngineLocks

open EventRuns LockOrder

set_option autoImplicit false

/-- A lock of a notebook goes by the number of those that were dropped before it. The quiesce lock
has one reader, the worker, so that it is held by one party at a time. -/
inductive Lock (ν : Type) where
  | permit
  | notebook (n : ν) (dropped : Nat)
  | quiesce
deriving DecidableEq

/-- What a task does under the locks. -/
inductive Task (ν : Type) where
  -- an ingest, a retry, the purge of a source, the model cache cleared or moved
  | index
  | purgeNotebook (n : ν)
  | relocate
  | enrich (n : ν)

inductive Phase (ν : Type) where
  | idle
  | awaitNotebook (n : ν) (dropped : Nat)
  | writing (n : ν) (dropped : Nat)
  | awaitPermit
  | permitted
  | awaitQuiesce
  | copying
  | leaving
  | triggering (n : ν)
  | finished
deriving DecidableEq

inductive Stage where
  | awaitNotebook
  | resolving
  | awaitQuiesce
  | upserting
  | recording
deriving DecidableEq

inductive Worker (ν : Type) where
  | receiving
  | draining (batch : Finset ν)
  | choosing (batch : Finset ν)
  | pass (stage : Stage) (n : ν) (dropped : Nat) (batch : Finset ν)

section Places

variable {ν : Type}

def Phase.Holds : Phase ν → Lock ν → Prop
  | .writing n dropped, k => k = .notebook n dropped
  | .permitted, k | .awaitQuiesce, k | .leaving, k => k = .permit
  | .copying, k => k = .permit ∨ k = .quiesce
  | _, _ => False

def Phase.waits : Phase ν → Option (Lock ν)
  | .awaitNotebook n dropped => some (.notebook n dropped)
  | .awaitPermit => some .permit
  | .awaitQuiesce => some .quiesce
  | _ => none

def Worker.Holds : Worker ν → Lock ν → Prop
  | .pass .resolving n dropped _, k | .pass .awaitQuiesce n dropped _, k
  | .pass .recording n dropped _, k => k = .notebook n dropped
  | .pass .upserting n dropped _, k => k = .notebook n dropped ∨ k = .quiesce
  | _, _ => False

def Worker.waits : Worker ν → Option (Lock ν)
  | .pass .awaitNotebook n dropped _ => some (.notebook n dropped)
  | .pass .awaitQuiesce _ _ _ => some .quiesce
  | _ => none

/-- The notebooks that the worker has taken and begun no pass over yet. -/
def Worker.pending [DecidableEq ν] : Worker ν → Finset ν
  | .receiving => ∅
  | .draining batch | .choosing batch => batch
  | .pass .awaitNotebook n _ batch => insert n batch
  | .pass _ _ _ batch => batch

/-- The notebook, with the number of its lock, that a task writes to or waits for. -/
def Phase.notebook : Phase ν → Option (ν × Nat)
  | .awaitNotebook n dropped | .writing n dropped => some (n, dropped)
  | _ => none

def Worker.notebook : Worker ν → Option (ν × Nat)
  | .pass _ n dropped _ => some (n, dropped)
  | _ => none

end Places

/-- The parties are the tasks and, as `none`, the worker. -/
structure Engine (ι ν : Type) where
  task : ι → Task ν
  phase : ι → Phase ν
  worker : Worker ν
  channel : List ν
  holder : Lock ν → Option (Option ι)
  dropped : ν → Nat
  /-- Graphs written by enrichments. -/
  writes : ν → Nat
  /-- The writes when a pass was asked for last, and when one began last. -/
  asked : ν → Nat
  seen : ν → Nat
  accepted : ν → Nat
  started : ν → Nat

inductive Event (ι ν : Type) where
  | start (i : ι)
  | drop (i : ι)
  | lockNotebook (i : ι)
  | written (i : ι) (ok : Bool)
  | takePermit (i : ι)
  | enterCopy (i : ι)
  | takeQuiesce (i : ι)
  | copied (i : ι)
  | dropLock (i : ι)
  | leave (i : ι)
  | release (i : ι) (ok : Bool)
  | trigger (i : ι)
  | receive
  | drain
  | pick (n : ν)
  | lockPass
  | enterUpsert
  | takeShared
  | upserted
  | endPass
  | endBatch

@[irreducible] def ENRICHMENT_QUEUE_CAPACITY : Nat := 1024

namespace Engine

variable {ι ν : Type}

def new (task : ι → Task ν) : Engine ι ν where
  task := task
  phase _ := .idle
  worker := .receiving
  channel := []
  holder _ := none
  dropped _ := 0
  writes _ := 0
  asked _ := 0
  seen _ := 0
  accepted _ := 0
  started _ := 0

def Holds (s : Engine ι ν) : Option ι → Lock ν → Prop
  | some i => (s.phase i).Holds
  | none => s.worker.Holds

def waits (s : Engine ι ν) : Option ι → Option (Lock ν)
  | some i => (s.phase i).waits
  | none => s.worker.waits

variable [DecidableEq ι] [DecidableEq ν]

def go (s : Engine ι ν) (i : ι) (p : Phase ν) : Engine ι ν :=
  { s with phase := Function.update s.phase i p }

def take (s : Engine ι ν) (x : Option ι) (k : Lock ν) : Engine ι ν :=
  { s with holder := Function.update s.holder k (some x) }

def give (s : Engine ι ν) (k : Lock ν) : Engine ι ν :=
  { s with holder := Function.update s.holder k none }

/-- A task waits for the lock that is in the map when it begins to, or that it puts there. -/
def start (s : Engine ι ν) (i : ι) : Engine ι ν :=
  match s.phase i, s.task i with
  | .idle, .enrich n => s.go i (.awaitNotebook n (s.dropped n))
  | .idle, _ => s.go i .awaitPermit
  | _, _ => s

/-- A task is dropped where it waits. -/
def drop (s : Engine ι ν) (i : ι) : Engine ι ν :=
  match s.phase i with
  | .awaitNotebook _ _ | .awaitPermit => s.go i .finished
  | .awaitQuiesce => s.go i .leaving
  | _ => s

def lockNotebook (s : Engine ι ν) (i : ι) : Engine ι ν :=
  match s.phase i with
  | .awaitNotebook n dropped =>
    if s.holder (.notebook n dropped) = none then
      (s.go i (.writing n dropped)).take (some i) (.notebook n dropped)
    else s
  | _ => s

/-- The graph of a notebook has changed. -/
def wrote (s : Engine ι ν) (n : ν) : Engine ι ν :=
  { s with writes := Function.update s.writes n (s.writes n + 1) }

/-- The graph is written, or fails to be, and the lock is given back. -/
def written (s : Engine ι ν) (i : ι) (ok : Bool) : Engine ι ν :=
  match s.phase i, ok with
  | .writing n dropped, true => ((s.wrote n).go i .awaitPermit).give (.notebook n dropped)
  | .writing n dropped, false => (s.go i .finished).give (.notebook n dropped)
  | _, _ => s

def takePermit (s : Engine ι ν) (i : ι) : Engine ι ν :=
  match s.phase i with
  | .awaitPermit =>
    if s.holder .permit = none then (s.go i .permitted).take (some i) .permit else s
  | _ => s

def enterCopy (s : Engine ι ν) (i : ι) : Engine ι ν :=
  match s.phase i, s.task i with
  | .permitted, .relocate => s.go i .awaitQuiesce
  | _, _ => s

def takeQuiesce (s : Engine ι ν) (i : ι) : Engine ι ν :=
  match s.phase i with
  | .awaitQuiesce =>
    if s.holder .quiesce = none then (s.go i .copying).take (some i) .quiesce else s
  | _ => s

def copied (s : Engine ι ν) (i : ι) : Engine ι ν :=
  match s.phase i with
  | .copying => (s.go i .leaving).give .quiesce
  | _ => s

/-- The purge of a notebook takes its lock out of the map. -/
def dropLock (s : Engine ι ν) (i : ι) : Engine ι ν :=
  match s.phase i, s.task i with
  | .permitted, .purgeNotebook n =>
    { s.go i .leaving with dropped := Function.update s.dropped n (s.dropped n + 1) }
  | _, _ => s

/-- The work under the permit is done, or fails. -/
def leave (s : Engine ι ν) (i : ι) : Engine ι ν :=
  match s.phase i with
  | .permitted => s.go i .leaving
  | _ => s

/-- An enrichment asks for a pass only after the flip under its permit. -/
def afterPermit (ok : Bool) : Task ν → Phase ν
  | .enrich n => if ok then .triggering n else .finished
  | _ => .finished

def release (s : Engine ι ν) (i : ι) (ok : Bool) : Engine ι ν :=
  match s.phase i with
  | .leaving => (s.go i (afterPermit ok (s.task i))).give .permit
  | _ => s

/-- What does not fit into the channel is dropped. -/
def send (s : Engine ι ν) (n : ν) : Engine ι ν :=
  if s.channel.length < ENRICHMENT_QUEUE_CAPACITY then
    { s with
      channel := s.channel ++ [n]
      asked := Function.update s.asked n (s.writes n)
      accepted := Function.update s.accepted n (s.accepted n + 1) }
  else s

def trigger (s : Engine ι ν) (i : ι) : Engine ι ν :=
  match s.phase i with
  | .triggering n => (s.go i .finished).send n
  | _ => s

def receive (s : Engine ι ν) : Engine ι ν :=
  match s.worker, s.channel with
  | .receiving, n :: rest => { s with worker := .draining {n}, channel := rest }
  | _, _ => s

def drain (s : Engine ι ν) : Engine ι ν :=
  match s.worker, s.channel with
  | .draining batch, n :: rest => { s with worker := .draining (insert n batch), channel := rest }
  | .draining batch, [] => { s with worker := .choosing batch }
  | _, _ => s

/-- The batch is gone through in any order. -/
def pick (s : Engine ι ν) (n : ν) : Engine ι ν :=
  match s.worker with
  | .choosing batch =>
    if n ∈ batch then
      { s with worker := .pass .awaitNotebook n (s.dropped n) (batch.erase n) }
    else s
  | _ => s

/-- A pass begins. -/
def beginPass (s : Engine ι ν) (n : ν) (dropped : Nat) (batch : Finset ν) : Engine ι ν :=
  { s with
    worker := .pass .resolving n dropped batch
    seen := Function.update s.seen n (s.writes n)
    started := Function.update s.started n (s.started n + 1) }

def lockPass (s : Engine ι ν) : Engine ι ν :=
  match s.worker with
  | .pass .awaitNotebook n dropped batch =>
    if s.holder (.notebook n dropped) = none then
      (s.beginPass n dropped batch).take none (.notebook n dropped)
    else s
  | _ => s

def enterUpsert (s : Engine ι ν) : Engine ι ν :=
  match s.worker with
  | .pass .resolving n dropped batch => { s with worker := .pass .awaitQuiesce n dropped batch }
  | _ => s

def takeShared (s : Engine ι ν) : Engine ι ν :=
  match s.worker with
  | .pass .awaitQuiesce n dropped batch =>
    if s.holder .quiesce = none then
      { s with worker := .pass .upserting n dropped batch }.take none .quiesce
    else s
  | _ => s

def upserted (s : Engine ι ν) : Engine ι ν :=
  match s.worker with
  | .pass .upserting n dropped batch =>
    { s with worker := .pass .recording n dropped batch }.give .quiesce
  | _ => s

/-- The pass returns, from wherever it fails or from its end. -/
def endPass (s : Engine ι ν) : Engine ι ν :=
  match s.worker with
  | .pass .resolving n dropped batch | .pass .recording n dropped batch =>
    { s with worker := .choosing batch }.give (.notebook n dropped)
  | _ => s

def endBatch (s : Engine ι ν) : Engine ι ν :=
  match s.worker with
  | .choosing batch => if batch = ∅ then { s with worker := .receiving } else s
  | _ => s

def step (s : Engine ι ν) : Event ι ν → Engine ι ν
  | .start i => s.start i
  | .drop i => s.drop i
  | .lockNotebook i => s.lockNotebook i
  | .written i ok => s.written i ok
  | .takePermit i => s.takePermit i
  | .enterCopy i => s.enterCopy i
  | .takeQuiesce i => s.takeQuiesce i
  | .copied i => s.copied i
  | .dropLock i => s.dropLock i
  | .leave i => s.leave i
  | .release i ok => s.release i ok
  | .trigger i => s.trigger i
  | .receive => s.receive
  | .drain => s.drain
  | .pick n => s.pick n
  | .lockPass => s.lockPass
  | .enterUpsert => s.enterUpsert
  | .takeShared => s.takeShared
  | .upserted => s.upserted
  | .endPass => s.endPass
  | .endBatch => s.endBatch

end Engine

section Locks

variable {ι ν : Type} {s t : Engine ι ν}

theorem afterPermit_cases (ok : Bool) (task : Task ν) :
    (∃ n, Engine.afterPermit ok task = .triggering n) ∨ Engine.afterPermit ok task = .finished := by
  unfold Engine.afterPermit
  split
  · cases ok
    · exact .inr rfl
    · exact .inl ⟨_, rfl⟩
  · exact .inr rfl

def Locked (s : Engine ι ν) : Prop := Kept s.holder s.Holds

theorem locked_new (task : ι → Task ν) : Locked (Engine.new task) := by
  intro x k
  cases x <;> simp [Engine.new, Engine.Holds, Phase.Holds, Worker.Holds]

/-- The worker goes on and holds the same. -/
theorem Locked.turn (h : Locked s) (hphase : t.phase = s.phase) (hholder : t.holder = s.holder)
    (hworker : ∀ k, t.worker.Holds k ↔ s.worker.Holds k) : Locked t := by
  unfold Locked at h ⊢
  rw [hholder]
  refine h.congr fun x k => ?_
  cases x with
  | none => exact hworker k
  | some i => rw [Engine.Holds, Engine.Holds, hphase]

section Notebooks

variable [DecidableEq ν] {k : Lock ν}

theorem Locked.turn_take (h : Locked s) (hphase : t.phase = s.phase)
    (hholder : t.holder = s.holder) (hfree : s.holder k = none)
    (hworker : ∀ l, t.worker.Holds l ↔ s.worker.Holds l ∨ l = k) : Locked (t.take none k) := by
  unfold Locked Engine.take
  dsimp only
  rw [hholder]
  refine Kept.acquire h hfree fun x l => ?_
  cases x with
  | none => simpa [Engine.Holds] using hworker l
  | some i => simp [Engine.Holds, hphase]

theorem Locked.turn_give (h : Locked s) (hphase : t.phase = s.phase)
    (hholder : t.holder = s.holder) (hk : s.worker.Holds k)
    (hworker : ∀ l, t.worker.Holds l ↔ s.worker.Holds l ∧ l ≠ k) : Locked (t.give k) := by
  unfold Locked Engine.give
  dsimp only
  rw [hholder]
  refine Kept.release (x := none) h hk fun x l => ?_
  cases x with
  | none => simpa [Engine.Holds] using hworker l
  | some i => simp [Engine.Holds, hphase]

end Notebooks

variable [DecidableEq ι] {i : ι} {p : Phase ν}

theorem holds_go (x : Option ι) (k : Lock ν) : (s.go i p).Holds x k ↔
    x = some i ∧ p.Holds k ∨ x ≠ some i ∧ s.Holds x k := by
  cases x with
  | none => simp [Engine.Holds, Engine.go]
  | some j =>
    by_cases hj : j = i
    · subst hj
      simp [Engine.Holds, Engine.go]
    · simp [Engine.Holds, Engine.go, hj]

/-- A task goes on and holds the same. -/
theorem Locked.go (h : Locked s) (hp : ∀ k, p.Holds k ↔ (s.phase i).Holds k) :
    Locked (s.go i p) := by
  refine Kept.congr h fun x k => ?_
  rw [holds_go, hp k]
  by_cases hx : x = some i
  · subst hx
    simp [Engine.Holds]
  · simp [hx]

variable [DecidableEq ν] {k : Lock ν}

theorem Locked.go_take (h : Locked s) (hfree : s.holder k = none)
    (hp : ∀ l, p.Holds l ↔ (s.phase i).Holds l ∨ l = k) :
    Locked ((s.go i p).take (some i) k) := by
  refine Kept.acquire (show Kept s.holder s.Holds from h) hfree fun x l => ?_
  change (s.go i p).Holds x l ↔ _
  rw [holds_go, hp l]
  by_cases hx : x = some i
  · subst hx
    simp [Engine.Holds]
  · simp [hx]

theorem Locked.go_give (h : Locked s) (hk : (s.phase i).Holds k)
    (hp : ∀ l, p.Holds l ↔ (s.phase i).Holds l ∧ l ≠ k) : Locked ((s.go i p).give k) := by
  refine Kept.release (x := some i) (show Kept s.holder s.Holds from h) hk fun x l => ?_
  change (s.go i p).Holds x l ↔ _
  rw [holds_go, hp l]
  by_cases hx : x = some i
  · subst hx
    simp [Engine.Holds]
  · simp [hx]

end Locks

section Queue

variable {ι ν : Type} [DecidableEq ν] {s t : Engine ι ν}

def tally (batch : Finset ν) (n : ν) : Nat := if n ∈ batch then 1 else 0

theorem tally_mem {batch : Finset ν} {n : ν} (h : n ∈ batch) : tally batch n = 1 := if_pos h

theorem tally_notMem {batch : Finset ν} {n : ν} (h : n ∉ batch) : tally batch n = 0 := if_neg h

theorem tally_insert_of_ne {batch : Finset ν} {m n : ν} (h : m ≠ n) :
    tally (insert n batch) m = tally batch m := by
  simp [tally, h]

theorem tally_le (batch : Finset ν) (n : ν) : tally batch n ≤ 1 := by
  unfold tally
  split <;> omega

/-- What was asked for since the last pass over a notebook began is in the channel or with the
worker, and there is no more of it than was accepted. -/
structure Queued (s : Engine ι ν) : Prop where
  answered : ∀ n, s.seen n < s.asked n → n ∈ s.channel ∨ n ∈ s.worker.pending
  coalesced : ∀ n, s.started n + s.channel.count n + tally s.worker.pending n ≤ s.accepted n
  known : ∀ n, s.asked n ≤ s.writes n
  taken : ∀ n dropped batch, s.worker = .pass .awaitNotebook n dropped batch → n ∉ batch

theorem queued_new (task : ι → Task ν) : Queued (Engine.new task) := by
  constructor <;> simp [Engine.new, Worker.pending, tally]

/-- The worker goes on with the same notebooks. -/
theorem Queued.turn (h : Queued s) {w : Worker ν} (hpending : w.pending = s.worker.pending)
    (htaken : ∀ n dropped batch, w = .pass .awaitNotebook n dropped batch → n ∉ batch) :
    Queued { s with worker := w } where
  answered n hn := by simpa [hpending] using h.answered n hn
  coalesced n := by simpa [hpending] using h.coalesced n
  known := h.known
  taken := htaken

theorem Queued.wrote (h : Queued s) (n : ν) : Queued (s.wrote n) where
  answered := h.answered
  coalesced := h.coalesced
  known m := by
    have hm := h.known m
    by_cases hmn : m = n
    · subst hmn
      simp only [Engine.wrote, Function.update_self]
      omega
    · simpa [Engine.wrote, hmn] using hm
  taken := h.taken

theorem Queued.send (h : Queued s) (n : ν) : Queued (s.send n) := by
  unfold Engine.send
  split
  · constructor
    case answered =>
      intro m hm
      by_cases hmn : m = n
      · subst hmn
        exact .inl (by simp)
      · rcases h.answered m (by simpa [hmn] using hm) with hin | hin
        · exact .inl (List.mem_append_left [n] hin)
        · exact .inr hin
    case coalesced =>
      intro m
      have hm := h.coalesced m
      by_cases hmn : m = n
      · subst hmn
        simp only [List.count_append, List.count_singleton_self, Function.update_self]
        omega
      · simpa [List.count_append, List.count_singleton, hmn, Ne.symm hmn] using hm
    case known =>
      intro m
      by_cases hmn : m = n
      · subst hmn
        simp
      · simpa [hmn] using h.known m
    case taken => exact h.taken
  · exact h

/-- A notebook goes from the channel to the worker. -/
theorem Queued.receive (h : Queued s) {n : ν} {rest : List ν} (hchannel : s.channel = n :: rest)
    {w : Worker ν} (hpending : w.pending = insert n s.worker.pending)
    (htaken : ∀ m dropped batch, w = .pass .awaitNotebook m dropped batch → m ∉ batch) :
    Queued { s with worker := w, channel := rest } where
  answered m hm := by
    rcases h.answered m hm with hin | hin
    · rw [hchannel] at hin
      rcases List.mem_cons.mp hin with rfl | hin
      · exact .inr (by simp [hpending])
      · exact .inl hin
    · exact .inr (by simp [hpending, hin])
  coalesced m := by
    have hm := h.coalesced m
    rw [hchannel, List.count_cons] at hm
    dsimp only
    rw [hpending]
    by_cases hmn : m = n
    · subst hmn
      have hle := tally_le (insert m s.worker.pending) m
      simp only [beq_self_eq_true, if_true] at hm
      omega
    · have hne : (n == m) = false := by simpa using Ne.symm hmn
      rw [tally_insert_of_ne hmn]
      simpa [hne] using hm
  known := h.known
  taken := htaken

/-- The pass that begins sees everything that was written. -/
theorem Queued.beginPass (h : Queued s) {n : ν} {dropped : Nat} {batch : Finset ν}
    (hw : s.worker = .pass .awaitNotebook n dropped batch) :
    Queued (s.beginPass n dropped batch) where
  answered m hm := by
    by_cases hmn : m = n
    · subst hmn
      have hknown := h.known m
      simp only [Engine.beginPass, Function.update_self] at hm
      omega
    · rcases h.answered m (by simpa [Engine.beginPass, hmn] using hm) with hin | hin
      · exact .inl hin
      · rw [hw] at hin
        exact .inr ((Finset.mem_insert.mp hin).resolve_left hmn)
  coalesced m := by
    have hm := h.coalesced m
    rw [hw, Worker.pending] at hm
    simp only [Engine.beginPass, Worker.pending]
    by_cases hmn : m = n
    · subst hmn
      rw [tally_mem (Finset.mem_insert_self m batch)] at hm
      rw [tally_notMem (h.taken m dropped batch hw), Function.update_self]
      omega
    · rw [tally_insert_of_ne hmn] at hm
      rwa [Function.update_of_ne hmn]
  known := h.known
  taken m d b hb := by cases hb

theorem Queued.take (h : Queued s) (x : Option ι) (k : Lock ν) : Queued (s.take x k) :=
  ⟨h.answered, h.coalesced, h.known, h.taken⟩

theorem Queued.give (h : Queued s) (k : Lock ν) : Queued (s.give k) :=
  ⟨h.answered, h.coalesced, h.known, h.taken⟩

variable [DecidableEq ι]

theorem Queued.go (h : Queued s) (i : ι) (p : Phase ν) : Queued (s.go i p) :=
  ⟨h.answered, h.coalesced, h.known, h.taken⟩

end Queue

section Sight

variable {ι ν : Type} {s : Engine ι ν}

theorem Worker.notebook_of_holds {w : Worker ν} {n : ν} {dropped : Nat}
    (h : w.Holds (.notebook n dropped)) : w.notebook = some (n, dropped) := by
  cases w with
  | pass stage m d batch => cases stage <;> simp_all [Worker.Holds, Worker.notebook]
  | _ => cases h

/-- Nobody has a lock that is yet to come. A pass over a notebook none of whose locks was dropped
sees what is written. -/
structure Sighted (s : Engine ι ν) : Prop where
  task : ∀ i n dropped, (s.phase i).notebook = some (n, dropped) → dropped ≤ s.dropped n
  pass : ∀ n dropped, s.worker.notebook = some (n, dropped) → dropped ≤ s.dropped n
  sees : ∀ n dropped, s.worker.Holds (.notebook n dropped) → s.dropped n = 0 →
    s.seen n = s.writes n

theorem sighted_new (task : ι → Task ν) : Sighted (Engine.new task) := by
  constructor <;> simp [Engine.new, Phase.notebook, Worker.notebook, Worker.Holds]

theorem Sighted.turn (h : Sighted s) {w : Worker ν}
    (hnotebook : ∀ n dropped, w.notebook = some (n, dropped) → dropped ≤ s.dropped n)
    (hholds : ∀ n dropped, w.Holds (.notebook n dropped) → s.worker.Holds (.notebook n dropped))
    (channel : List ν) : Sighted { s with worker := w, channel := channel } where
  task := h.task
  pass := hnotebook
  sees n dropped hw := h.sees n dropped (hholds n dropped hw)

theorem Sighted.go [DecidableEq ι] (h : Sighted s) (i : ι) {p : Phase ν}
    (hp : ∀ n dropped, p.notebook = some (n, dropped) → dropped ≤ s.dropped n) :
    Sighted (s.go i p) where
  task j n d hd := by
    by_cases hj : j = i
    · subst hj
      exact hp n d (by simpa [Engine.go] using hd)
    · exact h.task j n d (by simpa [Engine.go, hj] using hd)
  pass := h.pass
  sees := h.sees

variable [DecidableEq ν]

theorem Sighted.take (h : Sighted s) (x : Option ι) (k : Lock ν) : Sighted (s.take x k) :=
  ⟨h.task, h.pass, h.sees⟩

theorem Sighted.give (h : Sighted s) (k : Lock ν) : Sighted (s.give k) := ⟨h.task, h.pass, h.sees⟩

theorem Sighted.send (h : Sighted s) (n : ν) : Sighted (s.send n) := by
  unfold Engine.send
  split
  · exact ⟨h.task, h.pass, h.sees⟩
  · exact h

theorem Sighted.dropLock (h : Sighted s) (n : ν) :
    Sighted { s with dropped := Function.update s.dropped n (s.dropped n + 1) } := by
  have hle : ∀ m, s.dropped m ≤ Function.update s.dropped n (s.dropped n + 1) m := by
    intro m
    by_cases hm : m = n
    · subst hm
      simp
    · simp [hm]
  constructor
  case task => exact fun i m d hd => (h.task i m d hd).trans (hle m)
  case pass => exact fun m d hd => (h.pass m d hd).trans (hle m)
  case sees => exact fun m d hw hzero => h.sees m d hw (Nat.le_zero.mp (hzero ▸ hle m))

theorem Sighted.beginPass (h : Sighted s) {n : ν} {dropped : Nat} {batch : Finset ν}
    (hw : s.worker = .pass .awaitNotebook n dropped batch) :
    Sighted (s.beginPass n dropped batch) where
  task := h.task
  pass m d hd := h.pass m d (by rw [hw]; exact hd)
  sees m d hm _ := by
    obtain rfl : m = n := (Lock.notebook.inj hm).1
    simp [Engine.beginPass]

/-- A task that writes has the one lock of the notebook, so that no pass is held up by it. -/
theorem Sighted.wrote (h : Sighted s) (hlocked : Locked s) {i : ι} {n : ν} {dropped : Nat}
    (hp : s.phase i = .writing n dropped) : Sighted (s.wrote n) where
  task := h.task
  pass := h.pass
  sees m d hm hzero := by
    have hd : d = 0 := Nat.le_zero.mp (hzero ▸ h.pass m d (Worker.notebook_of_holds hm))
    by_cases hmn : m = n
    · subst hmn
      have hdropped : dropped = 0 :=
        Nat.le_zero.mp (hzero ▸ h.task i m dropped (by rw [hp]; rfl))
      have hholds : s.Holds (some i) (.notebook m d) := by
        simp [Engine.Holds, hp, Phase.Holds, hd, hdropped]
      have hsame : none = some i := hlocked.unique (k := .notebook m d) hm hholds
      cases hsame
    · simpa [Engine.wrote, hmn] using h.sees m d hm hzero

end Sight

section Steps

variable {ι ν : Type} [DecidableEq ν] {s : Engine ι ν} {k : Lock ν}

structure Sound (s : Engine ι ν) : Prop where
  locked : Locked s
  queued : Queued s
  sighted : Sighted s

/-- The worker goes on: it holds the same, has the same notebooks, and looks at none anew. -/
theorem Sound.turn (h : Sound s) {w : Worker ν} (hholds : ∀ k, w.Holds k ↔ s.worker.Holds k)
    (hpending : w.pending = s.worker.pending)
    (htaken : ∀ n dropped batch, w = .pass .awaitNotebook n dropped batch → n ∉ batch)
    (hn : ∀ n dropped, w.notebook = some (n, dropped) → dropped ≤ s.dropped n) :
    Sound { s with worker := w } :=
  ⟨h.locked.turn rfl rfl hholds, h.queued.turn hpending htaken,
    h.sighted.turn hn (fun n d hd => (hholds (.notebook n d)).mp hd) s.channel⟩

theorem sound_receive (h : Sound s) : Sound s.receive := by
  unfold Engine.receive
  split
  · rename_i hw hchannel
    exact ⟨h.locked.turn rfl rfl (by simp [hw, Worker.Holds]),
      h.queued.receive hchannel (by simp [hw, Worker.pending]) (by simp),
      h.sighted.turn (by simp [Worker.notebook]) (by simp [Worker.Holds]) _⟩
  · exact h

theorem sound_drain (h : Sound s) : Sound s.drain := by
  unfold Engine.drain
  split
  · rename_i hw hchannel
    exact ⟨h.locked.turn rfl rfl (by simp [hw, Worker.Holds]),
      h.queued.receive hchannel (by simp [hw, Worker.pending]) (by simp),
      h.sighted.turn (by simp [Worker.notebook]) (by simp [Worker.Holds]) _⟩
  · rename_i hw _
    exact h.turn (by simp [hw, Worker.Holds]) (by simp [hw, Worker.pending]) (by simp)
      (by simp [Worker.notebook])
  · exact h

theorem sound_pick (h : Sound s) (n : ν) : Sound (s.pick n) := by
  unfold Engine.pick
  split
  · rename_i batch hw
    split
    · rename_i hn
      refine h.turn (by simp [hw, Worker.Holds])
        (by simp [hw, Worker.pending, Finset.insert_erase hn]) (fun m d b hb => ?_) fun m d hd => ?_
      · obtain ⟨-, rfl, -, rfl⟩ := Worker.pass.inj hb
        exact Finset.notMem_erase n batch
      · obtain ⟨rfl, rfl⟩ := Prod.mk.inj (Option.some.inj hd)
        exact Nat.le_refl _
    · exact h
  · exact h

theorem sound_lockPass (h : Sound s) : Sound s.lockPass := by
  unfold Engine.lockPass
  split
  · rename_i hw
    split
    · rename_i hfree
      exact ⟨h.locked.turn_take rfl rfl hfree (by simp [Engine.beginPass, hw, Worker.Holds]),
        (h.queued.beginPass hw).take _ _, (h.sighted.beginPass hw).take _ _⟩
    · exact h
  · exact h

/-- The stages of a pass keep the notebook and the batch. -/
theorem Sound.stage (h : Sound s) (stage' : Stage) {stage : Stage} {n : ν} {dropped : Nat}
    {batch : Finset ν} (hw : s.worker = .pass stage n dropped batch)
    (hstage : stage ≠ .awaitNotebook) (hstage' : stage' ≠ .awaitNotebook) :
    Queued { s with worker := .pass stage' n dropped batch } ∧
      Sighted { s with worker := .pass stage' n dropped batch } := by
  constructor
  · refine h.queued.turn ?_ fun m d b hb => absurd (Worker.pass.inj hb).1 hstage'
    rw [hw]
    cases stage <;> cases stage' <;> simp_all [Worker.pending]
  · refine h.sighted.turn (fun m d hd => h.sighted.pass m d (by rw [hw]; exact hd))
      (fun m d hd => ?_) s.channel
    rw [hw]
    have hsame := Worker.notebook_of_holds hd
    cases stage <;> cases stage' <;> simp_all [Worker.Holds, Worker.notebook]

theorem sound_enterUpsert (h : Sound s) : Sound s.enterUpsert := by
  unfold Engine.enterUpsert
  split
  · rename_i hw
    obtain ⟨hqueued, hsighted⟩ := h.stage .awaitQuiesce hw (by simp) (by simp)
    exact ⟨h.locked.turn rfl rfl (by simp [hw, Worker.Holds]), hqueued, hsighted⟩
  · exact h

theorem sound_takeShared (h : Sound s) : Sound s.takeShared := by
  unfold Engine.takeShared
  split
  · rename_i hw
    split
    · rename_i hfree
      obtain ⟨hqueued, hsighted⟩ := h.stage .upserting hw (by simp) (by simp)
      exact ⟨h.locked.turn_take rfl rfl hfree (by simp [hw, Worker.Holds]), hqueued.take _ _,
        hsighted.take _ _⟩
    · exact h
  · exact h

theorem sound_upserted (h : Sound s) : Sound s.upserted := by
  unfold Engine.upserted
  split
  · rename_i hw
    obtain ⟨hqueued, hsighted⟩ := h.stage .recording hw (by simp) (by simp)
    refine ⟨h.locked.turn_give rfl rfl (by simp [hw, Worker.Holds]) fun l => ?_, hqueued.give _,
      hsighted.give _⟩
    cases l <;> simp [hw, Worker.Holds]
  · exact h

/-- A pass ends with nothing but its lock. -/
theorem Sound.endPass (h : Sound s) {stage : Stage} {n : ν} {dropped : Nat} {batch : Finset ν}
    (hw : s.worker = .pass stage n dropped batch)
    (hholds : ∀ k, s.worker.Holds k ↔ k = .notebook n dropped) :
    Sound (Engine.give { s with worker := .choosing batch } (.notebook n dropped)) := by
  have hstage : stage ≠ .awaitNotebook := by
    rintro rfl
    have hk := (hholds (.notebook n dropped)).mpr rfl
    rw [hw] at hk
    exact hk
  refine ⟨h.locked.turn_give rfl rfl ((hholds _).mpr rfl) fun l => ?_, ?_, ?_⟩
  · rw [hholds l]
    exact ⟨False.elim, fun hl => hl.2 hl.1⟩
  · refine (h.queued.turn ?_ (by simp)).give _
    rw [hw]
    cases stage <;> simp_all [Worker.pending]
  · exact (h.sighted.turn (by simp [Worker.notebook]) (by simp [Worker.Holds]) s.channel).give _

theorem sound_endPass (h : Sound s) : Sound s.endPass := by
  unfold Engine.endPass
  split
  · rename_i hw
    exact h.endPass hw (by simp [hw, Worker.Holds])
  · rename_i hw
    exact h.endPass hw (by simp [hw, Worker.Holds])
  · exact h

theorem sound_endBatch (h : Sound s) : Sound s.endBatch := by
  unfold Engine.endBatch
  split
  · rename_i hw
    split
    · rename_i hempty
      exact h.turn (by simp [hw, Worker.Holds]) (by simp [hw, hempty, Worker.pending]) (by simp)
        (by simp [Worker.notebook])
    · exact h
  · exact h

variable [DecidableEq ι]

/-- A task goes on and holds the same. -/
theorem Sound.go (h : Sound s) {i : ι} {p : Phase ν} (hp : ∀ k, p.Holds k ↔ (s.phase i).Holds k)
    (hn : ∀ n dropped, p.notebook = some (n, dropped) → dropped ≤ s.dropped n) :
    Sound (s.go i p) :=
  ⟨h.locked.go hp, h.queued.go i p, h.sighted.go i hn⟩

theorem Sound.go_take (h : Sound s) {i : ι} {p : Phase ν} (hfree : s.holder k = none)
    (hp : ∀ l, p.Holds l ↔ (s.phase i).Holds l ∨ l = k)
    (hn : ∀ n dropped, p.notebook = some (n, dropped) → dropped ≤ s.dropped n) :
    Sound ((s.go i p).take (some i) k) :=
  ⟨h.locked.go_take hfree hp, (h.queued.go i p).take _ k, (h.sighted.go i hn).take _ k⟩

theorem Sound.go_give (h : Sound s) {i : ι} {p : Phase ν} (hk : (s.phase i).Holds k)
    (hp : ∀ l, p.Holds l ↔ (s.phase i).Holds l ∧ l ≠ k)
    (hn : ∀ n dropped, p.notebook = some (n, dropped) → dropped ≤ s.dropped n) :
    Sound ((s.go i p).give k) :=
  ⟨h.locked.go_give hk hp, (h.queued.go i p).give k, (h.sighted.go i hn).give k⟩

theorem sound_start (h : Sound s) (i : ι) : Sound (s.start i) := by
  unfold Engine.start
  split
  · rename_i hp _
    exact h.go (by simp [hp, Phase.Holds]) (by simp [Phase.notebook])
  · rename_i hp _
    exact h.go (by simp [hp, Phase.Holds]) (by simp [Phase.notebook])
  · exact h

theorem sound_drop (h : Sound s) (i : ι) : Sound (s.drop i) := by
  unfold Engine.drop
  split
  · rename_i hp
    exact h.go (by simp [hp, Phase.Holds]) (by simp [Phase.notebook])
  · rename_i hp
    exact h.go (by simp [hp, Phase.Holds]) (by simp [Phase.notebook])
  · rename_i hp
    exact h.go (by simp [hp, Phase.Holds]) (by simp [Phase.notebook])
  · exact h

theorem sound_lockNotebook (h : Sound s) (i : ι) : Sound (s.lockNotebook i) := by
  unfold Engine.lockNotebook
  split
  · rename_i n dropped hp
    split
    · rename_i hfree
      refine h.go_take hfree (by simp [hp, Phase.Holds]) fun m d hd => ?_
      exact h.sighted.task i m d (by rw [hp]; exact hd)
    · exact h
  · exact h

theorem sound_written (h : Sound s) (i : ι) (ok : Bool) : Sound (s.written i ok) := by
  unfold Engine.written
  split
  · rename_i n dropped hp
    have hwrote : Sound (s.wrote n) :=
      ⟨h.locked, h.queued.wrote n, h.sighted.wrote h.locked hp⟩
    exact hwrote.go_give (by simp [Engine.wrote, hp, Phase.Holds])
      (by simp [Engine.wrote, hp, Phase.Holds]) (by simp [Phase.notebook])
  · rename_i hp
    exact h.go_give (by simp [hp, Phase.Holds]) (by simp [hp, Phase.Holds])
      (by simp [Phase.notebook])
  · exact h

theorem sound_takePermit (h : Sound s) (i : ι) : Sound (s.takePermit i) := by
  unfold Engine.takePermit
  split
  · rename_i hp
    split
    · rename_i hfree
      exact h.go_take hfree (by simp [hp, Phase.Holds]) (by simp [Phase.notebook])
    · exact h
  · exact h

theorem sound_enterCopy (h : Sound s) (i : ι) : Sound (s.enterCopy i) := by
  unfold Engine.enterCopy
  split
  · rename_i hp _
    exact h.go (by simp [hp, Phase.Holds]) (by simp [Phase.notebook])
  · exact h

theorem sound_takeQuiesce (h : Sound s) (i : ι) : Sound (s.takeQuiesce i) := by
  unfold Engine.takeQuiesce
  split
  · rename_i hp
    split
    · rename_i hfree
      exact h.go_take hfree (by simp [hp, Phase.Holds]) (by simp [Phase.notebook])
    · exact h
  · exact h

theorem sound_copied (h : Sound s) (i : ι) : Sound (s.copied i) := by
  unfold Engine.copied
  split
  · rename_i hp
    refine h.go_give (by simp [hp, Phase.Holds]) (fun l => ?_) (by simp [Phase.notebook])
    cases l <;> simp [hp, Phase.Holds]
  · exact h

theorem sound_dropLock (h : Sound s) (i : ι) : Sound (s.dropLock i) := by
  unfold Engine.dropLock
  split
  · rename_i n hp _
    have hgo : Sound (s.go i .leaving) :=
      h.go (by simp [hp, Phase.Holds]) (by simp [Phase.notebook])
    obtain ⟨hlocked, hqueued, hsighted⟩ := hgo
    exact ⟨hlocked, ⟨hqueued.answered, hqueued.coalesced, hqueued.known, hqueued.taken⟩,
      hsighted.dropLock n⟩
  · exact h

theorem sound_leave (h : Sound s) (i : ι) : Sound (s.leave i) := by
  unfold Engine.leave
  split
  · rename_i hp
    exact h.go (by simp [hp, Phase.Holds]) (by simp [Phase.notebook])
  · exact h

theorem sound_release (h : Sound s) (i : ι) (ok : Bool) : Sound (s.release i ok) := by
  unfold Engine.release
  split
  · rename_i hp
    rcases afterPermit_cases ok (s.task i) with ⟨n, hafter⟩ | hafter
    · rw [hafter]
      exact h.go_give (by simp [hp, Phase.Holds]) (by simp [hp, Phase.Holds])
        (by simp [Phase.notebook])
    · rw [hafter]
      exact h.go_give (by simp [hp, Phase.Holds]) (by simp [hp, Phase.Holds])
        (by simp [Phase.notebook])
  · exact h

theorem sound_trigger (h : Sound s) (i : ι) : Sound (s.trigger i) := by
  unfold Engine.trigger
  split
  · rename_i n hp
    have hgo : Sound (s.go i .finished) :=
      h.go (by simp [hp, Phase.Holds]) (by simp [Phase.notebook])
    refine ⟨?_, hgo.queued.send n, hgo.sighted.send n⟩
    unfold Engine.send
    split
    · exact hgo.locked.turn rfl rfl fun _ => Iff.rfl
    · exact hgo.locked
  · exact h

theorem sound_step (h : Sound s) (e : Event ι ν) : Sound (s.step e) := by
  cases e with
  | start i => exact sound_start h i
  | drop i => exact sound_drop h i
  | lockNotebook i => exact sound_lockNotebook h i
  | written i ok => exact sound_written h i ok
  | takePermit i => exact sound_takePermit h i
  | enterCopy i => exact sound_enterCopy h i
  | takeQuiesce i => exact sound_takeQuiesce h i
  | copied i => exact sound_copied h i
  | dropLock i => exact sound_dropLock h i
  | leave i => exact sound_leave h i
  | release i ok => exact sound_release h i ok
  | trigger i => exact sound_trigger h i
  | receive => exact sound_receive h
  | drain => exact sound_drain h
  | pick n => exact sound_pick h n
  | lockPass => exact sound_lockPass h
  | enterUpsert => exact sound_enterUpsert h
  | takeShared => exact sound_takeShared h
  | upserted => exact sound_upserted h
  | endPass => exact sound_endPass h
  | endBatch => exact sound_endBatch h

end Steps

section Runs

variable {ι ν : Type} {s : Engine ι ν}

/-- The order in which locks are taken. -/
def Lock.rank : Lock ν → Nat
  | .permit => 0
  | .notebook _ _ => 1
  | .quiesce => 2

theorem rank_lt (k : Lock ν) : k.rank < 3 := by
  cases k <;> simp [Lock.rank]

/-- Whoever waits for a lock holds only earlier ones. -/
theorem ordered (s : Engine ι ν) (x : Option ι) (k l : Lock ν) (hk : s.waits x = some k)
    (hl : s.Holds x l) : l.rank < k.rank := by
  cases x with
  | none =>
    simp only [Engine.waits, Engine.Holds] at hk hl
    cases hw : s.worker with
    | pass stage n dropped batch =>
      rw [hw] at hk hl
      cases stage <;> simp_all [Worker.waits, Worker.Holds]
      subst hk
      simp [Lock.rank]
    | _ => simp_all [Worker.waits]
  | some i =>
    simp only [Engine.waits, Engine.Holds] at hk hl
    cases hp : s.phase i <;> rw [hp] at hk hl <;> simp_all [Phase.waits, Phase.Holds]
    subst hk
    simp [Lock.rank]

/-- A task under way, or a worker with something to do. -/
def Engine.Busy (s : Engine ι ν) : Option ι → Prop
  | some i => s.phase i ≠ .idle ∧ s.phase i ≠ .finished
  | none => s.channel ≠ [] ∨ s.worker ≠ .receiving

theorem busy_of_holds {x : Option ι} {k : Lock ν} (h : s.Holds x k) : s.Busy x := by
  cases x with
  | none => exact .inr fun hw => by simp [Engine.Holds, hw, Worker.Holds] at h
  | some i =>
    constructor
    · intro hp
      simp [Engine.Holds, hp, Phase.Holds] at h
    · intro hp
      simp [Engine.Holds, hp, Phase.Holds] at h

/-- No task is dropped. -/
def Event.Forward : Event ι ν → Prop
  | .drop _ => False
  | _ => True

variable [DecidableEq ι]

theorem ne_of_go {i : ι} {p : Phase ν} {t : Engine ι ν} (ht : t.phase = (s.go i p).phase)
    (hp : p ≠ s.phase i) : t ≠ s := by
  rintro rfl
  rw [ht] at hp
  simp [Engine.go] at hp

variable [DecidableEq ν]

theorem task_steps {i : ι} (hbusy : s.Busy (some i)) (hready : Ready s.holder s.waits (some i)) :
    ∃ e, e.Forward ∧ s.step e ≠ s := by
  cases hp : s.phase i with
  | idle => exact absurd hp hbusy.1
  | finished => exact absurd hp hbusy.2
  | awaitNotebook n dropped =>
    have hfree := hready (.notebook n dropped) (by simp [Engine.waits, hp, Phase.waits])
    refine ⟨.lockNotebook i, trivial, ne_of_go (i := i) (p := .writing n dropped) ?_ (by simp [hp])⟩
    simp [Engine.step, Engine.lockNotebook, hp, hfree, Engine.take]
  | writing n dropped =>
    refine ⟨.written i false, trivial, ne_of_go (i := i) (p := .finished) ?_ (by simp [hp])⟩
    simp [Engine.step, Engine.written, hp, Engine.give]
  | awaitPermit =>
    have hfree := hready .permit (by simp [Engine.waits, hp, Phase.waits])
    refine ⟨.takePermit i, trivial, ne_of_go (i := i) (p := .permitted) ?_ (by simp [hp])⟩
    simp [Engine.step, Engine.takePermit, hp, hfree, Engine.take]
  | permitted =>
    refine ⟨.leave i, trivial, ne_of_go (i := i) (p := .leaving) ?_ (by simp [hp])⟩
    simp [Engine.step, Engine.leave, hp]
  | awaitQuiesce =>
    have hfree := hready .quiesce (by simp [Engine.waits, hp, Phase.waits])
    refine ⟨.takeQuiesce i, trivial, ne_of_go (i := i) (p := .copying) ?_ (by simp [hp])⟩
    simp [Engine.step, Engine.takeQuiesce, hp, hfree, Engine.take]
  | copying =>
    refine ⟨.copied i, trivial, ne_of_go (i := i) (p := .leaving) ?_ (by simp [hp])⟩
    simp [Engine.step, Engine.copied, hp, Engine.give]
  | leaving =>
    refine ⟨.release i false, trivial,
      ne_of_go (i := i) (p := Engine.afterPermit false (s.task i)) ?_ ?_⟩
    · simp [Engine.step, Engine.release, hp, Engine.give]
    · rcases afterPermit_cases false (s.task i) with ⟨n, hafter⟩ | hafter <;> simp [hafter, hp]
  | triggering n =>
    refine ⟨.trigger i, trivial, ne_of_go (i := i) (p := .finished) ?_ (by simp [hp])⟩
    simp only [Engine.step, Engine.trigger, hp, Engine.send]
    split <;> rfl

omit [DecidableEq ι] [DecidableEq ν] in
theorem ne_of_worker {t : Engine ι ν} (h : t.worker ≠ s.worker) : t ≠ s := by
  rintro rfl
  exact h rfl

theorem worker_steps (hbusy : s.Busy none) (hready : Ready s.holder s.waits none) :
    ∃ e, e.Forward ∧ s.step e ≠ s := by
  cases hw : s.worker with
  | receiving =>
    cases hchannel : s.channel with
    | nil => exact absurd hchannel (hbusy.resolve_right fun h => h hw)
    | cons n rest =>
      refine ⟨.receive, trivial, ne_of_worker ?_⟩
      simp [Engine.step, Engine.receive, hw, hchannel]
  | draining batch =>
    refine ⟨.drain, trivial, ?_⟩
    cases hchannel : s.channel with
    | nil =>
      refine ne_of_worker ?_
      simp [Engine.step, Engine.drain, hw, hchannel]
    | cons n rest =>
      intro h
      have hlen := congrArg (fun t : Engine ι ν => t.channel.length) h
      simp [Engine.step, Engine.drain, hw, hchannel] at hlen
  | choosing batch =>
    rcases batch.eq_empty_or_nonempty with hempty | ⟨n, hn⟩
    · refine ⟨.endBatch, trivial, ne_of_worker ?_⟩
      simp [Engine.step, Engine.endBatch, hw, hempty]
    · refine ⟨.pick n, trivial, ne_of_worker ?_⟩
      simp [Engine.step, Engine.pick, hw, hn]
  | pass stage n dropped batch =>
    cases stage with
    | awaitNotebook =>
      have hfree := hready (.notebook n dropped) (by simp [Engine.waits, hw, Worker.waits])
      refine ⟨.lockPass, trivial, ne_of_worker ?_⟩
      simp [Engine.step, Engine.lockPass, hw, hfree, Engine.take, Engine.beginPass]
    | resolving =>
      refine ⟨.enterUpsert, trivial, ne_of_worker ?_⟩
      simp [Engine.step, Engine.enterUpsert, hw]
    | awaitQuiesce =>
      have hfree := hready .quiesce (by simp [Engine.waits, hw, Worker.waits])
      refine ⟨.takeShared, trivial, ne_of_worker ?_⟩
      simp [Engine.step, Engine.takeShared, hw, hfree, Engine.take]
    | upserting =>
      refine ⟨.upserted, trivial, ne_of_worker ?_⟩
      simp [Engine.step, Engine.upserted, hw, Engine.give]
    | recording =>
      refine ⟨.endPass, trivial, ne_of_worker ?_⟩
      simp [Engine.step, Engine.endPass, hw, Engine.give]

/-- One party for each lock; whoever has something to do, somebody can go on; what was asked for is
in the channel or with the worker until a pass has begun that sees it, in no more passes than were
asked for. A pass sees what is written of a notebook, unless a lock of it was dropped. -/
structure Guarded (s : Engine ι ν) : Prop where
  exclusive : ∀ x y k, s.Holds x k → s.Holds y k → x = y
  live : ∀ x, s.Busy x → ∃ e, e.Forward ∧ s.step e ≠ s
  answered : ∀ n, s.seen n < s.asked n → n ∈ s.channel ∨ n ∈ s.worker.pending
  rested : s.channel = [] → s.worker = .receiving → ∀ n, s.asked n ≤ s.seen n
  coalesced : ∀ n, s.started n + s.channel.count n ≤ s.accepted n
  sees : ∀ n dropped, s.worker.Holds (.notebook n dropped) → s.dropped n = 0 →
    s.seen n = s.writes n

theorem Sound.guarded (h : Sound s) : Guarded s where
  exclusive _ _ _ hx hy := h.locked.unique hx hy
  live x hx := by
    obtain ⟨y, hready, hy⟩ := h.locked.exists_ready rank_lt (ordered s) x
    have hbusy : s.Busy y := by
      rcases hy with rfl | ⟨l, hl⟩
      · exact hx
      · exact busy_of_holds hl
    cases y with
    | none => exact worker_steps hbusy hready
    | some i => exact task_steps hbusy hready
  answered := h.queued.answered
  rested hchannel hworker n := by
    by_contra hn
    have hleft := h.queued.answered n (Nat.lt_of_not_le hn)
    simp [hchannel, hworker, Worker.pending] at hleft
  coalesced n := (Nat.le_add_right _ _).trans (h.queued.coalesced n)
  sees := h.sighted.sees

/-- However the tasks and the worker are interleaved, and whichever of them fail: one party holds a
lock at a time and none waits for ever, and a pass that was asked for is made after the last write
before it, unless it found the channel full. -/
theorem engine_guarded (task : ι → Task ν) (events : List (Event ι ν)) :
    Throughout Engine.step Guarded (Engine.new task) events :=
  (throughout_of_keep (I := Sound) (fun _ e h => sound_step h e)
    ⟨locked_new task, queued_new task, sighted_new task⟩).mono fun _ h => h.guarded

end Runs

end LensLM.EngineLocks
