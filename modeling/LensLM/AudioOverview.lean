import LensLM.Lib.EventRuns
import Mathlib.Logic.Function.Basic

/-!
# The audio overview panel

The panel shows the overview of the active notebook. Several calls may be under way at once, also of
notebooks that were active before; a generation counter tells the latest call from the others.
-/

namespace LensLM.AudioOverview

open EventRuns

set_option autoImplicit false

section State

inductive AudioOverviewStatus where
  | ready
  | failed
  | stale
  | missing
deriving DecidableEq, Repr

inductive OverviewState where
  | none
  | generating
  | recorded (status : AudioOverviewStatus)
deriving DecidableEq, Repr

inductive OverviewPhase where
  | idle
  | starting
  | synthesizing
  | stitching
  | encoding
deriving DecidableEq, Repr

inductive TranscriptSpeaker where
  | host
  | guest
deriving DecidableEq, Repr

structure TranscriptTurn where
  speaker : TranscriptSpeaker
  text : String
deriving DecidableEq, Repr

structure TranscriptScript where
  turns : List TranscriptTurn
deriving DecidableEq, Repr

structure AudioOverviewRecord where
  path : String
  generatedAt : String
  status : AudioOverviewStatus
  script : Option TranscriptScript
deriving DecidableEq, Repr

inductive TtsPhase where
  | synthesizing (turn total : Nat)
  | stitching
  | encoding
deriving DecidableEq, Repr

structure LensError where
  kind : String
  message : String
deriving DecidableEq, Repr

/-- What the panel shows. -/
structure Panel where
  overviewStatus : OverviewState
  phase : OverviewPhase
  turn : Option Nat
  total : Option Nat
  overviewPath : Option String
  generatedAt : Option String
  errorMessage : Option String
  transcript : Option TranscriptScript
deriving DecidableEq, Repr

def resetOverviewState : Panel := ⟨.none, .idle, none, none, none, none, none, none⟩

/-- A call of the store, which its replies and its progress events name. -/
structure CallId where
  notebook : String
  serial : Nat
deriving DecidableEq, Repr

/-- What a call waits for. -/
inductive Awaiting where
  | hydrating
  | pollTimer (retriedAfterError : Bool)
  | probing (retriedAfterError : Bool)
  | synthesizing
  | script
deriving DecidableEq, Repr

structure Call where
  gen : Nat
  awaits : Awaiting
deriving DecidableEq, Repr

structure Store where
  activeNotebookId : Option String
  hydrateGeneration : Nat
  modelReady : Bool
  panel : Panel
  calls : CallId → Option Call

def start : Store := ⟨none, 0, false, resetOverviewState, fun _ => none⟩

end State

section Step

structure Probes where
  record : Option AudioOverviewRecord
  generating : Bool
  ready : Bool
deriving DecidableEq, Repr

/-- What a call gets. A poll's timer is a reply as well. -/
inductive Reply where
  | probes (result : Except LensError Probes)
  | due
  | probe (result : Except LensError Bool)
  | path (result : Except LensError String) (now : String)
  | record (result : Except LensError (Option AudioOverviewRecord))

inductive Event where
  | activate (id : Option CallId)
  | hydrate (id : CallId)
  | generate (id : CallId)
  | cancel (notebook : String)
  | reply (id : CallId) (r : Reply)
  | chunk (id : CallId) (data : TtsPhase)

/-- How a call goes on. -/
inductive Next where
  | done
  | wait (awaits : Awaiting)
  | hydrate
deriving DecidableEq, Repr

def Probes.apply (p : Probes) (panel : Panel) : Panel × Next :=
  if p.generating then
    ({ panel with overviewStatus := .generating, phase := .starting }, .wait (.pollTimer false))
  else match p.record with
    | some record =>
      ({ panel with
          overviewStatus := .recorded record.status
          overviewPath := some record.path
          generatedAt := some record.generatedAt
          transcript := record.script }, .done)
    | none => (panel, .done)

/-- The continuation of a call whose generation is the latest. -/
def Awaiting.settle : Awaiting → Reply → Panel → Option (Panel × Next)
  | .hydrating, .probes (.ok p), panel => some (p.apply panel)
  | .hydrating, .probes (.error _), panel => some (panel, .done)
  | .pollTimer retried, .due, panel =>
    some (panel, if panel.overviewStatus ≠ .generating then .done else .wait (.probing retried))
  | .probing retried, .probe (.error _), panel =>
    some (panel, if panel.overviewStatus = .generating ∧ retried = false then .wait (.pollTimer true)
      else .done)
  | .probing _, .probe (.ok stillGenerating), panel =>
    some (panel, if panel.overviewStatus ≠ .generating then .done
      else if stillGenerating then .wait (.pollTimer false) else .hydrate)
  | .synthesizing, .path (.ok path) now, panel =>
    some ({ panel with
        overviewStatus := .recorded .ready
        overviewPath := some path
        generatedAt := some now
        phase := .idle }, .wait .script)
  | .synthesizing, .path (.error err) _, panel =>
    if err.kind = "Cancelled" then some ({ panel with phase := .idle }, .hydrate)
    else
      some ({ panel with
          phase := .idle
          overviewStatus := .recorded .failed
          errorMessage := some err.message }, .done)
  | .script, .record (.ok record), panel =>
    some ({ panel with transcript := record.bind AudioOverviewRecord.script }, .done)
  | .script, .record (.error _), panel => some (panel, .done)
  | _, _, _ => none

def Reply.modelReady (r : Reply) (before : Bool) : Bool :=
  match r with
  | .probes (.ok p) => p.ready
  | _ => before

/-- A call takes the next generation. -/
def Store.enter (s : Store) (id : CallId) (awaits : Awaiting) (panel : Panel) : Store :=
  { s with
    hydrateGeneration := s.hydrateGeneration + 1
    panel := panel
    calls := Function.update s.calls id (some ⟨s.hydrateGeneration + 1, awaits⟩) }

def Store.hydrateOverview (s : Store) (id : CallId) : Store := s.enter id .hydrating resetOverviewState

def Panel.generating (panel : Panel) : Panel :=
  { panel with
    overviewStatus := .generating
    phase := .starting
    turn := none
    total := none
    errorMessage := none
    transcript := none }

def Store.generateOverview (s : Store) (id : CallId) : Store :=
  s.enter id .synthesizing s.panel.generating

def applyPhaseEvent (panel : Panel) : TtsPhase → Panel
  | .stitching => { panel with phase := .stitching, turn := none, total := none }
  | .encoding => { panel with phase := .encoding, turn := none, total := none }
  | .synthesizing turn total =>
    { panel with phase := .synthesizing, turn := some turn, total := some total }

def Store.proceed (s : Store) (id : CallId) (panel : Panel) : Next → Store
  | .done => { s with panel := panel, calls := Function.update s.calls id none }
  | .wait awaits =>
    { s with
      panel := panel
      calls := Function.update s.calls id (some ⟨s.hydrateGeneration, awaits⟩) }
  | .hydrate => { s with panel := panel }.hydrateOverview id

/-- A continuation whose generation is over changes nothing. -/
def Store.resume (s : Store) (id : CallId) (r : Reply) : Store :=
  match s.calls id with
  | none => s
  | some call =>
    match call.awaits.settle r s.panel with
    | none => s
    | some (panel, next) =>
      if call.gen ≠ s.hydrateGeneration then { s with calls := Function.update s.calls id none }
      else { s with modelReady := r.modelReady s.modelReady }.proceed id panel next

/-- An activation is the effect's run after the active notebook has changed. The cancellation only
goes to the backend, and the handler of the progress events knows no generation. -/
def step (s : Store) : Event → Store
  | .activate (some id) => { s with activeNotebookId := some id.notebook }.hydrateOverview id
  | .activate none =>
    { s with
      activeNotebookId := none
      hydrateGeneration := s.hydrateGeneration + 1
      modelReady := false
      panel := resetOverviewState }
  | .hydrate id => s.hydrateOverview id
  | .generate id => s.generateOverview id
  | .cancel _ => s
  | .reply id r => s.resume id r
  | .chunk _ data => { s with panel := applyPhaseEvent s.panel data }

end Step

section Focus

/-- What the panel is for: it shows one call, the one that has entered last. -/
structure Focus where
  panel : Panel
  current : Option (CallId × Awaiting)
deriving DecidableEq, Repr

def Focus.proceed (id : CallId) (panel : Panel) : Next → Focus
  | .done => ⟨panel, none⟩
  | .wait awaits => ⟨panel, some (id, awaits)⟩
  | .hydrate => ⟨resetOverviewState, some (id, .hydrating)⟩

def Focus.resume (v : Focus) (id : CallId) (r : Reply) : Focus :=
  match v.current with
  | none => v
  | some (current, awaits) =>
    if current = id then
      match awaits.settle r v.panel with
      | none => v
      | some (panel, next) => Focus.proceed id panel next
    else v

def Focus.step (v : Focus) : Event → Focus
  | .activate (some id) => ⟨resetOverviewState, some (id, .hydrating)⟩
  | .activate none => ⟨resetOverviewState, none⟩
  | .hydrate id => ⟨resetOverviewState, some (id, .hydrating)⟩
  | .generate id => ⟨v.panel.generating, some (id, .synthesizing)⟩
  | .cancel _ => v
  | .reply id r => v.resume id r
  | .chunk _ data => { v with panel := applyPhaseEvent v.panel data }

/-- The store holds calls of past generations besides the one that is shown. -/
structure Shows (s : Store) (v : Focus) : Prop where
  panel : s.panel = v.panel
  current : ∀ id awaits, v.current = some (id, awaits) ↔
    s.calls id = some ⟨s.hydrateGeneration, awaits⟩
  past : ∀ id call, s.calls id = some call → call.gen ≤ s.hydrateGeneration

variable {s : Store} {v : Focus}

theorem shows_start : Shows start ⟨resetOverviewState, none⟩ := by
  refine ⟨rfl, ?_, ?_⟩
  · intro id awaits
    simp [start]
  · intro id call hcall
    cases hcall

/-- The call that enters is the only one of its generation. -/
theorem Shows.enter (h : Shows s v) (id : CallId) (awaits : Awaiting) (panel : Panel) :
    Shows (s.enter id awaits panel) ⟨panel, some (id, awaits)⟩ := by
  refine ⟨rfl, ?_, ?_⟩
  · intro other awaits'
    simp only [Store.enter, Function.update_apply, Option.some.injEq, Prod.mk.injEq]
    by_cases heq : other = id
    · subst heq
      simp
    · rw [if_neg heq]
      constructor
      · rintro ⟨rfl, -⟩
        exact absurd rfl heq
      · intro hcall
        have hle := h.past other _ hcall
        simp only at hle
        omega
  · intro other call hcall
    simp only [Store.enter, Function.update_apply] at hcall ⊢
    split at hcall
    · cases hcall
      exact Nat.le_refl _
    · exact Nat.le_succ_of_le (h.past other call hcall)

theorem Shows.leave (h : Shows s v) :
    Shows { s with
        activeNotebookId := none
        hydrateGeneration := s.hydrateGeneration + 1
        modelReady := false
        panel := resetOverviewState } ⟨resetOverviewState, none⟩ := by
  refine ⟨rfl, ?_, ?_⟩
  · intro id awaits
    constructor
    · intro hnone
      cases hnone
    · intro hcall
      have hle := h.past id _ hcall
      simp only at hle
      omega
  · intro id call hcall
    exact Nat.le_succ_of_le (h.past id call hcall)

theorem Shows.unique (h : Shows s v) {id other : CallId} {awaits awaits' : Awaiting}
    (hid : s.calls id = some ⟨s.hydrateGeneration, awaits⟩)
    (hother : s.calls other = some ⟨s.hydrateGeneration, awaits'⟩) : id = other := by
  have heq := ((h.current id awaits).mpr hid).symm.trans ((h.current other awaits').mpr hother)
  simp only [Option.some.injEq, Prod.mk.injEq] at heq
  exact heq.1

/-- The call that is shown goes on. -/
theorem Shows.proceed (h : Shows s v) {id : CallId} {awaits : Awaiting}
    (hid : s.calls id = some ⟨s.hydrateGeneration, awaits⟩) (panel : Panel) (next : Next) :
    Shows (s.proceed id panel next) (Focus.proceed id panel next) := by
  have hothers : ∀ other awaits', other ≠ id →
      s.calls other ≠ some ⟨s.hydrateGeneration, awaits'⟩ := by
    intro other awaits' hne hother
    exact hne (h.unique hother hid)
  cases next with
  | done =>
    refine ⟨rfl, ?_, ?_⟩
    · intro other awaits'
      simp only [Focus.proceed, Store.proceed, Function.update_apply, reduceCtorEq, false_iff]
      split
      · exact Option.some_ne_none _ |>.symm
      · next hne => exact hothers other awaits' hne
    · intro other call hcall
      simp only [Store.proceed, Function.update_apply] at hcall ⊢
      split at hcall
      · cases hcall
      · exact h.past other call hcall
  | wait awaits' =>
    refine ⟨rfl, ?_, ?_⟩
    · intro other awaits''
      simp only [Focus.proceed, Store.proceed, Function.update_apply, Option.some.injEq,
        Prod.mk.injEq]
      by_cases heq : other = id
      · subst heq
        simp
      · rw [if_neg heq]
        constructor
        · rintro ⟨rfl, -⟩
          exact absurd rfl heq
        · intro hcall
          exact absurd hcall (hothers other awaits'' heq)
    · intro other call hcall
      simp only [Store.proceed, Function.update_apply] at hcall ⊢
      split at hcall
      · cases hcall
        exact Nat.le_refl _
      · exact h.past other call hcall
  | hydrate =>
    have hsame : Shows { s with panel := panel } { v with panel := panel } :=
      ⟨rfl, h.current, h.past⟩
    exact hsame.enter id .hydrating resetOverviewState

/-- A call of a past generation ends. -/
theorem Shows.drop (h : Shows s v) {id : CallId} {call : Call} (hid : s.calls id = some call)
    (hgen : call.gen ≠ s.hydrateGeneration) :
    Shows { s with calls := Function.update s.calls id none } v := by
  refine ⟨h.panel, ?_, ?_⟩
  · intro other awaits
    rw [h.current]
    simp only [Function.update_apply]
    by_cases heq : other = id
    · subst heq
      rw [if_pos rfl, hid]
      constructor
      · intro hcall
        exact absurd (congrArg Call.gen (Option.some.inj hcall)) hgen
      · intro hcall
        cases hcall
    · rw [if_neg heq]
  · intro other call' hcall
    simp only [Function.update_apply] at hcall
    split at hcall
    · cases hcall
    · exact h.past other call' hcall

theorem Focus.resume_other {id : CallId} (h : ∀ awaits, v.current ≠ some (id, awaits)) (r : Reply) :
    v.resume id r = v := by
  unfold Focus.resume
  split
  · rfl
  · next current awaits hcurrent =>
    rw [if_neg]
    rintro rfl
    exact h awaits hcurrent

theorem Shows.resume (h : Shows s v) (id : CallId) (r : Reply) :
    Shows (s.resume id r) (v.resume id r) := by
  unfold Store.resume
  cases hid : s.calls id with
  | none =>
    rw [Focus.resume_other]
    · exact h
    · intro awaits hcurrent
      rw [h.current, hid] at hcurrent
      cases hcurrent
  | some call =>
    obtain ⟨gen, awaits⟩ := call
    simp only
    by_cases hgen : gen = s.hydrateGeneration
    · subst hgen
      simp only [Focus.resume, (h.current id awaits).mpr hid, if_true, h.panel]
      cases hsettle : awaits.settle r v.panel with
      | none => exact h
      | some settled =>
        have hready : Shows { s with modelReady := r.modelReady s.modelReady } v :=
          ⟨h.panel, h.current, h.past⟩
        simp only [ne_eq, not_true_eq_false, if_false]
        exact hready.proceed hid settled.1 settled.2
    · rw [Focus.resume_other]
      · cases hsettle : awaits.settle r s.panel with
        | none => exact h
        | some settled =>
          simp only
          rw [if_pos hgen]
          exact h.drop hid hgen
      · intro awaits' hcurrent
        rw [h.current, hid] at hcurrent
        exact hgen (congrArg Call.gen (Option.some.inj hcurrent))

/-- The panel shows the call that has entered last, whatever else is under way. -/
theorem Shows.step (h : Shows s v) (e : Event) : Shows (step s e) (v.step e) := by
  cases e with
  | activate id =>
    cases id with
    | none => exact h.leave
    | some id =>
      have hsame : Shows { s with activeNotebookId := some id.notebook } v :=
        ⟨h.panel, h.current, h.past⟩
      exact hsame.enter id .hydrating resetOverviewState
  | hydrate id => exact h.enter id .hydrating resetOverviewState
  | generate id =>
    have hentered := h.enter id .synthesizing s.panel.generating
    rw [h.panel] at hentered
    simpa only [AudioOverview.step, Store.generateOverview, Focus.step, h.panel] using hentered
  | cancel notebook => exact h
  | reply id r => exact h.resume id r
  | chunk id data => exact ⟨congrArg (applyPhaseEvent · data) h.panel, h.current, h.past⟩

theorem Shows.run (h : Shows s v) (events : List Event) :
    Shows (after AudioOverview.step s events) (after Focus.step v events) := by
  induction events generalizing s v with
  | nil => exact h
  | cons e events ih => exact ih (h.step e)

/-- From the switch on the store shows what the panel is for, whatever was before. -/
theorem shows_after_switch (before : List Event) (id : CallId) (later : List Event) :
    Shows (after step start (before ++ .activate (some id) :: later))
      (after Focus.step ⟨resetOverviewState, some (id, .hydrating)⟩ later) := by
  have hbefore := shows_start.run before
  rw [after_append]
  exact (hbefore.step (.activate (some id))).run later

end Focus

section Own

/-- The notebook an event is about. -/
def Event.notebook : Event → Option String
  | .activate id => id.map CallId.notebook
  | .hydrate id | .generate id | .reply id _ | .chunk id _ => some id.notebook
  | .cancel notebook => some notebook

def Event.isSwitch : Event → Bool
  | .activate _ => true
  | _ => false

/-- The calls, events and replies of a notebook. -/
def ownEvents (notebook : String) (events : List Event) : List Event :=
  events.filter fun e => e.notebook = some notebook

/-- Since the last switch to a notebook the panel shows what its own events have made of it. -/
def ShowsActive (events : List Event) : Prop :=
  ∀ before id later, events = before ++ .activate (some id) :: later →
    (∀ e ∈ later, e.isSwitch = false) →
      (after step start events).panel =
        (after step start (.activate (some id) :: ownEvents id.notebook later)).panel

/-- The store is called for the notebook that is active, and a progress event is of one of its
runs. -/
def Addressed (s : Store) : Event → Prop
  | .hydrate id | .generate id | .chunk id _ => ∀ notebook, s.activeNotebookId = some notebook →
      id.notebook = notebook
  | _ => True

variable {notebook : String} {v : Focus}

/-- The call that is shown is of a notebook. -/
def Focus.Of (v : Focus) (notebook : String) : Prop :=
  ∀ id awaits, v.current = some (id, awaits) → id.notebook = notebook

/-- What an addressed event is while a notebook is active. -/
def AddressedTo (notebook : String) : Event → Prop
  | .hydrate id | .generate id | .chunk id _ => id.notebook = notebook
  | _ => True

theorem Focus.Of.proceed {id : CallId} (h : id.notebook = notebook) (panel : Panel) (next : Next) :
    (Focus.proceed id panel next).Of notebook := by
  intro other awaits hcurrent
  cases next with
  | done => cases hcurrent
  | wait awaits' =>
    cases hcurrent
    exact h
  | hydrate =>
    cases hcurrent
    exact h

theorem Focus.Of.step (h : v.Of notebook) {e : Event} (hswitch : e.isSwitch = false)
    (he : AddressedTo notebook e) : (v.step e).Of notebook := by
  cases e with
  | activate id => cases hswitch
  | hydrate id =>
    intro other awaits hcurrent
    cases hcurrent
    exact he
  | generate id =>
    intro other awaits hcurrent
    cases hcurrent
    exact he
  | cancel _ => exact h
  | chunk id data => exact h
  | reply id r =>
    simp only [Focus.step, Focus.resume]
    split
    · exact h
    · next current awaits hcurrent =>
      split
      · next heq =>
        subst heq
        split
        · exact h
        · exact Focus.Of.proceed (h _ _ hcurrent) _ _
      · exact h

/-- An event of another notebook changes nothing. -/
theorem Focus.Of.foreign (h : v.Of notebook) {e : Event} (hswitch : e.isSwitch = false)
    (he : AddressedTo notebook e) (hforeign : e.notebook ≠ some notebook) : v.step e = v := by
  cases e with
  | activate id => cases hswitch
  | hydrate id => exact absurd (congrArg some he) hforeign
  | generate id => exact absurd (congrArg some he) hforeign
  | cancel _ => rfl
  | chunk id data => exact absurd (congrArg some he) hforeign
  | reply id r =>
    apply Focus.resume_other
    intro awaits hcurrent
    exact hforeign (congrArg some (h id awaits hcurrent))

theorem Focus.Of.run (h : v.Of notebook) {later : List Event}
    (hswitch : ∀ e ∈ later, e.isSwitch = false) (haddr : ∀ e ∈ later, AddressedTo notebook e) :
    after Focus.step v later = after Focus.step v (ownEvents notebook later) := by
  induction later generalizing v with
  | nil => rfl
  | cons e later ih =>
    have hlater := ih (h.step (hswitch e (by simp)) (haddr e (by simp)))
      (fun e' he' => hswitch e' (List.mem_cons_of_mem _ he'))
      (fun e' he' => haddr e' (List.mem_cons_of_mem _ he'))
    by_cases hown : e.notebook = some notebook
    · rw [ownEvents, List.filter_cons_of_pos (by simpa using hown)]
      exact hlater
    · rw [ownEvents, List.filter_cons_of_neg (by simpa using hown)]
      rw [h.foreign (hswitch e (by simp)) (haddr e (by simp)) hown] at hlater
      show after Focus.step (v.step e) later = _
      rw [h.foreign (hswitch e (by simp)) (haddr e (by simp)) hown]
      exact hlater

theorem active_resume (s : Store) (id : CallId) (r : Reply) :
    (s.resume id r).activeNotebookId = s.activeNotebookId := by
  unfold Store.resume
  split
  · rfl
  · split
    · rfl
    · split
      · rfl
      · next panel next _ _ => cases next <;> rfl

theorem active_step (s : Store) {e : Event} (hswitch : e.isSwitch = false) :
    (step s e).activeNotebookId = s.activeNotebookId := by
  cases e with
  | activate id => cases hswitch
  | hydrate id => rfl
  | generate id => rfl
  | cancel _ => rfl
  | chunk id data => rfl
  | reply id r => exact active_resume s id r

theorem addressed_later {s : Store} {later : List Event} (hactive : s.activeNotebookId = some notebook)
    (hswitch : ∀ e ∈ later, e.isSwitch = false) (h : Along step Addressed s later) :
    ∀ e ∈ later, AddressedTo notebook e := by
  induction later generalizing s with
  | nil => simp
  | cons e later ih =>
    have hthis : AddressedTo notebook e := by
      cases e with
      | hydrate id => exact h.1 notebook hactive
      | generate id => exact h.1 notebook hactive
      | chunk id data => exact h.1 notebook hactive
      | activate id => trivial
      | cancel _ => trivial
      | reply id r => trivial
    have hactive' : (step s e).activeNotebookId = some notebook := by
      rw [active_step s (hswitch e (by simp)), hactive]
    have hrest := ih hactive' (fun e' he' => hswitch e' (List.mem_cons_of_mem _ he')) h.2
    intro e' he'
    cases List.mem_cons.mp he' with
    | inl heq => exact heq ▸ hthis
    | inr hmem => exact hrest e' hmem

/-- In a run whose calls and progress events are of the active notebook the panel shows nothing
else. -/
theorem panel_shows_active {events : List Event} (h : Along step Addressed start events) :
    ShowsActive events := by
  rintro before id later rfl hswitch
  have haddr := @addressed_later id.notebook _ later rfl hswitch h.rest.2
  have hof : Focus.Of ⟨resetOverviewState, some (id, .hydrating)⟩ id.notebook := by
    intro other awaits hcurrent
    cases hcurrent
    rfl
  rw [(shows_after_switch before id later).panel, hof.run hswitch haddr]
  exact (shows_after_switch [] id (ownEvents id.notebook later)).panel.symm

theorem panel_shows_active_hydrated : ShowsActive [.activate (some ⟨"a", 0⟩), .generate ⟨"a", 1⟩,
    .chunk ⟨"a", 1⟩ .stitching, .activate (some ⟨"b", 2⟩), .reply ⟨"a", 1⟩ (.path (.ok "a.wav") "t")] :=
  panel_shows_active (by simp [Along, Addressed, step, Store.generateOverview, Store.hydrateOverview,
    Store.enter])

/-- A run of a notebook goes on after the switch to another one, and its progress is shown there. -/
def switchedWhileRunning : List Event :=
  [.activate (some ⟨"a", 0⟩), .generate ⟨"a", 1⟩, .activate (some ⟨"b", 2⟩),
    .chunk ⟨"a", 1⟩ (.synthesizing 1 8)]

theorem switchedWhileRunning_shown : ¬ ShowsActive switchedWhileRunning := by
  intro h
  have hpanel := h [.activate (some ⟨"a", 0⟩), .generate ⟨"a", 1⟩] ⟨"b", 2⟩
    [.chunk ⟨"a", 1⟩ (.synthesizing 1 8)] rfl (by simp [Event.isSwitch])
  revert hpanel
  decide

end Own

end LensLM.AudioOverview
