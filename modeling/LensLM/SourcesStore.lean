import LensLM.Lib.EventRuns
import LensLM.Lib.Slots
import Mathlib.Data.List.Nodup
import Mathlib.Data.List.Perm.Basic

/-!
# The sources of the active notebook

The interface shows the sources of one notebook. Edits change its list at once and ask the engine
for the same; a listing replaces the whole list when its reply arrives.
-/

namespace LensLM.SourcesStore

open EventRuns

set_option autoImplicit false

inductive SourceStatus where
  | pending
  | queued
  | parsing
  | embedding
  | indexed
  | error
  | needsOcr
  | needsJs
  | renderFailed
deriving DecidableEq, Repr

structure Source where
  id : String
  notebookId : String
  selected : Bool
  status : SourceStatus
  trashed : Bool
  rawContentHash : Option String
deriving DecidableEq, Repr

structure TrashEntry where
  source : Source
  /-- The source before this one when it was removed. -/
  prevSiblingId : Option String
deriving DecidableEq, Repr

/-- What a call waits for. -/
inductive Call where
  | load (notebookId : String) (read : Option (List Source))
  /-- The request of the dialog; the engine returns a new source or says that it was there. -/
  | add (notebookId : String) (hash : Option String) (served : Option (Source × Bool))
  | select (sourceId : String) (selected served : Bool)
  | trash (source : Source) (prevSiblingId : Option String) (served : Bool)
  | restore (source : Source) (notebookId : Option String) (served : Bool)
  | retry (notebookId : String) (served : Bool)
  | settled
deriving DecidableEq, Repr

structure Store where
  activeNotebookId : Option String
  sources : List Source
  trashQueue : List TrashEntry
  /-- The rows of the database, newest first. -/
  rows : List Source
  calls : List Call
deriving DecidableEq, Repr

/-- What the engine draws at a moment: an id, and how the retried sources end. -/
structure Moment where
  id : String
  statuses : String → SourceStatus

namespace Store

def start (rows : List Source) : Store := ⟨none, [], [], rows, []⟩

def push (s : Store) (c : Call) : Store := { s with calls := s.calls ++ [c] }

def setCall (s : Store) (i : Nat) (c : Call) : Store := { s with calls := s.calls.set i c }

end Store

section Calls

def loadSources (s : Store) (notebookId : String) : Store := s.push (.load notebookId none)

/-- The effect that runs when the active notebook changes. -/
def activate (s : Store) (notebookId : Option String) : Store :=
  if s.activeNotebookId = notebookId then s
  else
    let s := { s with activeNotebookId := notebookId }
    match notebookId with
    | some id => loadSources s id
    | none => { s with sources := [] }

def addSourceLocal (s : Store) (source : Source) : Store :=
  if s.sources.any fun x => x.id = source.id then s else { s with sources := source :: s.sources }

def setSelected (sourceId : String) (selected : Bool) (sources : List Source) : List Source :=
  sources.map fun x => if x.id = sourceId then { x with selected := selected } else x

def toggleSelected (s : Store) (sourceId : String) : Store :=
  match s.sources.find? fun x => x.id = sourceId with
  | none => s
  | some current =>
    let newSelected := !current.selected
    { s with sources := setSelected sourceId newSelected s.sources }.push
      (.select sourceId newSelected false)

def toggleAllSelected (s : Store) : Store :=
  if s.sources.isEmpty then s
  else
    let target := !s.sources.all Source.selected
    let changedIds := (s.sources.filter fun x => x.selected ≠ target).map Source.id
    { s with
      sources := s.sources.map fun x => { x with selected := target }
      calls := s.calls ++ changedIds.map fun id => .select id target false }

def without (sourceId : String) (sources : List Source) : List Source :=
  sources.filter fun x => x.id ≠ sourceId

/-- The id of the source before the one with the id. -/
def prevSiblingId (sources : List Source) (sourceId : String) : Option String :=
  match sources.findIdx fun x => x.id = sourceId with
  | 0 => none
  | idx + 1 => sources[idx]?.map Source.id

def removeSource (s : Store) (sourceId : String) : Store :=
  match s.sources.find? fun x => x.id = sourceId with
  | none => s
  | some snapshot =>
    { s with sources := without sourceId s.sources }.push
      (.trash snapshot (prevSiblingId s.sources sourceId) false)

/-- Where a source comes back: behind the one that was before it, or else at the end. -/
def insertIndex (sources : List Source) : Option String → Nat
  | none => 0
  | some sibling => (sources.findIdx? fun x => x.id = sibling).elim sources.length (· + 1)

def undoRemove (s : Store) (notebookId : Option String) : Store :=
  match s.trashQueue.getLast? with
  | none => s
  | some entry =>
    let at_ := insertIndex s.sources entry.prevSiblingId
    { s with
      trashQueue := s.trashQueue.dropLast
      sources := s.sources.take at_ ++ entry.source :: s.sources.drop at_ }.push
        (.restore entry.source notebookId false)

/-- The failed sources get new statuses. -/
def setFailed (failed : Source → Bool) (status : String → SourceStatus) (sources : List Source) :
    List Source :=
  sources.map fun x =>
    if failed x && decide (x.status = .error) && !x.trashed then { x with status := status x.id }
    else x

def retryAllFailed (s : Store) (notebookId : String) : Store :=
  { s with sources := setFailed (fun _ => true) (fun _ => .parsing) s.sources }.push
    (.retry notebookId false)

end Calls

section Engine

/-- `list_sources`. -/
def listSources (rows : List Source) (notebookId : String) : List Source :=
  rows.filter fun r => r.notebookId = notebookId ∧ !r.trashed

/-- A live source of the notebook with the content. -/
def liveDuplicate (rows : List Source) (notebookId : String) (hash : Option String) :
    Option Source :=
  rows.find? fun r => r.notebookId = notebookId ∧ hash.isSome ∧ r.rawContentHash = hash ∧ !r.trashed

def setTrashed (sourceId : String) (trashed : Bool) (rows : List Source) : List Source :=
  rows.map fun r => if r.id = sourceId then { r with trashed := trashed } else r

/-- The engine carries out a request. -/
def serve (s : Store) (i : Nat) (m : Moment) : Store :=
  match s.calls[i]? with
  | some (.load notebookId none) =>
    s.setCall i (.load notebookId (some (listSources s.rows notebookId)))
  | some (.add notebookId hash none) =>
    match liveDuplicate s.rows notebookId hash with
    | some row => s.setCall i (.add notebookId hash (some (row, true)))
    | none =>
      if s.rows.any fun r => r.id = m.id then s
      else
        let row : Source := ⟨m.id, notebookId, true, .queued, false, hash⟩
        { s with rows := row :: s.rows }.setCall i (.add notebookId hash (some (row, false)))
  | some (.select sourceId selected false) =>
    if s.rows.any fun r => r.id = sourceId then
      { s with rows := setSelected sourceId selected s.rows }.setCall i
        (.select sourceId selected true)
    else s
  | some (.trash source prevSiblingId false) =>
    if s.rows.any fun r => r.id = source.id ∧ !r.trashed then
      { s with rows := setTrashed source.id true s.rows }.setCall i (.trash source prevSiblingId true)
    else s
  | some (.restore source notebookId false) =>
    match s.rows.find? fun r => r.id = source.id ∧ r.trashed with
    | some row =>
      if (liveDuplicate (without row.id s.rows) row.notebookId row.rawContentHash).isSome then s
      else
        { s with rows := setTrashed source.id false s.rows }.setCall i
          (.restore source notebookId true)
    | none => s
  | some (.retry notebookId false) =>
    { s with rows := setFailed (fun r => r.notebookId = notebookId) m.statuses s.rows }.setCall i
      (.retry notebookId true)
  | _ => s

/-- The reply of a request arrives. -/
def reply (s : Store) (i : Nat) : Store :=
  match s.calls[i]? with
  | some (.load _ (some listed)) => { s with sources := listed }.setCall i .settled
  | some (.add _ _ (some (row, wasExisting))) =>
    let s := s.setCall i .settled
    if wasExisting then s else addSourceLocal s row
  | some (.select _ _ true) => s.setCall i .settled
  | some (.trash source prevSiblingId true) =>
    { s with trashQueue := s.trashQueue ++ [TrashEntry.mk source prevSiblingId] }.setCall i .settled
  | some (.restore _ notebookId true) =>
    let s := s.setCall i .settled
    match notebookId with
    | some id => loadSources s id
    | none => s
  | some (.retry notebookId true) => loadSources (s.setCall i .settled) notebookId
  | _ => s

end Engine

inductive Event where
  | activate (notebookId : Option String)
  | loadSources (notebookId : String)
  | addSource (notebookId : String) (hash : Option String)
  | toggleSelected (sourceId : String)
  | toggleAllSelected
  | removeSource (sourceId : String)
  | undoRemove (notebookId : Option String)
  | retryAllFailed (notebookId : String)
  /-- The time to undo a removal is over. -/
  | expire (sourceId : String)
  | serve (i : Nat) (m : Moment)
  | reply (i : Nat)

def step (s : Store) : Event → Store
  | .activate notebookId => activate s notebookId
  | .loadSources notebookId => loadSources s notebookId
  | .addSource notebookId hash => s.push (.add notebookId hash none)
  | .toggleSelected sourceId => toggleSelected s sourceId
  | .toggleAllSelected => toggleAllSelected s
  | .removeSource sourceId => removeSource s sourceId
  | .undoRemove notebookId => undoRemove s notebookId
  | .retryAllFailed notebookId => retryAllFailed s notebookId
  | .expire sourceId => { s with trashQueue := s.trashQueue.filter fun e => e.source.id ≠ sourceId }
  | .serve i m => serve s i m
  | .reply i => reply s i

section Properties

def Settled (s : Store) : Prop := ∀ c ∈ s.calls, c = .settled

instance (s : Store) : Decidable (Settled s) :=
  inferInstanceAs (Decidable (∀ c ∈ s.calls, c = .settled))

/-- The ids and flags of a list. -/
def flags (sources : List Source) : List (String × Bool) := sources.map fun x => (x.id, x.selected)

/-- The live sources of the active notebook. -/
def Store.live (s : Store) : List Source :=
  s.rows.filter fun r => some r.notebookId = s.activeNotebookId ∧ !r.trashed

/-- The list holds the live sources of the active notebook, each once and with its flag. -/
def Converged (s : Store) : Prop := (flags s.sources).Perm (flags s.live)

instance (s : Store) : Decidable (Converged s) :=
  inferInstanceAs (Decidable ((flags s.sources).Perm (flags s.live)))

/-- The flag that an unserved request asks for. -/
def selectAsked (sourceId : String) : Call → Option Bool
  | .select id selected false => if id = sourceId then some selected else none
  | _ => none

/-- Whether an unserved request trashes the source or restores it. -/
def trashAsked (sourceId : String) : Call → Option Bool
  | .trash source _ false => if source.id = sourceId then some true else none
  | .restore source _ false => if source.id = sourceId then some false else none
  | _ => none

/-- The flag of a row, and whether it is trashed, once all requests are served in turn. -/
def Store.willBeSelected (s : Store) (r : Source) : Bool :=
  (Slots.lastAsked (selectAsked r.id) s.calls).getD r.selected

def Store.willBeTrashed (s : Store) (r : Source) : Bool :=
  (Slots.lastAsked (trashAsked r.id) s.calls).getD r.trashed

/-- The active notebook will have the live source, with the flag. -/
def Expects (s : Store) (p : String × Bool) : Prop :=
  ∃ r ∈ s.rows, r.id = p.1 ∧ some r.notebookId = s.activeNotebookId ∧
    s.willBeTrashed r = false ∧ s.willBeSelected r = p.2

/-- The engine has a new source, and the reply is to come. -/
def Arriving (s : Store) (sourceId : String) : Prop :=
  ∃ notebookId hash row, Call.add notebookId hash (some (row, false)) ∈ s.calls ∧ row.id = sourceId

/-- A list of what is expected, but for new sources on their way. -/
structure UpToDate (s : Store) (sources : List Source) : Prop where
  nodup : (sources.map Source.id).Nodup
  sound : ∀ p ∈ flags sources, Expects s p
  complete : ∀ p, Expects s p → ¬ Arriving s p.1 → p ∈ flags sources

/-- The listing that the reply of the call brings, or makes the store ask for. -/
def Call.reloads : Call → Option String
  | .load notebookId _ => some notebookId
  | .restore _ notebookId _ => notebookId
  | .retry notebookId _ => some notebookId
  | .add .. | .select .. | .trash .. | .settled => none

/-- A listing of the active notebook is still to come. -/
def Covered (s : Store) : Prop :=
  ∃ c ∈ s.calls, ∃ id, c.reloads = some id ∧ s.activeNotebookId = some id

/-- The same, from another call. -/
def CoveredBut (s : Store) (i : Nat) : Prop :=
  ∃ j c, j ≠ i ∧ s.calls[j]? = some c ∧ ∃ id, c.reloads = some id ∧ s.activeNotebookId = some id

/-- The last listing to come brings an up to date list; with no listing to come, a new source is
still wanted when it arrives, an undone removal brings back what the engine has and the list lacks,
and requests for one source are served in turn. -/
def Orderly (s : Store) : Event → Prop
  | .reply i =>
    (∀ notebookId listed, s.calls[i]? = some (.load notebookId (some listed)) →
      CoveredBut s i ∨ UpToDate s listed) ∧
    ∀ notebookId hash row, s.calls[i]? = some (.add notebookId hash (some (row, false))) →
      Covered s ∨ (∃ x ∈ s.sources, x.id = row.id) ∨ Expects s (row.id, row.selected)
  | .undoRemove notebookId => Covered s ∨ (notebookId.isSome ∧ notebookId = s.activeNotebookId) ∨
    ∀ entry, s.trashQueue.getLast? = some entry → (∀ x ∈ s.sources, x.id ≠ entry.source.id) ∧
      ∃ r ∈ s.rows, r.id = entry.source.id ∧ some r.notebookId = s.activeNotebookId ∧
        s.willBeSelected r = entry.source.selected
  | .serve i _ => Covered s ∨ ∀ c, s.calls[i]? = some c → ∀ j d, j < i → s.calls[j]? = some d →
    ∀ id, ((selectAsked id c).isSome → selectAsked id d = none) ∧
      ((trashAsked id c).isSome → trashAsked id d = none)
  | _ => True

end Properties

section Expectations

variable {s t : Store} {sources : List Source}

structure Kept (s : Store) : Prop where
  rowIds : (s.rows.map Source.id).Nodup
  shown : Covered s ∨ UpToDate s s.sources

theorem kept_start {rows : List Source} (h : (rows.map Source.id).Nodup) :
    Kept (Store.start rows) := by
  refine ⟨h, .inr ⟨List.nodup_nil, nofun, ?_⟩⟩
  rintro p ⟨r, _, _, hactive, _⟩
  cases hactive

theorem mem_flags {p : String × Bool} :
    p ∈ flags sources ↔ ∃ x ∈ sources, x.id = p.1 ∧ x.selected = p.2 := by
  simp only [flags, List.mem_map, Prod.ext_iff]

theorem flags_fst (sources : List Source) :
    (flags sources).map Prod.fst = sources.map Source.id := by
  unfold flags
  rw [List.map_map]
  rfl

/-- The expectations speak of each source once. -/
theorem Expects.unique (h : (s.rows.map Source.id).Nodup) {id : String} {f g : Bool}
    (hf : Expects s (id, f)) (hg : Expects s (id, g)) : f = g := by
  obtain ⟨r, hr, hrid, _, _, rfl⟩ := hf
  obtain ⟨q, hq, hqid, _, _, rfl⟩ := hg
  rw [List.inj_on_of_nodup_map h hr hq (hrid.trans hqid.symm)]

theorem UpToDate.congr (h : UpToDate s sources) (he : ∀ p, Expects t p ↔ Expects s p)
    (ha : ∀ id, Arriving s id → Arriving t id) : UpToDate t sources :=
  ⟨h.nodup, fun p hp => (he p).mpr (h.sound p hp),
    fun p hp hn => h.complete p ((he p).mp hp) (mt (ha p.1) hn)⟩

/-- Only the ids and the flags of a list matter. -/
theorem UpToDate.flags {sources' : List Source} (h : UpToDate s sources)
    (hflags : SourcesStore.flags sources' = SourcesStore.flags sources) : UpToDate s sources' := by
  constructor
  · rw [← flags_fst, hflags, flags_fst]
    exact h.nodup
  · rw [hflags]
    exact h.sound
  · rw [hflags]
    exact h.complete

/-- The rows change, but not what is expected of each. -/
theorem expects_map {g : Source → Source} (hrows : t.rows = s.rows.map g)
    (hid : ∀ r ∈ s.rows, (g r).id = r.id) (hnotebook : ∀ r ∈ s.rows, (g r).notebookId = r.notebookId)
    (hactive : t.activeNotebookId = s.activeNotebookId)
    (htrashed : ∀ r ∈ s.rows, t.willBeTrashed (g r) = s.willBeTrashed r)
    (hselected : ∀ r ∈ s.rows, t.willBeSelected (g r) = s.willBeSelected r) (p : String × Bool) :
    Expects t p ↔ Expects s p := by
  unfold Expects
  rw [hrows, hactive]
  constructor
  · rintro ⟨r', hr', hp⟩
    obtain ⟨r, hr, rfl⟩ := List.mem_map.mp hr'
    rw [hid r hr, hnotebook r hr, htrashed r hr, hselected r hr] at hp
    exact ⟨r, hr, hp⟩
  · rintro ⟨r, hr, hp⟩
    refine ⟨g r, List.mem_map_of_mem hr, ?_⟩
    rw [hid r hr, hnotebook r hr, htrashed r hr, hselected r hr]
    exact hp

/-- The requests ask for the same. -/
theorem expects_same (hrows : t.rows = s.rows) (hactive : t.activeNotebookId = s.activeNotebookId)
    (htrash : ∀ id, Slots.lastAsked (trashAsked id) t.calls = Slots.lastAsked (trashAsked id) s.calls)
    (hselect : ∀ id,
      Slots.lastAsked (selectAsked id) t.calls = Slots.lastAsked (selectAsked id) s.calls)
    (p : String × Bool) : Expects t p ↔ Expects s p := by
  apply expects_map (g := id) (by rw [hrows, List.map_id]) (fun _ _ => rfl) (fun _ _ => rfl) hactive
  · intro r _
    unfold Store.willBeTrashed
    rw [id, htrash]
  · intro r _
    unfold Store.willBeSelected
    rw [id, hselect]

/-- A call that asks for nothing of any source. -/
def Call.Idle (c : Call) : Prop := ∀ id, selectAsked id c = none ∧ trashAsked id c = none

theorem lastAsked_push_idle {β : Type} {f : Call → Option β} {calls : List Call} {c : Call}
    (hc : f c = none) : Slots.lastAsked f (calls ++ [c]) = Slots.lastAsked f calls := by
  rw [Slots.lastAsked_push, hc, Option.none_or]

theorem arriving_push {c : Call} {id : String} (h : Arriving s id) : Arriving (s.push c) id := by
  obtain ⟨notebookId, hash, row, hmem, hid⟩ := h
  exact ⟨notebookId, hash, row, List.mem_append_left _ hmem, hid⟩

theorem Covered.push (h : Covered s) (c : Call) : Covered (s.push c) := by
  obtain ⟨d, hd, hid⟩ := h
  exact ⟨d, List.mem_append_left _ hd, hid⟩

theorem UpToDate.push (h : UpToDate s sources) {c : Call} (hc : c.Idle) :
    UpToDate (s.push c) sources := by
  refine h.congr (expects_same rfl rfl ?_ ?_) fun _ ha => arriving_push ha
  · exact fun id => lastAsked_push_idle (hc id).2
  · exact fun id => lastAsked_push_idle (hc id).1

theorem Kept.push (h : Kept s) {c : Call} (hc : c.Idle) : Kept (s.push c) := by
  refine ⟨h.rowIds, ?_⟩
  cases h.shown with
  | inl hcovered => exact .inl (hcovered.push c)
  | inr hshown => exact .inr (hshown.push hc)

theorem Kept.settled (h : Kept s) (hs : Settled s) : Converged s := by
  have hnone : ∀ c ∈ s.calls, ∀ id, selectAsked id c = none ∧ trashAsked id c = none := by
    intro c hc id
    rw [hs c hc]
    exact ⟨rfl, rfl⟩
  have hshown : UpToDate s s.sources := by
    apply h.shown.resolve_left
    rintro ⟨c, hc, id, hreloads, _⟩
    rw [hs c hc] at hreloads
    cases hreloads
  -- with nothing asked for the expectations are the live sources
  have hexpects : ∀ p, Expects s p ↔ p ∈ flags s.live := by
    intro p
    simp only [mem_flags, Store.live, List.mem_filter, decide_eq_true_eq, Bool.not_eq_true']
    constructor
    · rintro ⟨r, hr, hid, hactive, htrashed, hselected⟩
      unfold Store.willBeTrashed at htrashed
      unfold Store.willBeSelected at hselected
      rw [Slots.lastAsked_eq_none.mpr fun c hc => (hnone c hc r.id).2] at htrashed
      rw [Slots.lastAsked_eq_none.mpr fun c hc => (hnone c hc r.id).1] at hselected
      exact ⟨r, ⟨hr, hactive, htrashed⟩, hid, hselected⟩
    · rintro ⟨r, ⟨hr, hactive, htrashed⟩, hid, hselected⟩
      refine ⟨r, hr, hid, hactive, ?_, ?_⟩
      · unfold Store.willBeTrashed
        rw [Slots.lastAsked_eq_none.mpr fun c hc => (hnone c hc r.id).2]
        exact htrashed
      · unfold Store.willBeSelected
        rw [Slots.lastAsked_eq_none.mpr fun c hc => (hnone c hc r.id).1]
        exact hselected
  have harriving : ∀ id, ¬ Arriving s id := by
    rintro id ⟨notebookId, hash, row, hmem, _⟩
    cases hs _ hmem
  have hlive : ((flags s.live).map Prod.fst).Nodup := by
    rw [flags_fst]
    exact h.rowIds.sublist (List.filter_sublist.map _)
  have hsources : ((flags s.sources).map Prod.fst).Nodup := by
    rw [flags_fst]
    exact hshown.nodup
  apply (List.perm_ext_iff_of_nodup hsources.of_map hlive.of_map).mpr
  intro p
  constructor
  · exact fun hp => (hexpects p).mp (hshown.sound p hp)
  · exact fun hp => hshown.complete p ((hexpects p).mpr hp) (harriving p.1)

end Expectations

section Calls

variable {s t : Store} {sources : List Source} {i : Nat} {c x : Call}

theorem arriving_setCall (hi : s.calls[i]? = some c)
    (hc : ∀ notebookId hash row, c ≠ .add notebookId hash (some (row, false))) {id : String}
    (h : Arriving s id) : Arriving (s.setCall i x) id := by
  obtain ⟨notebookId, hash, row, hmem, hid⟩ := h
  refine ⟨notebookId, hash, row, ?_, hid⟩
  obtain ⟨j, hj⟩ := List.mem_iff_getElem?.mp hmem
  apply (Slots.mem_set_iff hi).mpr
  refine .inr ⟨j, ?_, hj⟩
  rintro rfl
  exact hc notebookId hash row (Option.some.inj (hi.symm.trans hj))

/-- A call goes on that asks for the same of every source. -/
theorem UpToDate.setCall (h : UpToDate s sources) (hi : s.calls[i]? = some c)
    (hsame : ∀ id, selectAsked id x = selectAsked id c ∧ trashAsked id x = trashAsked id c)
    (hc : ∀ notebookId hash row, c ≠ .add notebookId hash (some (row, false))) :
    UpToDate (s.setCall i x) sources := by
  refine h.congr (expects_same rfl rfl ?_ ?_) fun id => arriving_setCall hi hc
  · intro id
    exact Slots.lastAsked_set_same hi (hsame id).2
  · intro id
    exact Slots.lastAsked_set_same hi (hsame id).1

theorem Covered.setCall (h : Covered s) (hi : s.calls[i]? = some c)
    (hreloads : x.reloads = c.reloads) : Covered (s.setCall i x) := by
  obtain ⟨d, hd, id, hid, hactive⟩ := h
  obtain ⟨j, hj⟩ := List.mem_iff_getElem?.mp hd
  by_cases hji : j = i
  · subst hji
    obtain rfl : c = d := Option.some.inj (hi.symm.trans hj)
    exact ⟨x, (Slots.mem_set_iff hi).mpr (.inl rfl), id, hreloads.trans hid, hactive⟩
  · exact ⟨d, (Slots.mem_set_iff hi).mpr (.inr ⟨j, hji, hj⟩), id, hid, hactive⟩

theorem Kept.setCall (h : Kept s) (hi : s.calls[i]? = some c)
    (hsame : ∀ id, selectAsked id x = selectAsked id c ∧ trashAsked id x = trashAsked id c)
    (hc : ∀ notebookId hash row, c ≠ .add notebookId hash (some (row, false)))
    (hreloads : x.reloads = c.reloads) : Kept (s.setCall i x) := by
  refine ⟨h.rowIds, ?_⟩
  cases h.shown with
  | inl hcovered => exact .inl (hcovered.setCall hi hreloads)
  | inr hshown => exact .inr (hshown.setCall hi hsame hc)

/-- A list of requests for some sources, put behind the others. -/
theorem lastAsked_selects (ids : List String) (target : Bool) (calls : List Call) (id : String) :
    Slots.lastAsked (selectAsked id) (calls ++ ids.map fun id => .select id target false) =
      if id ∈ ids then some target else Slots.lastAsked (selectAsked id) calls := by
  induction ids generalizing calls with
  | nil => simp
  | cons other ids ih =>
    rw [List.map_cons, List.append_cons, ih, Slots.lastAsked_push]
    by_cases hin : id ∈ ids
    · simp [hin]
    · by_cases heq : other = id
      · simp [selectAsked, heq]
      · simp [selectAsked, heq, hin, Ne.symm heq]

theorem mem_setFlags {ids : List String} {target : Bool} {p : String × Bool} :
    p ∈ flags (sources.map fun x => if x.id ∈ ids then { x with selected := target } else x) ↔
      ∃ f, (p.1, f) ∈ flags sources ∧ p.2 = if p.1 ∈ ids then target else f := by
  simp only [mem_flags, List.mem_map]
  constructor
  · rintro ⟨_, ⟨y, hy, rfl⟩, hid, hselected⟩
    by_cases hin : y.id ∈ ids
    · simp only [if_pos hin] at hid hselected
      refine ⟨y.selected, ⟨y, hy, hid, rfl⟩, ?_⟩
      rw [← hid, if_pos hin, hselected]
    · simp only [if_neg hin] at hid hselected
      refine ⟨y.selected, ⟨y, hy, hid, rfl⟩, ?_⟩
      rw [← hid, if_neg hin, hselected]
  · rintro ⟨f, ⟨y, hy, hid, hf⟩, hp⟩
    refine ⟨_, ⟨y, hy, rfl⟩, ?_⟩
    by_cases hin : y.id ∈ ids
    · rw [if_pos hin]
      refine ⟨hid, ?_⟩
      rw [hp, ← hid, if_pos hin]
    · rw [if_neg hin]
      refine ⟨hid, ?_⟩
      rw [hp, ← hid, if_neg hin, hf]

/-- The flags of some sources are set in the list and asked for of the engine. -/
theorem Kept.select (h : Kept s) (ids : List String) (target : Bool) :
    Kept { s with
      sources := s.sources.map fun x => if x.id ∈ ids then { x with selected := target } else x
      calls := s.calls ++ ids.map fun id => .select id target false } := by
  refine ⟨h.rowIds, ?_⟩
  cases h.shown with
  | inl hcovered =>
    obtain ⟨d, hd, hid⟩ := hcovered
    exact .inl ⟨d, List.mem_append_left _ hd, hid⟩
  | inr hshown =>
    right
    have htrash : ∀ id, Slots.lastAsked (trashAsked id)
        (s.calls ++ ids.map fun id => Call.select id target false) =
          Slots.lastAsked (trashAsked id) s.calls := by
      intro id
      have hnone : Slots.lastAsked (trashAsked id) (ids.map fun id => Call.select id target false) =
          none := by
        apply Slots.lastAsked_eq_none.mpr
        intro d hd
        obtain ⟨_, _, rfl⟩ := List.mem_map.mp hd
        rfl
      rw [Slots.lastAsked_append, hnone, Option.none_or]
    have hexpects : ∀ p, Expects { s with
        sources := s.sources.map fun x => if x.id ∈ ids then { x with selected := target } else x
        calls := s.calls ++ ids.map fun id => .select id target false } p ↔
          ∃ f, Expects s (p.1, f) ∧ p.2 = if p.1 ∈ ids then target else f := by
      intro p
      unfold Expects Store.willBeTrashed Store.willBeSelected
      simp only [htrash, lastAsked_selects]
      constructor
      · rintro ⟨r, hr, hid, hactive, htrashed, hselected⟩
        refine ⟨_, ⟨r, hr, hid, hactive, htrashed, rfl⟩, ?_⟩
        rw [← hselected, ← hid]
        split <;> rfl
      · rintro ⟨f, ⟨r, hr, hid, hactive, htrashed, rfl⟩, hp⟩
        refine ⟨r, hr, hid, hactive, htrashed, ?_⟩
        rw [hp, ← hid]
        split <;> rfl
    constructor
    · rw [List.map_map]
      have hids : Source.id ∘ (fun x : Source => if x.id ∈ ids then { x with selected := target }
          else x) = Source.id := by
        funext x
        simp only [Function.comp]
        split <;> rfl
      rw [hids]
      exact hshown.nodup
    · intro p hp
      obtain ⟨f, hf, hp⟩ := mem_setFlags.mp hp
      exact (hexpects p).mpr ⟨f, hshown.sound _ hf, hp⟩
    · intro p hp harriving
      obtain ⟨f, hf, hp⟩ := (hexpects p).mp hp
      refine mem_setFlags.mpr ⟨f, hshown.complete _ hf ?_, hp⟩
      intro hstill
      apply harriving
      obtain ⟨notebookId, hash, row, hmem, hid⟩ := hstill
      exact ⟨notebookId, hash, row, List.mem_append_left _ hmem, hid⟩

theorem Kept.toggleSelected (h : Kept s) (sourceId : String) :
    Kept (toggleSelected s sourceId) := by
  unfold SourcesStore.toggleSelected
  cases s.sources.find? fun x => x.id = sourceId with
  | none => exact h
  | some current => simpa [Store.push, setSelected] using h.select [sourceId] (!current.selected)

theorem Kept.toggleAllSelected (h : Kept s) : Kept (toggleAllSelected s) := by
  unfold SourcesStore.toggleAllSelected
  split
  · exact h
  · have hselect := h.select ((s.sources.filter fun x => x.selected ≠
        !s.sources.all Source.selected).map Source.id) (!s.sources.all Source.selected)
    have hsources : (s.sources.map fun x => if x.id ∈ (s.sources.filter fun x => x.selected ≠
          !s.sources.all Source.selected).map Source.id then
            { x with selected := !s.sources.all Source.selected } else x) =
        s.sources.map fun x => { x with selected := !s.sources.all Source.selected } := by
      apply List.map_congr_left
      intro x hx
      split
      · rfl
      · next hnot =>
        have hflag : x.selected = !s.sources.all Source.selected := by
          by_contra hne
          exact hnot (List.mem_map_of_mem (List.mem_filter.mpr ⟨hx, by simpa using hne⟩))
        rw [← hflag]
    rw [hsources] at hselect
    exact hselect

theorem Kept.activate (h : Kept s) (notebookId : Option String) : Kept (activate s notebookId) := by
  unfold SourcesStore.activate
  split
  · exact h
  · refine ⟨?_, ?_⟩
    · cases notebookId <;> exact h.rowIds
    · cases notebookId with
      | none =>
        refine .inr ⟨List.nodup_nil, nofun, ?_⟩
        rintro p ⟨r, _, _, hactive, _⟩
        cases hactive
      | some id => exact .inl ⟨.load id none, by simp [loadSources, Store.push], id, rfl, rfl⟩

theorem UpToDate.perm {sources' : List Source} (h : UpToDate s sources)
    (hperm : sources'.Perm sources) : UpToDate s sources' := by
  have hflags : ∀ p, p ∈ SourcesStore.flags sources' ↔ p ∈ SourcesStore.flags sources :=
    fun p => (hperm.map _).mem_iff
  refine ⟨(hperm.map _).nodup_iff.mpr h.nodup, ?_, ?_⟩
  · exact fun p hp => h.sound p ((hflags p).mp hp)
  · exact fun p hp hn => (hflags p).mpr (h.complete p hp hn)

/-- A source more is expected, and in front of the list. -/
theorem UpToDate.cons {source : Source} (h : UpToDate s sources)
    (hrows : (t.rows.map Source.id).Nodup) (hnew : ∀ x ∈ sources, x.id ≠ source.id)
    (he : Expects t (source.id, source.selected))
    (hothers : ∀ p, p.1 ≠ source.id → (Expects t p ↔ Expects s p))
    (harriving : ∀ id, id ≠ source.id → Arriving s id → Arriving t id) :
    UpToDate t (source :: sources) := by
  refine ⟨?_, ?_, ?_⟩
  · rw [List.map_cons, List.nodup_cons]
    refine ⟨?_, h.nodup⟩
    intro hmem
    obtain ⟨x, hx, hid⟩ := List.mem_map.mp hmem
    exact hnew x hx hid
  · intro p hp
    cases List.mem_cons.mp hp with
    | inl heq => exact heq ▸ he
    | inr hmem =>
      obtain ⟨x, hx, hid, _⟩ := mem_flags.mp hmem
      exact (hothers p (hid ▸ hnew x hx)).mpr (h.sound p hmem)
  · intro p hp hn
    by_cases hid : p.1 = source.id
    · have hflag : p.2 = source.selected := by
        have hown : Expects t (source.id, p.2) := by
          rw [← hid]
          exact hp
        exact Expects.unique hrows hown he
      exact List.mem_cons.mpr (.inl (Prod.ext hid hflag))
    · apply List.mem_cons_of_mem
      exact h.complete p ((hothers p hid).mp hp) fun ha => hn (harriving p.1 hid ha)

/-- The list changes, but not the flags in it. -/
theorem Kept.withSources (h : Kept s) (hflags : flags sources = flags s.sources) :
    Kept { s with sources := sources } := by
  refine ⟨h.rowIds, ?_⟩
  cases h.shown with
  | inl hcovered => exact .inl hcovered
  | inr hshown => exact .inr ((hshown.flags hflags).congr (fun _ => Iff.rfl) fun _ ha => ha)

theorem flags_setFailed (failed : Source → Bool) (status : String → SourceStatus)
    (sources : List Source) : flags (setFailed failed status sources) = flags sources := by
  unfold flags setFailed
  rw [List.map_map]
  apply List.map_congr_left
  intro x _
  simp only [Function.comp]
  split <;> rfl

theorem idle_load (notebookId : String) (read : Option (List Source)) :
    (Call.load notebookId read).Idle := fun _ => ⟨rfl, rfl⟩

theorem Kept.retryAllFailed (h : Kept s) (notebookId : String) :
    Kept (retryAllFailed s notebookId) :=
  (h.withSources (flags_setFailed _ _ _)).push fun _ => ⟨rfl, rfl⟩

theorem Kept.expire (h : Kept s) (queue : List TrashEntry) :
    Kept { s with trashQueue := queue } := by
  refine ⟨h.rowIds, ?_⟩
  cases h.shown with
  | inl hcovered => exact .inl hcovered
  | inr hshown => exact .inr (hshown.congr (fun _ => Iff.rfl) fun _ ha => ha)

theorem mem_flags_without {sourceId : String} {p : String × Bool} :
    p ∈ flags (without sourceId sources) ↔ p ∈ flags sources ∧ p.1 ≠ sourceId := by
  simp only [mem_flags, without, List.mem_filter, decide_eq_true_eq]
  constructor
  · rintro ⟨x, ⟨hx, hne⟩, hid, hflag⟩
    exact ⟨⟨x, hx, hid, hflag⟩, hid ▸ hne⟩
  · rintro ⟨⟨x, hx, hid, hflag⟩, hne⟩
    exact ⟨x, ⟨hx, by rwa [hid]⟩, hid, hflag⟩

/-- Only whether one source is trashed is asked for once more. -/
theorem expects_push_other (hrows : t.rows = s.rows)
    (hactive : t.activeNotebookId = s.activeNotebookId) (hcalls : t.calls = s.calls ++ [c])
    {sourceId : String} (hselect : ∀ id, selectAsked id c = none)
    (htrash : ∀ id, id ≠ sourceId → trashAsked id c = none) {p : String × Bool}
    (hp : p.1 ≠ sourceId) : Expects t p ↔ Expects s p := by
  unfold Expects
  rw [hrows, hactive]
  have hsame : ∀ r : Source, r.id = p.1 →
      t.willBeTrashed r = s.willBeTrashed r ∧ t.willBeSelected r = s.willBeSelected r := by
    intro r hid
    unfold Store.willBeTrashed Store.willBeSelected
    rw [hcalls, lastAsked_push_idle (htrash r.id (hid ▸ hp)), lastAsked_push_idle (hselect r.id)]
    exact ⟨rfl, rfl⟩
  constructor
  · rintro ⟨r, hr, hid, hnotebook, htrashed, hselected⟩
    exact ⟨r, hr, hid, hnotebook, (hsame r hid).1 ▸ htrashed, (hsame r hid).2 ▸ hselected⟩
  · rintro ⟨r, hr, hid, hnotebook, htrashed, hselected⟩
    exact ⟨r, hr, hid, hnotebook, (hsame r hid).1.trans htrashed, (hsame r hid).2.trans hselected⟩

theorem Kept.removeSource (h : Kept s) (sourceId : String) : Kept (removeSource s sourceId) := by
  unfold SourcesStore.removeSource
  cases hfind : s.sources.find? fun x => x.id = sourceId with
  | none => exact h
  | some snapshot =>
    have hid : snapshot.id = sourceId := by simpa using List.find?_some hfind
    refine ⟨h.rowIds, ?_⟩
    cases h.shown with
    | inl hcovered =>
      obtain ⟨d, hd, hreloads⟩ := hcovered
      exact .inl ⟨d, List.mem_append_left _ hd, hreloads⟩
    | inr hshown =>
      right
      have hother : ∀ p : String × Bool, p.1 ≠ sourceId →
          (Expects ({ s with sources := without sourceId s.sources }.push
            (.trash snapshot (prevSiblingId s.sources sourceId) false)) p ↔ Expects s p) := by
        intro p hp
        refine @expects_push_other s _ (.trash snapshot (prevSiblingId s.sources sourceId) false)
          (by rfl) (by rfl) (by rfl) sourceId (fun _ => rfl) ?_ p hp
        intro id hne
        simp only [trashAsked, hid, if_neg (Ne.symm hne)]
      refine ⟨?_, ?_, ?_⟩
      · exact hshown.nodup.sublist (List.filter_sublist.map _)
      · intro p hp
        obtain ⟨hmem, hne⟩ := mem_flags_without.mp hp
        exact (hother p hne).mpr (hshown.sound p hmem)
      · intro p hp hn
        have hne : p.1 ≠ sourceId := by
          intro heq
          obtain ⟨r, _, hrid, _, htrashed, _⟩ := hp
          have hasked : Slots.lastAsked (trashAsked r.id) (s.calls ++
              [.trash snapshot (prevSiblingId s.sources sourceId) false]) = some true := by
            rw [Slots.lastAsked_push]
            simp [trashAsked, hid, hrid, heq]
          have htrue : true = false := by
            rw [← htrashed]
            exact (congrArg (·.getD r.trashed) hasked).symm
          cases htrue
        apply mem_flags_without.mpr ⟨hshown.complete p ((hother p hne).mp hp) ?_, hne⟩
        intro ha
        exact hn (arriving_push ha)

theorem insert_perm (sources : List Source) (n : Nat) (source : Source) :
    (sources.take n ++ source :: sources.drop n).Perm (source :: sources) := by
  have hperm : (sources.take n ++ source :: sources.drop n).Perm
      (source :: (sources.take n ++ sources.drop n)) := List.perm_middle
  rwa [List.take_append_drop] at hperm

theorem Kept.undoRemove (h : Kept s) {notebookId : Option String}
    (horderly : Orderly s (.undoRemove notebookId)) : Kept (undoRemove s notebookId) := by
  unfold SourcesStore.undoRemove
  cases hlast : s.trashQueue.getLast? with
  | none => exact h
  | some entry =>
    have hcover : ∀ queue sources, Covered s → Covered ({ s with
        trashQueue := queue, sources := sources }.push (.restore entry.source notebookId false)) := by
      rintro queue sources ⟨d, hd, hreloads⟩
      exact ⟨d, List.mem_append_left _ hd, hreloads⟩
    refine ⟨h.rowIds, ?_⟩
    cases h.shown with
    | inl hcovered => exact .inl (hcover _ _ hcovered)
    | inr hshown =>
      rcases horderly with hcovered | ⟨hsome, hactive⟩ | hback
      · exact .inl (hcover _ _ hcovered)
      · obtain ⟨id, rfl⟩ := Option.isSome_iff_exists.mp hsome
        exact .inl ⟨.restore entry.source (some id) false, by simp [Store.push], id, rfl,
          hactive.symm⟩
      · obtain ⟨hnew, r, hr, hrid, hnotebook, hselected⟩ := hback entry hlast
        right
        refine UpToDate.perm ?_ (insert_perm _ _ _)
        refine hshown.cons h.rowIds hnew ?_ ?_ fun _ _ ha => arriving_push ha
        · refine ⟨r, hr, hrid, hnotebook, ?_, ?_⟩
          · have hasked : Slots.lastAsked (trashAsked r.id)
                (s.calls ++ [.restore entry.source notebookId false]) = some false := by
              rw [Slots.lastAsked_push]
              simp [trashAsked, hrid]
            exact congrArg (·.getD r.trashed) hasked
          · rw [← hselected]
            exact congrArg (·.getD r.selected)
              (lastAsked_push_idle (f := selectAsked r.id)
                (c := .restore entry.source notebookId false) rfl)
        · intro p hp
          refine @expects_push_other s _ (.restore entry.source notebookId false)
            (by rfl) (by rfl) (by rfl) entry.source.id (fun _ => rfl) ?_ p hp
          intro id hne
          simp only [trashAsked, if_neg (Ne.symm hne)]

end Calls

section Serve

variable {s : Store} {i : Nat} {c x : Call}

/-- The rows change as a request says, and the call goes on. -/
theorem Kept.serveRows {g : Source → Source} (h : Kept s) (hi : s.calls[i]? = some c)
    (hid : ∀ r, (g r).id = r.id) (hnotebook : ∀ r, (g r).notebookId = r.notebookId)
    (hserved : Covered s ∨ ∀ r ∈ s.rows,
      (Slots.lastAsked (trashAsked r.id) (s.calls.set i x)).getD (g r).trashed = s.willBeTrashed r ∧
      (Slots.lastAsked (selectAsked r.id) (s.calls.set i x)).getD (g r).selected =
        s.willBeSelected r)
    (hc : ∀ notebookId hash row, c ≠ .add notebookId hash (some (row, false)))
    (hreloads : x.reloads = c.reloads) : Kept ({ s with rows := s.rows.map g }.setCall i x) := by
  refine ⟨?_, ?_⟩
  · have hids : (s.rows.map g).map Source.id = s.rows.map Source.id := by
      rw [List.map_map]
      exact List.map_congr_left fun r _ => hid r
    show ((s.rows.map g).map Source.id).Nodup
    rw [hids]
    exact h.rowIds
  · have hcover : Covered s → Covered ({ s with rows := s.rows.map g }.setCall i x) := by
      intro hcovered
      exact hcovered.setCall hi hreloads
    rcases h.shown with hcovered | hshown
    · exact .inl (hcover hcovered)
    · rcases hserved with hcovered | hserved
      · exact .inl (hcover hcovered)
      · right
        apply hshown.congr
        · refine expects_map (g := g) (by rfl) (fun r _ => hid r) (fun r _ => hnotebook r) (by rfl)
            ?_ ?_
          · intro r hr
            have htrashed := (hserved r hr).1
            rw [← hid r] at htrashed
            exact htrashed
          · intro r hr
            have hselected := (hserved r hr).2
            rw [← hid r] at hselected
            exact hselected
        · exact fun id ha => arriving_setCall hi hc ha

/-- No request before the one for the same source is unserved. -/
theorem Orderly.first {m : Moment} (h : Orderly s (.serve i m)) (hi : s.calls[i]? = some c) :
    Covered s ∨ ∀ id, ((selectAsked id c).isSome → ∀ (j : Nat) d, j < i → s.calls[j]? = some d →
        selectAsked id d = none) ∧
      ((trashAsked id c).isSome → ∀ (j : Nat) d, j < i → s.calls[j]? = some d →
        trashAsked id d = none) := by
  refine h.imp_right ?_
  intro hfirst id
  constructor
  · exact fun hsome j d hlt hj => (hfirst c hi j d hlt hj id).1 hsome
  · exact fun hsome j d hlt hj => (hfirst c hi j d hlt hj id).2 hsome

theorem Kept.serveSelect (h : Kept s) {sourceId : String} {selected : Bool} {m : Moment}
    (hi : s.calls[i]? = some (.select sourceId selected false)) (horderly : Orderly s (.serve i m)) :
    Kept ({ s with rows := setSelected sourceId selected s.rows }.setCall i
      (.select sourceId selected true)) := by
  apply h.serveRows hi
  · intro r
    split <;> rfl
  · intro r
    split <;> rfl
  · refine (horderly.first hi).imp_right ?_
    intro hfirst r _
    constructor
    · rw [Slots.lastAsked_set_same hi (by rfl)]
      split <;> rfl
    · by_cases hid : r.id = sourceId
      · rw [if_pos hid]
        have hasked : selectAsked r.id (.select sourceId selected false) = some selected :=
          if_pos hid.symm
        exact Slots.lastAsked_set_first hi hasked rfl ((hfirst r.id).1 (by rw [hasked]; rfl))
      · have hnone : selectAsked r.id (.select sourceId selected false) = none :=
          if_neg (Ne.symm hid)
        rw [if_neg hid, Slots.lastAsked_set_same hi (x := .select sourceId selected true) hnone.symm]
        rfl
  · rintro notebookId hash row ⟨⟩
  · rfl

/-- A source is trashed, or comes back. -/
theorem Kept.serveTrashed (h : Kept s) {sourceId : String} {trashed : Bool} {m : Moment}
    (hi : s.calls[i]? = some c) (horderly : Orderly s (.serve i m))
    (hselect : ∀ id, selectAsked id x = selectAsked id c)
    (hasked : ∀ id, trashAsked id c = if sourceId = id then some trashed else none)
    (hnone : ∀ id, trashAsked id x = none)
    (hc : ∀ notebookId hash row, c ≠ .add notebookId hash (some (row, false)))
    (hreloads : x.reloads = c.reloads) :
    Kept ({ s with rows := setTrashed sourceId trashed s.rows }.setCall i x) := by
  apply h.serveRows hi _ _ _ hc hreloads
  · intro r
    split <;> rfl
  · intro r
    split <;> rfl
  · refine (horderly.first hi).imp_right ?_
    intro hfirst r _
    constructor
    · by_cases hid : r.id = sourceId
      · rw [if_pos hid]
        have hthis := hasked r.id
        rw [if_pos hid.symm] at hthis
        exact Slots.lastAsked_set_first hi hthis (hnone r.id) ((hfirst r.id).2 (by rw [hthis]; rfl))
      · have hthis := hasked r.id
        rw [if_neg (Ne.symm hid)] at hthis
        rw [if_neg hid, Slots.lastAsked_set_same hi ((hnone r.id).trans hthis.symm)]
        rfl
    · rw [Slots.lastAsked_set_same hi (hselect r.id)]
      split <;> rfl

/-- The engine has a new source, which the reply will bring. -/
theorem Kept.serveAdd (h : Kept s) {notebookId : String} {hash : Option String} {row : Source}
    (hi : s.calls[i]? = some (.add notebookId hash none)) (hnew : ∀ r ∈ s.rows, r.id ≠ row.id) :
    Kept ({ s with rows := row :: s.rows }.setCall i (.add notebookId hash (some (row, false)))) := by
  have hsame : ∀ id, selectAsked id (.add notebookId hash (some (row, false))) =
        selectAsked id (.add notebookId hash none) ∧
      trashAsked id (.add notebookId hash (some (row, false))) =
        trashAsked id (.add notebookId hash none) := fun _ => ⟨rfl, rfl⟩
  refine ⟨?_, ?_⟩
  · show ((row :: s.rows).map Source.id).Nodup
    rw [List.map_cons, List.nodup_cons]
    refine ⟨?_, h.rowIds⟩
    intro hmem
    obtain ⟨r, hr, hid⟩ := List.mem_map.mp hmem
    exact hnew r hr hid
  · cases h.shown with
    | inl hcovered => exact .inl (hcovered.setCall hi rfl)
    | inr hshown =>
      right
      have hserved : UpToDate (s.setCall i (.add notebookId hash (some (row, false)))) s.sources :=
        hshown.setCall hi hsame (by rintro _ _ _ ⟨⟩)
      refine ⟨hserved.nodup, ?_, ?_⟩
      · intro p hp
        obtain ⟨r, hr, hrest⟩ := hserved.sound p hp
        exact ⟨r, List.mem_cons_of_mem _ hr, hrest⟩
      · intro p hp hn
        obtain ⟨r, hr, hrest⟩ := hp
        cases List.mem_cons.mp hr with
        | inl heq =>
          exfalso
          apply hn
          have hmem : Call.add notebookId hash (some (row, false)) ∈
              s.calls.set i (.add notebookId hash (some (row, false))) :=
            (Slots.mem_set_iff hi).mpr (.inl rfl)
          exact ⟨notebookId, hash, row, hmem, heq ▸ hrest.1⟩
        | inr hmem => exact hserved.complete p ⟨r, hmem, hrest⟩ hn

theorem Kept.serve (h : Kept s) (i : Nat) (m : Moment) (horderly : Orderly s (.serve i m)) :
    Kept (serve s i m) := by
  cases hi : s.calls[i]? with
  | none => simpa only [SourcesStore.serve, hi] using h
  | some c =>
    cases c with
    | load notebookId read =>
      cases read with
      | none =>
        simp only [SourcesStore.serve, hi]
        exact h.setCall hi (fun _ => ⟨rfl, rfl⟩) (by rintro _ _ _ ⟨⟩) rfl
      | some listed => simpa only [SourcesStore.serve, hi] using h
    | add notebookId hash served =>
      cases served with
      | some served => simpa only [SourcesStore.serve, hi] using h
      | none =>
        simp only [SourcesStore.serve, hi]
        cases liveDuplicate s.rows notebookId hash with
        | some row => exact h.setCall hi (fun _ => ⟨rfl, rfl⟩) (by rintro _ _ _ ⟨⟩) rfl
        | none =>
          simp only
          split
          · exact h
          · next hfresh =>
            apply h.serveAdd hi
            intro r hr hid
            exact hfresh (List.any_eq_true.mpr ⟨r, hr, by simpa using hid⟩)
    | select sourceId selected served =>
      cases served with
      | true => simpa only [SourcesStore.serve, hi] using h
      | false =>
        simp only [SourcesStore.serve, hi]
        split
        · exact h.serveSelect hi horderly
        · exact h
    | trash source prevSiblingId served =>
      cases served with
      | true => simpa only [SourcesStore.serve, hi] using h
      | false =>
        simp only [SourcesStore.serve, hi]
        split
        · exact h.serveTrashed hi horderly (fun _ => rfl) (fun _ => rfl) (fun _ => rfl)
            (by rintro _ _ _ ⟨⟩) rfl
        · exact h
    | restore source notebookId served =>
      cases served with
      | true => simpa only [SourcesStore.serve, hi] using h
      | false =>
        simp only [SourcesStore.serve, hi]
        cases s.rows.find? fun r => r.id = source.id ∧ r.trashed with
        | none => exact h
        | some row =>
          simp only
          split
          · exact h
          · exact h.serveTrashed hi horderly (fun _ => rfl) (fun _ => rfl) (fun _ => rfl)
              (by rintro _ _ _ ⟨⟩) rfl
    | retry notebookId served =>
      cases served with
      | true => simpa only [SourcesStore.serve, hi] using h
      | false =>
        simp only [SourcesStore.serve, hi]
        refine h.serveRows hi ?_ ?_ (.inr ?_) (by rintro _ _ _ ⟨⟩) (by rfl)
        · intro r
          split <;> rfl
        · intro r
          split <;> rfl
        · intro r _
          constructor
          · rw [Slots.lastAsked_set_same hi (by rfl)]
            split <;> rfl
          · rw [Slots.lastAsked_set_same hi (by rfl)]
            split <;> rfl
    | settled => simpa only [SourcesStore.serve, hi] using h

end Serve

section Reply

variable {s : Store} {i : Nat} {c : Call}

theorem Kept.replyLoad (h : Kept s) {notebookId : String} {listed : List Source}
    (hi : s.calls[i]? = some (.load notebookId (some listed))) (horderly : Orderly s (.reply i)) :
    Kept ({ s with sources := listed }.setCall i .settled) := by
  refine ⟨h.rowIds, ?_⟩
  cases horderly.1 notebookId listed hi with
  | inl hcovered =>
    obtain ⟨j, d, hji, hj, hreloads⟩ := hcovered
    exact .inl ⟨d, (Slots.mem_set_iff hi).mpr (.inr ⟨j, hji, hj⟩), hreloads⟩
  | inr hlisted =>
    have hsettled : UpToDate (s.setCall i .settled) listed :=
      hlisted.setCall hi (fun _ => ⟨rfl, rfl⟩) (by rintro _ _ _ ⟨⟩)
    exact .inr (hsettled.congr (fun _ => Iff.rfl) fun _ ha => ha)

/-- A new source has arrived, and the others are still to come. -/
theorem arriving_others {notebookId : String} {hash : Option String} {row : Source}
    (hi : s.calls[i]? = some (.add notebookId hash (some (row, false)))) {id : String}
    (hid : id ≠ row.id) (h : Arriving s id) : Arriving (s.setCall i .settled) id := by
  obtain ⟨notebookId', hash', row', hmem, rfl⟩ := h
  refine ⟨notebookId', hash', row', ?_, rfl⟩
  obtain ⟨j, hj⟩ := List.mem_iff_getElem?.mp hmem
  apply (Slots.mem_set_iff hi).mpr
  refine .inr ⟨j, ?_, hj⟩
  rintro rfl
  have heq := hi.symm.trans hj
  simp only [Option.some.injEq, Call.add.injEq, Prod.mk.injEq] at heq
  exact hid (congrArg Source.id heq.2.2.1.symm)

theorem Kept.replyAdd (h : Kept s) {notebookId : String} {hash : Option String} {row : Source}
    (hi : s.calls[i]? = some (.add notebookId hash (some (row, false))))
    (horderly : Orderly s (.reply i)) : Kept (addSourceLocal (s.setCall i .settled) row) := by
  have hexpects : ∀ p, Expects (s.setCall i .settled) p ↔ Expects s p := by
    intro p
    refine expects_same (by rfl) (by rfl) ?_ ?_ p
    · intro id
      exact Slots.lastAsked_set_same hi rfl
    · intro id
      exact Slots.lastAsked_set_same hi rfl
  have hcover : Covered s → Covered (addSourceLocal (s.setCall i .settled) row) := by
    intro hcovered
    unfold addSourceLocal
    split <;> exact hcovered.setCall hi rfl
  have hrows : (addSourceLocal (s.setCall i .settled) row).rows = s.rows := by
    unfold addSourceLocal
    split <;> rfl
  refine ⟨by rw [hrows]; exact h.rowIds, ?_⟩
  rcases h.shown with hcovered | hshown
  · exact .inl (hcover hcovered)
  · rcases horderly.2 notebookId hash row hi with hcovered | hwanted
    · exact .inl (hcover hcovered)
    · right
      by_cases hold : ∃ x ∈ s.sources, x.id = row.id
      · have hsame : addSourceLocal (s.setCall i .settled) row = s.setCall i .settled := by
          obtain ⟨x, hx, hid⟩ := hold
          exact if_pos (List.any_eq_true.mpr ⟨x, hx, by simpa using hid⟩)
        rw [hsame]
        refine ⟨hshown.nodup, fun p hp => (hexpects p).mpr (hshown.sound p hp), ?_⟩
        intro p hp hn
        by_cases hid : p.1 = row.id
        · obtain ⟨x, hx, hxid⟩ := hold
          have hmem : (p.1, x.selected) ∈ flags s.sources :=
            mem_flags.mpr ⟨x, hx, hxid.trans hid.symm, rfl⟩
          have hflag := Expects.unique h.rowIds (hshown.sound _ hmem) ((hexpects p).mp hp)
          have heq : (p.1, x.selected) = p := Prod.ext rfl hflag
          exact heq ▸ hmem
        · exact hshown.complete p ((hexpects p).mp hp) fun ha => hn (arriving_others hi hid ha)
      · have hnew : ∀ x ∈ s.sources, x.id ≠ row.id := fun x hx hid => hold ⟨x, hx, hid⟩
        have hadded : addSourceLocal (s.setCall i .settled) row =
            { s.setCall i .settled with sources := row :: s.sources } := by
          apply if_neg
          intro hany
          obtain ⟨x, hx, hid⟩ := List.any_eq_true.mp hany
          exact hnew x hx (by simpa using hid)
        rw [hadded]
        exact hshown.cons h.rowIds hnew ((hexpects _).mpr (hwanted.resolve_left hold))
          (fun p _ => hexpects p) fun id hid ha => arriving_others hi hid ha

/-- A call asks for the listing that was to come of it. -/
theorem Kept.replyReload (h : Kept s) (hi : s.calls[i]? = some c) {notebookId : String}
    (hidle : ∀ id, selectAsked id c = none ∧ trashAsked id c = none)
    (hc : ∀ notebookId hash row, c ≠ .add notebookId hash (some (row, false)))
    (hreloads : c.reloads = some notebookId) :
    Kept (loadSources (s.setCall i .settled) notebookId) := by
  refine ⟨h.rowIds, ?_⟩
  cases h.shown with
  | inl hcovered =>
    left
    obtain ⟨d, hd, id, hid, hactive⟩ := hcovered
    obtain ⟨j, hj⟩ := List.mem_iff_getElem?.mp hd
    by_cases hji : j = i
    · subst hji
      obtain rfl : c = d := Option.some.inj (hi.symm.trans hj)
      refine ⟨.load notebookId none, List.mem_append_right _ (by simp), notebookId, rfl, ?_⟩
      rw [← hreloads, hid]
      exact hactive
    · exact ⟨d, List.mem_append_left _ ((Slots.mem_set_iff hi).mpr (.inr ⟨j, hji, hj⟩)), id, hid,
        hactive⟩
  | inr hshown =>
    right
    have hsettled : UpToDate (s.setCall i .settled) s.sources :=
      hshown.setCall hi (fun id => ⟨(hidle id).1.symm, (hidle id).2.symm⟩) hc
    exact hsettled.push (idle_load notebookId none)

theorem Kept.reply (h : Kept s) (i : Nat) (horderly : Orderly s (.reply i)) : Kept (reply s i) := by
  cases hi : s.calls[i]? with
  | none => simpa only [SourcesStore.reply, hi] using h
  | some c =>
    cases c with
    | load notebookId read =>
      cases read with
      | none => simpa only [SourcesStore.reply, hi] using h
      | some listed =>
        simp only [SourcesStore.reply, hi]
        exact h.replyLoad hi horderly
    | add notebookId hash served =>
      cases served with
      | none => simpa only [SourcesStore.reply, hi] using h
      | some served =>
        obtain ⟨row, wasExisting⟩ := served
        simp only [SourcesStore.reply, hi]
        cases wasExisting with
        | true => exact h.setCall hi (fun _ => ⟨rfl, rfl⟩) (by rintro _ _ _ ⟨⟩) rfl
        | false => exact h.replyAdd hi horderly
    | select sourceId selected served =>
      cases served with
      | false => simpa only [SourcesStore.reply, hi] using h
      | true =>
        simp only [SourcesStore.reply, hi]
        exact h.setCall hi (fun _ => ⟨rfl, rfl⟩) (by rintro _ _ _ ⟨⟩) rfl
    | trash source prevSiblingId served =>
      cases served with
      | false => simpa only [SourcesStore.reply, hi] using h
      | true =>
        simp only [SourcesStore.reply, hi]
        have hsettled : Kept (s.setCall i .settled) :=
          h.setCall hi (fun _ => ⟨rfl, rfl⟩) (by rintro _ _ _ ⟨⟩) rfl
        exact hsettled.expire (s.trashQueue ++ [⟨source, prevSiblingId⟩])
    | restore source notebookId served =>
      cases served with
      | false => simpa only [SourcesStore.reply, hi] using h
      | true =>
        simp only [SourcesStore.reply, hi]
        cases notebookId with
        | none => exact h.setCall hi (fun _ => ⟨rfl, rfl⟩) (by rintro _ _ _ ⟨⟩) rfl
        | some id => exact h.replyReload hi (fun _ => ⟨rfl, rfl⟩) (by rintro _ _ _ ⟨⟩) rfl
    | retry notebookId served =>
      cases served with
      | false => simpa only [SourcesStore.reply, hi] using h
      | true =>
        simp only [SourcesStore.reply, hi]
        exact h.replyReload hi (fun _ => ⟨rfl, rfl⟩) (by rintro _ _ _ ⟨⟩) rfl
    | settled => simpa only [SourcesStore.reply, hi] using h

theorem Kept.step (h : Kept s) (e : Event) (horderly : Orderly s e) : Kept (step s e) := by
  cases e with
  | activate notebookId => exact h.activate notebookId
  | loadSources notebookId => exact h.push (idle_load notebookId none)
  | addSource notebookId hash => exact h.push fun _ => ⟨rfl, rfl⟩
  | toggleSelected sourceId => exact h.toggleSelected sourceId
  | toggleAllSelected => exact h.toggleAllSelected
  | removeSource sourceId => exact h.removeSource sourceId
  | undoRemove notebookId => exact h.undoRemove horderly
  | retryAllFailed notebookId => exact h.retryAllFailed notebookId
  | expire sourceId => exact h.expire _
  | serve i m => exact h.serve i m horderly
  | reply i => exact h.reply i horderly

end Reply

section Convergence

/-- In every orderly run the list holds the live sources of the active notebook once all requests
have settled. -/
theorem sources_converge {rows : List Source} (hrows : (rows.map Source.id).Nodup)
    {events : List Event} (h : Along step Orderly (Store.start rows) events) :
    Throughout step (fun s => Settled s → Converged s) (Store.start rows) events := by
  have hkept : Throughout step Kept (Store.start rows) events :=
    h.throughout (fun _ e hk horderly => hk.step e horderly) (kept_start hrows)
  exact hkept.mono fun _ hk hs => hk.settled hs

def indexedSource : Source := ⟨"s", "a", true, .indexed, false, none⟩

/-- The listing of the notebook that has been opened is read, and on its way. -/
def openedStore : Store :=
  ⟨some "a", [], [], [indexedSource], [.load "a" (some [indexedSource])]⟩

theorem openedStore_listed : UpToDate openedStore [indexedSource] := by
  refine ⟨by simp, ?_, ?_⟩
  · intro p hp
    have heq : p = ("s", true) := by simpa [flags, indexedSource] using hp
    subst heq
    exact ⟨indexedSource, by simp [openedStore], rfl, rfl, rfl, rfl⟩
  · rintro p ⟨r, hr, hid, -, -, hselected⟩ -
    obtain rfl : r = indexedSource := by simpa [openedStore] using hr
    have heq : p = ("s", true) := Prod.ext hid.symm hselected.symm
    rw [heq]
    decide

theorem sources_converge_opened : Throughout step (fun s => Settled s → Converged s)
    (Store.start [indexedSource])
    [.activate (some "a"), .serve 0 ⟨"", fun _ => .indexed⟩, .reply 0] := by
  apply sources_converge (by simp)
  refine ⟨trivial, .inl ⟨.load "a" none, ?_, "a", rfl, rfl⟩, ⟨?_, ?_⟩, trivial⟩
  · decide
  · intro notebookId listed hi
    cases hi
    exact .inr openedStore_listed
  · intro notebookId hash row hi
    cases hi

/-- The listing of a notebook arrives after the switch to another one, and after its listing. -/
def switchedBack : List Event :=
  [.activate (some "a"), .serve 0 ⟨"", fun _ => .indexed⟩, .activate (some "b"),
    .serve 1 ⟨"", fun _ => .indexed⟩, .reply 1, .reply 0]

theorem switchedBack_shows_other : ¬ ∀ (rows : List Source) (events : List Event),
    (rows.map Source.id).Nodup →
      Throughout step (fun s => Settled s → Converged s) (Store.start rows) events := by
  intro h
  have hlast := (h [indexedSource] switchedBack (by simp)).stop
  revert hlast
  decide

end Convergence

end LensLM.SourcesStore
