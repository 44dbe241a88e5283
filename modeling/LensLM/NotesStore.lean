import LensLM.Lib.EventRuns
import LensLM.Lib.Slots
import LensLM.CitationChips
import Mathlib.Data.List.Nodup
import Mathlib.Data.List.Perm.Basic

/-!
# The notes of a notebook

The interface keeps the notes of a notebook in a list of its own. Listings and writes share one
generation counter: the reply of a call that a later one has overtaken is dropped.
-/

namespace LensLM.NotesStore

open ByteText EventRuns

set_option autoImplicit false

inductive NoteOrigin where
  | chat
  | manual
deriving DecidableEq, Repr

/-- A row of the table, of one notebook. -/
structure Note where
  id : String
  origin : NoteOrigin
  content : Str
  citations : Option (List Citation)
  sourceTitle : Option Str
  sourceMessageId : Option String
  createdAt : String
  updatedAt : String
  pinned : Bool
deriving DecidableEq, Repr

structure ChatMessage where
  id : String
  content : Str
  citations : Option (List Citation)
deriving DecidableEq, Repr

/-- What a `create_*` request asks for. -/
inductive Draft where
  | chat (message : ChatMessage)
  | manual (content : Str)
deriving DecidableEq, Repr

/-- What an update sets. -/
inductive Change where
  | content (text : Str)
  | pinned (pinned : Bool)
deriving DecidableEq, Repr

/-- How far an update is: asked for, done, or done and its row read. -/
inductive Update where
  | asked
  | done
  | read (note : Note)
deriving DecidableEq, Repr

/-- What a call waits for. `gen` is the generation it drew, and `notes` the list it found. -/
inductive Call where
  | hydrate (gen : Nat) (rows : Option (List Note))
  | unsave (gen : Nat) (notes : List Note) (messageId noteId : String) (served : Bool)
  | insert (gen : Nat) (notes : List Note) (draft : Draft) (saved : Option Note)
  | remove (noteId : String) (served : Bool)
  | update (gen : Nat) (noteId : String) (change : Change) (state : Update)
  | settled
deriving DecidableEq, Repr

structure Store where
  /-- `byNotebook` at this notebook. -/
  notes : Option (List Note)
  hydrateGeneration : Nat
  pendingToggles : List String
  /-- The rows of the database. -/
  rows : List Note
  /-- The ids that have been used; a new note gets another one. -/
  usedIds : List String
  calls : List Call

/-- The time, an id and the titles of the sources, at a moment in the engine. -/
structure Moment where
  now : String
  id : String
  titles : String → Option Str

namespace Store

def start (rows : List Note) : Store := ⟨none, 0, [], rows, rows.map Note.id, []⟩

/-- `notesStore.notes`. -/
def shown (s : Store) : List Note := s.notes.getD []

/-- `ensure`. -/
def ensure (s : Store) : Store := { s with notes := some s.shown }

def bumpGeneration (s : Store) : Store := { s with hydrateGeneration := s.hydrateGeneration + 1 }

def push (s : Store) (c : Call) : Store := { s with calls := s.calls ++ [c] }

def setCall (s : Store) (i : Nat) (c : Call) : Store := { s with calls := s.calls.set i c }

end Store

section Calls

/-- `content.trim().length === 0`. -/
def isJsBlank (content : Str) : Bool := content.all isJsSpace

def hydrate (s : Store) : Store :=
  let s := s.bumpGeneration
  s.push (.hydrate s.hydrateGeneration none)

/-- `message.id.endsWith('-streaming')`. -/
def isStreaming (id : String) : Bool := "-streaming".toList.isSuffixOf id.toList

/-- A toggle that is not ignored. -/
def Store.togglable (s : Store) (message : ChatMessage) : Bool :=
  !isStreaming message.id && !s.pendingToggles.contains message.id

def toggleSave (s : Store) (message : ChatMessage) : Store :=
  if s.togglable message then
    let s := { s with pendingToggles := message.id :: s.pendingToggles }.bumpGeneration.ensure
    match s.shown.find? fun n => n.sourceMessageId = some message.id with
    | some existing =>
      s.push (.unsave s.hydrateGeneration s.shown message.id existing.id false)
    | none => s.push (.insert s.hydrateGeneration s.shown (.chat message) none)
  else s

def addManualNote (s : Store) (content : Str) : Store :=
  if isJsBlank content then s
  else
    let s := s.bumpGeneration.ensure
    s.push (.insert s.hydrateGeneration s.shown (.manual content) none)

def remove (s : Store) (noteId : String) : Store :=
  { s with usedIds := noteId :: s.usedIds }.push (.remove noteId false)

def update (s : Store) (noteId : String) (change : Change) : Store :=
  let s := { s with usedIds := noteId :: s.usedIds }.bumpGeneration
  s.push (.update s.hydrateGeneration noteId change .asked)

def editNote (s : Store) (noteId : String) (content : Str) : Store :=
  if isJsBlank content then s else update s noteId (.content content)

def setPinned (s : Store) (noteId : String) (pinned : Bool) : Store :=
  update s noteId (.pinned pinned)

end Calls

section Engine

/-- The order of `list_notes`, and of `sortNotes`: pinned first, then the newest. -/
def noteBefore (a b : Note) : Bool :=
  if a.pinned ≠ b.pinned then a.pinned
  else if a.createdAt ≠ b.createdAt then compare a.createdAt b.createdAt == .gt
  else compare a.id b.id != .lt

def sortNotes (notes : List Note) : List Note := notes.mergeSort noteBefore

/-- The row of `create_chat_note` or `create_manual_note`; a manual note must have a text. -/
def Draft.create (m : Moment) : Draft → Option Note
  | .chat message =>
    let cited := (message.citations.getD []).find? fun c => c.ordinal = 1
    some {
      id := m.id, origin := .chat, content := message.content, citations := message.citations
      sourceTitle := cited.bind fun c => m.titles c.sourceId
      sourceMessageId := some message.id, createdAt := m.now, updatedAt := m.now, pinned := false }
  | .manual content =>
    if (trim content).isEmpty then none
    else some {
      id := m.id, origin := .manual, content := trim content, citations := none
      sourceTitle := none, sourceMessageId := none, createdAt := m.now, updatedAt := m.now
      pinned := false }

/-- `UPDATE notes SET …`; an edit must leave a text. -/
def Change.apply (now : String) (change : Change) (note : Note) : Option Note :=
  match change with
  | .content text =>
    if (trim text).isEmpty then none else some { note with content := trim text, updatedAt := now }
  | .pinned value => some { note with pinned := value }

def without (noteId : String) (notes : List Note) : List Note := notes.filter fun n => n.id ≠ noteId

def replace (note : Note) (notes : List Note) : List Note :=
  notes.map fun n => if n.id = note.id then note else n

def Store.row? (s : Store) (noteId : String) : Option Note := s.rows.find? fun n => n.id = noteId

/-- The engine carries out the next statement of a request. -/
def serve (s : Store) (i : Nat) (m : Moment) : Store :=
  match s.calls[i]? with
  | some (.hydrate gen none) => s.setCall i (.hydrate gen (some (sortNotes s.rows)))
  | some (.unsave gen notes messageId noteId false) =>
    { s with rows := without noteId s.rows }.setCall i (.unsave gen notes messageId noteId true)
  | some (.remove noteId false) =>
    { s with rows := without noteId s.rows }.setCall i (.remove noteId true)
  | some (.insert gen notes draft none) =>
    match draft.create m with
    | some note =>
      if m.id ∈ s.usedIds then s
      else
        { s with rows := note :: s.rows, usedIds := m.id :: s.usedIds }.setCall i
          (.insert gen notes draft (some note))
    | none => s
  | some (.update gen noteId change .asked) =>
    match (s.row? noteId).bind (change.apply m.now) with
    | some note =>
      { s with rows := replace note s.rows }.setCall i (.update gen noteId change .done)
    | none => s
  | some (.update gen noteId change .done) =>
    match s.row? noteId with
    | some note => s.setCall i (.update gen noteId change (.read note))
    | none => s
  | _ => s

/-- The toggles in flight once the note is saved. -/
def Draft.pendingAfter (pending : List String) : Draft → List String
  | .chat message => pending.erase message.id
  | .manual _ => pending

/-- The reply of a request arrives. -/
def reply (s : Store) (i : Nat) : Store :=
  match s.calls[i]? with
  | some (.hydrate gen (some rows)) =>
    let s := s.setCall i .settled
    if s.hydrateGeneration ≠ gen then s else { s with notes := some rows }
  | some (.unsave gen notes messageId noteId true) =>
    let s := { s with pendingToggles := s.pendingToggles.erase messageId }.setCall i .settled
    if s.hydrateGeneration ≠ gen then s else { s with notes := some (without noteId notes) }
  | some (.insert gen notes draft (some saved)) =>
    let pending := draft.pendingAfter s.pendingToggles
    let s := { s with pendingToggles := pending }.setCall i .settled
    if s.hydrateGeneration ≠ gen then s else { s with notes := some (saved :: notes) }
  | some (.remove noteId true) =>
    { s with notes := s.notes.map (without noteId) }.setCall i .settled
  | some (.update gen noteId change (.read note)) =>
    let s := s.setCall i .settled
    if s.hydrateGeneration ≠ gen then s
    else
      let updated := s.notes.map fun notes => notes.map fun n => if n.id = noteId then note else n
      match change with
      | .content _ => { s with notes := updated }
      | .pinned _ => { s with notes := updated.map sortNotes }
  | _ => s

end Engine

inductive Event where
  | hydrate
  | toggleSave (message : ChatMessage)
  | addManualNote (content : Str)
  | editNote (noteId : String) (content : Str)
  | setPinned (noteId : String) (pinned : Bool)
  | remove (noteId : String)
  | serve (i : Nat) (m : Moment)
  | reply (i : Nat)

def step (s : Store) : Event → Store
  | .hydrate => hydrate s
  | .toggleSave message => toggleSave s message
  | .addManualNote content => addManualNote s content
  | .editNote noteId content => editNote s noteId content
  | .setPinned noteId pinned => setPinned s noteId pinned
  | .remove noteId => remove s noteId
  | .serve i m => serve s i m
  | .reply i => reply s i

section Properties

/-- `savedMessageIds`. -/
def savedMessageIds (notes : List Note) : List String :=
  (notes.filterMap Note.sourceMessageId).filter fun id => id ≠ ""

def Settled (s : Store) : Prop := ∀ c ∈ s.calls, c = .settled

instance (s : Store) : Decidable (Settled s) :=
  inferInstanceAs (Decidable (∀ c ∈ s.calls, c = .settled))

/-- The notes are the rows, and the saved messages those of the rows. -/
structure Converged (s : Store) : Prop where
  notes : s.shown.Perm s.rows
  saved : ∀ id, id ≠ "" →
    (id ∈ savedMessageIds s.shown ↔ ∃ n ∈ s.rows, n.sourceMessageId = some id)

/-- The engine has removed a note, and the reply is to come. -/
def Removing (s : Store) (noteId : String) : Prop := Call.remove noteId true ∈ s.calls

/-- A list has the rows, apart from removals on their way. -/
def Agrees (s : Store) (notes : List Note) : Prop :=
  ∀ n, ¬ Removing s n.id → (n ∈ notes ↔ n ∈ s.rows)

def Call.gen : Call → Option Nat
  | .hydrate gen _ | .unsave gen .. | .insert gen .. | .update gen .. => some gen
  | .remove .. | .settled => none

/-- The call whose reply counts. -/
def Current (s : Store) (c : Call) : Prop := c ∈ s.calls ∧ c.gen = some s.hydrateGeneration

/-- A call that has drawn a generation replaces what the reply would have brought: a write needs a
list in agreement, and so does whatever is called first, except a listing. -/
def CalledInSync (s : Store) : Event → Prop
  | .toggleSave message => s.togglable message = true → Agrees s s.shown
  | .addManualNote content => isJsBlank content = false → Agrees s s.shown
  | .editNote _ content => isJsBlank content = false → Agrees s s.shown
  | .setPinned .. => Agrees s s.shown
  | .remove _ => s.calls = [] → Agrees s s.shown
  | .hydrate | .serve .. | .reply _ => True

/-- The engine has yet to change the rows for the call. -/
def Call.changesRows (s : Store) : Call → Prop
  | .unsave _ _ _ noteId false => ∃ n ∈ s.rows, n.id = noteId
  | .insert _ _ _ none | .update _ _ _ .asked => True
  | _ => False

/-- A write that was overtaken before it changes the rows is still seen by a current listing. -/
def OvertakenSeen (s : Store) : Event → Prop
  | .serve i _ => ∀ c gen, s.calls[i]? = some c → c.gen = some gen → gen ≠ s.hydrateGeneration →
      c.changesRows s → Current s (.hydrate s.hydrateGeneration none)
  | _ => True

/-- The list that a reply brings. -/
def Call.brings : Call → List Note
  | .hydrate _ rows => rows.getD []
  | .unsave _ notes _ noteId _ => without noteId notes
  | .insert _ notes _ saved => saved.toList ++ notes
  | .update .. | .remove .. | .settled => []

/-- No reply to come brings a note back whose removal is answered. -/
def RemovedForGood (s : Store) : Event → Prop
  | .reply i => ∀ noteId, s.calls[i]? = some (.remove noteId true) →
      ∀ c, Current s c → ∀ n ∈ c.brings, n.id ≠ noteId
  | _ => True

/-- No call takes the list out of step with the rows. -/
structure Orderly (s : Store) (e : Event) : Prop where
  called : CalledInSync s e
  overtaken : OvertakenSeen s e
  removed : RemovedForGood s e

end Properties

section Invariant

variable {s : Store}

def Ids (notes : List Note) : List String := notes.map Note.id

/-- A list that the rows bear out. -/
structure Good (s : Store) (notes : List Note) : Prop where
  nodup : (Ids notes).Nodup
  agrees : Agrees s notes

/-- The same, with one note in between. -/
structure GoodBut (s : Store) (noteId : String) (notes : List Note) : Prop where
  nodup : (Ids notes).Nodup
  agrees : ∀ n, n.id ≠ noteId → ¬ Removing s n.id → (n ∈ notes ↔ n ∈ s.rows)
  present : ¬ Removing s noteId → ((∃ n ∈ notes, n.id = noteId) ↔ ∃ n ∈ s.rows, n.id = noteId)

/-- What the call relies on, for its reply to bring a good list. -/
def Ready (s : Store) : Call → Prop
  | .hydrate _ none => True
  | .hydrate _ (some rows) => Good s rows
  | .unsave _ notes _ noteId served => (Ids notes).Nodup ∧
      (∀ n, n.id ≠ noteId → ¬ Removing s n.id → (n ∈ notes ↔ n ∈ s.rows)) ∧
      (served = true → ∀ n ∈ s.rows, n.id ≠ noteId)
  | .insert _ notes _ saved => Good s (saved.toList ++ notes)
  | .update _ _ _ .asked => Good s s.shown
  | .update _ noteId _ .done => GoodBut s noteId s.shown
  | .update _ noteId _ (.read note) => GoodBut s noteId s.shown ∧ note.id = noteId ∧
      ∀ n ∈ s.rows, n.id = noteId → n = note
  | .remove .. | .settled => True

/-- Generations are drawn in order, and at most one call has the last one. -/
structure Drawn (gen : Nat) (calls : List Call) : Prop where
  le : ∀ c ∈ calls, ∀ g, c.gen = some g → g ≤ gen
  unique : ∀ (i j : Nat) (c d : Call), calls[i]? = some c → calls[j]? = some d → c.gen = some gen →
    d.gen = some gen → i = j

structure Kept (s : Store) : Prop where
  rowIds : (Ids s.rows).Nodup
  shownIds : (Ids s.shown).Nodup
  used : ∀ n ∈ s.rows, n.id ∈ s.usedIds
  removeUsed : ∀ noteId served, Call.remove noteId served ∈ s.calls → noteId ∈ s.usedIds
  removed : ∀ noteId, Removing s noteId → ∀ n ∈ s.rows, n.id ≠ noteId
  drawn : Drawn s.hydrateGeneration s.calls
  ready : ∀ c, Current s c → Ready s c
  idle : s.calls ≠ [] → (∀ c, ¬ Current s c) → Good s s.shown

theorem kept_start {rows : List Note} (h : (Ids rows).Nodup) : Kept (Store.start rows) where
  rowIds := h
  shownIds := List.nodup_nil
  used _ hn := List.mem_map_of_mem hn
  removeUsed _ _ hc := absurd hc List.not_mem_nil
  removed _ hc := absurd hc List.not_mem_nil
  drawn := ⟨fun _ hc => absurd hc List.not_mem_nil, fun _ _ _ _ hi => absurd (List.mem_of_getElem? hi) List.not_mem_nil⟩
  ready _ hc := absurd hc.1 List.not_mem_nil
  idle hne := absurd rfl hne

theorem mem_without {noteId : String} {notes : List Note} {n : Note} :
    n ∈ without noteId notes ↔ n ∈ notes ∧ n.id ≠ noteId := by
  simp [without]

theorem nodup_without {notes : List Note} (noteId : String) (h : (Ids notes).Nodup) :
    (Ids (without noteId notes)).Nodup :=
  h.sublist (List.filter_sublist.map _)

theorem eq_of_mem_of_id {notes : List Note} (h : (Ids notes).Nodup) {a b : Note} (ha : a ∈ notes)
    (hb : b ∈ notes) (hid : a.id = b.id) : a = b :=
  List.inj_on_of_nodup_map h ha hb hid

theorem ids_replace (note : Note) (notes : List Note) : Ids (replace note notes) = Ids notes := by
  unfold Ids replace
  rw [List.map_map]
  apply List.map_congr_left
  intro n _
  simp only [Function.comp_apply]
  split
  · rename_i hn
    exact hn.symm
  · rfl

theorem mem_replace {note : Note} {notes : List Note} {n : Note} : n ∈ replace note notes ↔
    (n ∈ notes ∧ n.id ≠ note.id) ∨ (n = note ∧ ∃ m ∈ notes, m.id = note.id) := by
  simp only [replace, List.mem_map]
  constructor
  · rintro ⟨m, hm, rfl⟩
    split
    · rename_i hid
      exact .inr ⟨rfl, m, hm, hid⟩
    · rename_i hid
      exact .inl ⟨hm, hid⟩
  · rintro (⟨hn, hid⟩ | ⟨rfl, m, hm, hid⟩)
    · exact ⟨n, hn, if_neg hid⟩
    · exact ⟨m, hm, if_pos hid⟩

/-- With no removal on its way a good list is the rows. -/
theorem Good.converged (h : Good s s.shown) (hrows : (Ids s.rows).Nodup)
    (hnone : ∀ noteId, ¬ Removing s noteId) : Converged s := by
  have hperm : s.shown.Perm s.rows :=
    (List.perm_ext_iff_of_nodup h.nodup.of_map hrows.of_map).mpr fun n => h.agrees n (hnone n.id)
  refine ⟨hperm, ?_⟩
  intro id hid
  simp only [savedMessageIds, List.mem_filter, List.mem_filterMap, hperm.mem_iff,
    decide_eq_true_eq]
  exact and_iff_left hid

theorem Kept.converged (h : Kept s) (hne : s.calls ≠ []) (hs : Settled s) : Converged s := by
  have hcurrent : ∀ c, ¬ Current s c := by
    rintro c ⟨hc, hgen⟩
    rw [hs c hc] at hgen
    cases hgen
  apply (h.idle hne hcurrent).converged h.rowIds
  intro noteId hr
  cases hs _ hr

end Invariant

section Calls

variable {s t : Store} {c d x : Call} {i : Nat}

theorem ne_remove_of_gen {gen : Nat} (h : c.gen = some gen) (noteId : String) (served : Bool) :
    Call.remove noteId served ≠ c := by
  rintro rfl
  cases h

theorem Drawn.set {gen : Nat} {calls : List Call} (h : Drawn gen calls) (hi : calls[i]? = some c)
    (hx : x.gen = none ∨ x.gen = c.gen) : Drawn gen (calls.set i x) := by
  constructor
  · intro d hd g hg
    rcases (Slots.mem_set_iff hi).mp hd with rfl | ⟨j, _, hj⟩
    · rcases hx with hx | hx
      · rw [hx] at hg
        cases hg
      · exact h.le c (List.mem_of_getElem? hi) g (hx ▸ hg)
    · exact h.le d (List.mem_of_getElem? hj) g hg
  · -- a call that has a generation after the change had it before
    have hback : ∀ (j : Nat) (e : Call), (calls.set i x)[j]? = some e → e.gen = some gen →
        ∃ e', calls[j]? = some e' ∧ e'.gen = some gen := by
      intro j e hj he
      rcases (Slots.getElem?_set_eq_some hi).mp hj with ⟨rfl, rfl⟩ | ⟨_, hj⟩
      · rcases hx with hx | hx
        · rw [hx] at he
          cases he
        · exact ⟨c, hi, hx ▸ he⟩
      · exact ⟨e, hj, he⟩
    intro j k d e hj hk hd he
    obtain ⟨d', hj', hd'⟩ := hback j d hj hd
    obtain ⟨e', hk', he'⟩ := hback k e hk he
    exact h.unique j k d' e' hj' hk' hd' he'

theorem Drawn.push {gen : Nat} {calls : List Call} (h : Drawn gen calls)
    (hc : c.gen = some (gen + 1)) : Drawn (gen + 1) (calls ++ [c]) := by
  have hold : ∀ d ∈ calls, d.gen ≠ some (gen + 1) := by
    intro d hd hg
    have := h.le d hd _ hg
    omega
  constructor
  · intro d hd g hg
    rcases List.mem_append.mp hd with hd | hd
    · have := h.le d hd g hg
      omega
    · rw [List.mem_singleton.mp hd, hc] at hg
      cases hg
      exact Nat.le_refl _
  · intro j k d e hj hk hd he
    rcases Slots.getElem?_append_eq_some.mp hj with hj | ⟨rfl, _⟩
    · exact absurd hd (hold d (List.mem_of_getElem? hj))
    · rcases Slots.getElem?_append_eq_some.mp hk with hk | ⟨rfl, _⟩
      · exact absurd he (hold e (List.mem_of_getElem? hk))
      · rfl

/-- Nothing that bears a list out has changed. -/
structure SameRows (s t : Store) : Prop where
  rows : t.rows = s.rows
  removing : ∀ noteId, Removing t noteId ↔ Removing s noteId

theorem Good.congr (h : SameRows s t) {notes : List Note} (hg : Good s notes) : Good t notes := by
  refine ⟨hg.nodup, fun n hn => ?_⟩
  rw [h.rows]
  exact hg.agrees n (mt (h.removing n.id).mpr hn)

theorem GoodBut.congr (h : SameRows s t) {noteId : String} {notes : List Note}
    (hg : GoodBut s noteId notes) : GoodBut t noteId notes := by
  refine ⟨hg.nodup, fun n hid hn => ?_, fun hn => ?_⟩
  · rw [h.rows]
    exact hg.agrees n hid (mt (h.removing n.id).mpr hn)
  · rw [h.rows]
    exact hg.present (mt (h.removing noteId).mpr hn)

theorem Ready.congr (h : SameRows s t) (hshown : t.shown = s.shown) (hr : Ready s c) :
    Ready t c := by
  cases c with
  | hydrate gen rows =>
    cases rows with
    | none => trivial
    | some rows => exact Good.congr h hr
  | unsave gen notes messageId noteId served =>
    obtain ⟨hnodup, hagrees, hserved⟩ := hr
    refine ⟨hnodup, fun n hid hn => ?_, ?_⟩
    · rw [h.rows]
      exact hagrees n hid (mt (h.removing n.id).mpr hn)
    · rw [h.rows]
      exact hserved
  | insert gen notes draft saved => exact Good.congr h hr
  | remove noteId served => trivial
  | settled => trivial
  | update gen noteId change state =>
    cases state with
    | asked =>
      have hgood : Good s s.shown := hr
      rw [← hshown] at hgood
      exact hgood.congr h
    | done =>
      have hgood : GoodBut s noteId s.shown := hr
      rw [← hshown] at hgood
      exact hgood.congr h
    | read note =>
      obtain ⟨hgood, hid, hrow⟩ := hr
      rw [← hshown] at hgood
      rw [← h.rows] at hrow
      exact ⟨hgood.congr h, hid, hrow⟩

theorem current_set (hi : s.calls[i]? = some c) (hcalls : t.calls = s.calls.set i x)
    (hgen : t.hydrateGeneration = s.hydrateGeneration) (hd : Current t d) :
    (d = x ∧ x.gen = some s.hydrateGeneration) ∨
      ∃ j, j ≠ i ∧ s.calls[j]? = some d ∧ d.gen = some s.hydrateGeneration := by
  obtain ⟨hmem, hg⟩ := hd
  rw [hcalls] at hmem
  rw [hgen] at hg
  rcases (Slots.mem_set_iff hi).mp hmem with rfl | ⟨j, hj, hd⟩
  · exact .inl ⟨rfl, hg⟩
  · exact .inr ⟨j, hj, hd, hg⟩

/-- A call that has a generation moves on with it. -/
theorem noCurrent_of_set (hi : s.calls[i]? = some c) (hcalls : t.calls = s.calls.set i x)
    (hgen : t.hydrateGeneration = s.hydrateGeneration) (hx : x.gen = c.gen)
    (hnone : ∀ d, ¬ Current t d) (d : Call) : ¬ Current s d := by
  rintro ⟨hd, hg⟩
  obtain ⟨j, hj⟩ := List.mem_iff_getElem?.mp hd
  by_cases hji : j = i
  · subst hji
    rw [hi] at hj
    cases hj
    apply hnone x
    refine ⟨?_, by rw [hx, hg, hgen]⟩
    rw [hcalls]
    exact (Slots.mem_set_iff hi).mpr (.inl rfl)
  · apply hnone d
    refine ⟨?_, by rw [hg, hgen]⟩
    rw [hcalls]
    exact (Slots.mem_set_iff hi).mpr (.inr ⟨j, hji, hj⟩)

/-- A call draws a generation, and is ready. -/
theorem Kept.draw (h : Kept s) (hrows : t.rows = s.rows) (hcalls : t.calls = s.calls ++ [c])
    (hgen : t.hydrateGeneration = s.hydrateGeneration + 1) (hused : s.usedIds ⊆ t.usedIds)
    (hshown : t.shown = s.shown) (hc : c.gen = some t.hydrateGeneration)
    (hready : SameRows s t → Ready t c) : Kept t := by
  have hremove : ∀ noteId served, Call.remove noteId served ∈ t.calls ↔
      Call.remove noteId served ∈ s.calls := by
    intro noteId served
    rw [hcalls, List.mem_append, List.mem_singleton, or_iff_left (ne_remove_of_gen hc noteId served)]
  have hsame : SameRows s t := ⟨hrows, fun noteId => hremove noteId true⟩
  have hdrawn := h.drawn.push (hgen ▸ hc)
  have hmem : c ∈ t.calls := by
    rw [hcalls]
    exact List.mem_append_right _ (List.mem_singleton_self c)
  constructor
  case rowIds => exact hrows ▸ h.rowIds
  case shownIds => exact hshown ▸ h.shownIds
  case used =>
    rw [hrows]
    exact fun n hn => hused (h.used n hn)
  case removeUsed => exact fun noteId served hr => hused (h.removeUsed noteId served ((hremove _ _).mp hr))
  case removed =>
    rw [hrows]
    exact fun noteId hr => h.removed noteId ((hsame.removing noteId).mp hr)
  case drawn =>
    rw [hgen, hcalls]
    exact hdrawn
  case ready =>
    rintro d ⟨hd, hg⟩
    rw [hcalls] at hd
    rcases List.mem_append.mp hd with hd | hd
    · have := h.drawn.le d hd _ hg
      omega
    · rw [List.mem_singleton.mp hd]
      exact hready hsame
  case idle => exact fun _ hnone => absurd ⟨hmem, hc⟩ (hnone c)

theorem Kept.hydrate (h : Kept s) : Kept (hydrate s) :=
  h.draw rfl rfl rfl (fun _ hid => hid) rfl rfl fun _ => trivial

theorem Kept.toggleSave (h : Kept s) (message : ChatMessage)
    (hsync : CalledInSync s (.toggleSave message)) : Kept (toggleSave s message) := by
  unfold NotesStore.toggleSave
  split
  · rename_i htoggle
    have hagrees := hsync htoggle
    dsimp only
    split
    · refine h.draw rfl rfl rfl (fun _ hid => hid) rfl rfl ?_
      intro hsame
      have hgood : Good s s.shown := ⟨h.shownIds, hagrees⟩
      exact ⟨h.shownIds, fun n _ hn => (hgood.congr hsame).agrees n hn, nofun⟩
    · refine h.draw rfl rfl rfl (fun _ hid => hid) rfl rfl ?_
      intro hsame
      have hgood : Good s s.shown := ⟨h.shownIds, hagrees⟩
      exact hgood.congr hsame
  · exact h

theorem Kept.addManualNote (h : Kept s) (content : Str)
    (hsync : CalledInSync s (.addManualNote content)) : Kept (addManualNote s content) := by
  unfold NotesStore.addManualNote
  split
  · exact h
  · rename_i hblank
    refine h.draw rfl rfl rfl (fun _ hid => hid) rfl rfl ?_
    intro hsame
    have hgood : Good s s.shown := ⟨h.shownIds, hsync (Bool.not_eq_true _ ▸ hblank)⟩
    exact hgood.congr hsame

theorem Kept.update (h : Kept s) (noteId : String) (change : Change) (hagrees : Agrees s s.shown) :
    Kept (update s noteId change) := by
  refine h.draw rfl rfl rfl (fun _ hid => List.mem_cons_of_mem _ hid) rfl rfl ?_
  intro hsame
  have hgood : Good s s.shown := ⟨h.shownIds, hagrees⟩
  exact hgood.congr hsame

theorem Kept.editNote (h : Kept s) (noteId : String) (content : Str)
    (hsync : CalledInSync s (.editNote noteId content)) : Kept (editNote s noteId content) := by
  unfold NotesStore.editNote
  split
  · exact h
  · rename_i hblank
    exact h.update noteId _ (hsync (Bool.not_eq_true _ ▸ hblank))

theorem Kept.remove (h : Kept s) (noteId : String) (hsync : CalledInSync s (.remove noteId)) :
    Kept (remove s noteId) := by
  have hsame : SameRows s (NotesStore.remove s noteId) := by
    refine ⟨rfl, fun id => ?_⟩
    show Call.remove id true ∈ s.calls ++ [Call.remove noteId false] ↔ _
    simp [Removing]
  constructor
  case rowIds => exact h.rowIds
  case shownIds => exact h.shownIds
  case used => exact fun n hn => List.mem_cons_of_mem _ (h.used n hn)
  case removeUsed =>
    intro id served hr
    rcases List.mem_append.mp hr with hr | hr
    · exact List.mem_cons_of_mem _ (h.removeUsed id served hr)
    · cases List.mem_singleton.mp hr
      exact List.mem_cons_self
  case removed => exact fun id hr => h.removed id ((hsame.removing id).mp hr)
  case drawn =>
    constructor
    · intro d hd g hg
      rcases List.mem_append.mp hd with hd | hd
      · exact h.drawn.le d hd g hg
      · rw [List.mem_singleton.mp hd] at hg
        cases hg
    · intro j k d e hj hk hd he
      rcases Slots.getElem?_append_eq_some.mp hj with hj | ⟨_, rfl⟩
      · rcases Slots.getElem?_append_eq_some.mp hk with hk | ⟨_, rfl⟩
        · exact h.drawn.unique j k d e hj hk hd he
        · cases he
      · cases hd
  case ready =>
    rintro d ⟨hd, hg⟩
    rcases List.mem_append.mp hd with hd | hd
    · exact (h.ready d ⟨hd, hg⟩).congr hsame rfl
    · rw [List.mem_singleton.mp hd] at hg
      cases hg
  case idle =>
    intro _ hnone
    by_cases hcalls : s.calls = []
    · have hgood : Good s s.shown := ⟨h.shownIds, hsync hcalls⟩
      exact hgood.congr hsame
    · refine (h.idle hcalls fun d hd => ?_).congr hsame
      exact hnone d ⟨List.mem_append_left _ hd.1, hd.2⟩

end Calls

section Served

variable {s t : Store} {c x : Call} {i : Nat}

/-- A call that has a generation moves on, and the rows may change for it. -/
theorem Kept.advance (h : Kept s) (hi : s.calls[i]? = some c) {gen : Nat}
    (hcalls : t.calls = s.calls.set i x) (hc : c.gen = some gen) (hx : x.gen = c.gen)
    (hgen : t.hydrateGeneration = s.hydrateGeneration) (hshown : t.shown = s.shown)
    (hused : s.usedIds ⊆ t.usedIds) (hrowIds : (Ids t.rows).Nodup)
    (hrowsUsed : ∀ n ∈ t.rows, n.id ∈ t.usedIds)
    (hremoved : ∀ noteId, Removing s noteId → ∀ n ∈ t.rows, n.id ≠ noteId)
    (hready : gen = s.hydrateGeneration → (∀ id, Removing t id ↔ Removing s id) → Ready t x)
    (hseen : gen ≠ s.hydrateGeneration →
      t.rows = s.rows ∨ Current s (.hydrate s.hydrateGeneration none)) : Kept t := by
  have hremove : ∀ noteId served, Call.remove noteId served ∈ t.calls ↔
      Call.remove noteId served ∈ s.calls := by
    intro noteId served
    rw [hcalls]
    exact Slots.mem_set_of_ne hi (ne_remove_of_gen hc noteId served)
      (ne_remove_of_gen (hx.trans hc) noteId served)
  have hremoving : ∀ id, Removing t id ↔ Removing s id := fun id => hremove id true
  constructor
  case rowIds => exact hrowIds
  case shownIds => exact hshown ▸ h.shownIds
  case used => exact hrowsUsed
  case removeUsed => exact fun id served hr => hused (h.removeUsed id served ((hremove id served).mp hr))
  case removed => exact fun id hr => hremoved id ((hremoving id).mp hr)
  case drawn =>
    rw [hgen, hcalls]
    exact h.drawn.set hi (.inr hx)
  case ready =>
    intro d hd
    rcases current_set hi hcalls hgen hd with ⟨rfl, hg⟩ | ⟨j, hj, hjd, hg⟩
    · rw [hx, hc] at hg
      exact hready (Option.some.inj hg) hremoving
    · -- another call is the current one
      have hother : gen ≠ s.hydrateGeneration := by
        rintro rfl
        exact hj (h.drawn.unique j i d c hjd hi hg hc)
      rcases hseen hother with hrows | ⟨hlisting, hl⟩
      · exact (h.ready d ⟨List.mem_of_getElem? hjd, hg⟩).congr ⟨hrows, hremoving⟩ hshown
      · obtain ⟨k, hk⟩ := List.mem_iff_getElem?.mp hlisting
        have hjk := h.drawn.unique j k d _ hjd hk hg hl
        rw [hjk, hk] at hjd
        cases hjd
        trivial
  case idle =>
    intro _ hnone
    have hnone' := noCurrent_of_set hi hcalls hgen hx hnone
    have hother : gen ≠ s.hydrateGeneration := by
      rintro rfl
      exact hnone' c ⟨List.mem_of_getElem? hi, hc⟩
    rcases hseen hother with hrows | hlisting
    · have hgood := h.idle (List.ne_nil_of_mem (List.mem_of_getElem? hi)) hnone'
      rw [← hshown] at hgood
      exact hgood.congr ⟨hrows, hremoving⟩
    · exact absurd hlisting (hnone' _)

theorem sortNotes_perm (notes : List Note) : (sortNotes notes).Perm notes :=
  List.mergeSort_perm notes noteBefore

theorem Kept.serveHydrate (h : Kept s) {gen : Nat} (hi : s.calls[i]? = some (.hydrate gen none)) :
    Kept (s.setCall i (.hydrate gen (some (sortNotes s.rows)))) := by
  refine h.advance hi rfl rfl rfl rfl rfl (fun _ hid => hid) h.rowIds h.used h.removed ?_ ?_
  · intro _ _
    refine ⟨?_, fun n _ => (sortNotes_perm s.rows).mem_iff⟩
    exact ((sortNotes_perm s.rows).map Note.id).nodup_iff.mpr h.rowIds
  · exact fun _ => .inl rfl

theorem Kept.serveUnsave (h : Kept s) {gen : Nat} {notes : List Note} {messageId noteId : String}
    (hi : s.calls[i]? = some (.unsave gen notes messageId noteId false))
    (hseen : gen ≠ s.hydrateGeneration → (∃ n ∈ s.rows, n.id = noteId) →
      Current s (.hydrate s.hydrateGeneration none)) :
    Kept ({ s with rows := without noteId s.rows }.setCall i
      (.unsave gen notes messageId noteId true)) := by
  have hmem : ∀ n ∈ without noteId s.rows, n ∈ s.rows := fun n hn => (mem_without.mp hn).1
  refine h.advance hi rfl rfl rfl rfl rfl (fun _ hid => hid) (nodup_without noteId h.rowIds)
    (fun n hn => h.used n (hmem n hn)) (fun id hr n hn => h.removed id hr n (hmem n hn)) ?_ ?_
  · intro hgen hremoving
    obtain ⟨hnodup, hagrees, _⟩ := h.ready _ ⟨List.mem_of_getElem? hi, congrArg some hgen⟩
    refine ⟨hnodup, fun n hid hn => ?_, fun _ n hn => (mem_without.mp hn).2⟩
    rw [hagrees n hid (mt (hremoving n.id).mpr hn)]
    exact (mem_without.trans (and_iff_left hid)).symm
  · intro hgen
    by_cases hrow : ∃ n ∈ s.rows, n.id = noteId
    · exact .inr (hseen hgen hrow)
    · left
      apply List.filter_eq_self.mpr
      intro n hn
      have hne : n.id ≠ noteId := fun hid => hrow ⟨n, hn, hid⟩
      simpa using hne

theorem create_id {m : Moment} {draft : Draft} {note : Note} (h : draft.create m = some note) :
    note.id = m.id := by
  cases draft with
  | chat message =>
    cases h
    rfl
  | manual content =>
    obtain ⟨_, h⟩ := (Option.ite_none_left_eq_some).mp h
    cases h
    rfl

/-- A good list has used ids only. -/
theorem Good.used (h : Kept s) {notes : List Note} (hg : Good s notes) {n : Note}
    (hn : n ∈ notes) : n.id ∈ s.usedIds := by
  by_cases hr : Removing s n.id
  · exact h.removeUsed _ _ hr
  · exact h.used n ((hg.agrees n hr).mp hn)

theorem Kept.serveInsert (h : Kept s) {gen : Nat} {notes : List Note} {draft : Draft} {note : Note}
    (hi : s.calls[i]? = some (.insert gen notes draft none)) (hfresh : note.id ∉ s.usedIds)
    (hseen : gen ≠ s.hydrateGeneration → Current s (.hydrate s.hydrateGeneration none)) :
    Kept ({ s with rows := note :: s.rows, usedIds := note.id :: s.usedIds }.setCall i
      (.insert gen notes draft (some note))) := by
  have hnew : ∀ n ∈ s.rows, n.id ≠ note.id := fun n hn hid => hfresh (hid ▸ h.used n hn)
  refine h.advance hi rfl rfl rfl rfl rfl (fun _ hid => List.mem_cons_of_mem _ hid) ?_ ?_ ?_ ?_ ?_
  · refine List.nodup_cons.mpr ⟨fun hmem => ?_, h.rowIds⟩
    obtain ⟨n, hn, hid⟩ := List.mem_map.mp hmem
    exact hnew n hn hid
  · intro n hn
    rcases List.mem_cons.mp hn with rfl | hn
    · exact List.mem_cons_self
    · exact List.mem_cons_of_mem _ (h.used n hn)
  · intro id hr n hn
    rcases List.mem_cons.mp hn with rfl | hn
    · rintro rfl
      exact hfresh (h.removeUsed _ _ hr)
    · exact h.removed id hr n hn
  · intro hgen hremoving
    have hgood : Good s notes := h.ready _ ⟨List.mem_of_getElem? hi, congrArg some hgen⟩
    refine ⟨List.nodup_cons.mpr ⟨fun hmem => ?_, hgood.nodup⟩, fun n hn => ?_⟩
    · obtain ⟨n, hn, hid⟩ := List.mem_map.mp hmem
      exact hfresh (hid ▸ hgood.used h hn)
    · show n ∈ note :: notes ↔ n ∈ note :: s.rows
      rw [List.mem_cons, List.mem_cons, hgood.agrees n (mt (hremoving n.id).mpr hn)]
  · exact fun hgen => .inr (hseen hgen)

theorem row?_eq_some (h : (Ids s.rows).Nodup) {noteId : String} {note : Note} :
    s.row? noteId = some note ↔ note ∈ s.rows ∧ note.id = noteId := by
  unfold Store.row?
  constructor
  · intro hrow
    exact ⟨List.mem_of_find?_eq_some hrow, by simpa using List.find?_some hrow⟩
  · rintro ⟨hnote, hid⟩
    cases hfind : s.rows.find? fun n => n.id = noteId with
    | none => exact absurd hid (by simpa using List.find?_eq_none.mp hfind note hnote)
    | some other =>
      have hother : other.id = noteId := by simpa using List.find?_some hfind
      rw [eq_of_mem_of_id h (List.mem_of_find?_eq_some hfind) hnote (hother.trans hid.symm)]

theorem apply_id {now : String} {change : Change} {row note : Note}
    (h : change.apply now row = some note) : note.id = row.id := by
  cases change with
  | content text =>
    obtain ⟨_, h⟩ := (Option.ite_none_left_eq_some).mp h
    cases h
    rfl
  | pinned value =>
    cases h
    rfl

theorem Good.but {notes : List Note} (h : Good s notes) (noteId : String) :
    GoodBut s noteId notes := by
  refine ⟨h.nodup, fun n _ hn => h.agrees n hn, fun hn => ?_⟩
  constructor
  · rintro ⟨n, hmem, rfl⟩
    exact ⟨n, (h.agrees n hn).mp hmem, rfl⟩
  · rintro ⟨n, hmem, rfl⟩
    exact ⟨n, (h.agrees n hn).mpr hmem, rfl⟩

theorem Kept.serveUpdate (h : Kept s) {gen : Nat} {noteId : String} {change : Change}
    {row note : Note} (hi : s.calls[i]? = some (.update gen noteId change .asked))
    (hrow : row ∈ s.rows) (hnote : row.id = noteId ∧ note.id = noteId)
    (hseen : gen ≠ s.hydrateGeneration → Current s (.hydrate s.hydrateGeneration none)) :
    Kept ({ s with rows := replace note s.rows }.setCall i (.update gen noteId change .done)) := by
  obtain ⟨hrowId, hnoteId⟩ := hnote
  -- every row has the id of one that was there
  have hback : ∀ n ∈ replace note s.rows, ∃ m ∈ s.rows, n.id = m.id := by
    intro n hn
    rcases mem_replace.mp hn with ⟨hn, _⟩ | ⟨rfl, _⟩
    · exact ⟨n, hn, rfl⟩
    · exact ⟨row, hrow, hnoteId.trans hrowId.symm⟩
  refine h.advance hi rfl rfl rfl rfl rfl (fun _ hid => hid) ?_ ?_ ?_ ?_ ?_
  · show (Ids (replace note s.rows)).Nodup
    rw [ids_replace]
    exact h.rowIds
  · intro n hn
    obtain ⟨m, hm, hid⟩ := hback n hn
    exact hid ▸ h.used m hm
  · intro id hr n hn
    obtain ⟨m, hm, hid⟩ := hback n hn
    exact hid ▸ h.removed id hr m hm
  · intro hgen hremoving
    have hgood : Good s s.shown := h.ready _ ⟨List.mem_of_getElem? hi, congrArg some hgen⟩
    have hbut := hgood.but noteId
    refine ⟨hbut.nodup, fun n hid hn => ?_, fun hn => ?_⟩
    · have hrows := hbut.agrees n hid (mt (hremoving n.id).mpr hn)
      show n ∈ s.shown ↔ n ∈ replace note s.rows
      rw [hrows, mem_replace, hnoteId]
      constructor
      · exact fun hn => .inl ⟨hn, hid⟩
      · rintro (⟨hn, _⟩ | ⟨rfl, _⟩)
        · exact hn
        · exact absurd hnoteId hid
    · refine (hbut.present (mt (hremoving noteId).mpr hn)).trans ?_
      refine iff_of_true ⟨row, hrow, hrowId⟩ ⟨note, ?_, hnoteId⟩
      exact mem_replace.mpr (.inr ⟨rfl, row, hrow, hrowId.trans hnoteId.symm⟩)
  · exact fun hgen => .inr (hseen hgen)

theorem Kept.serveRead (h : Kept s) {gen : Nat} {noteId : String} {change : Change} {note : Note}
    (hi : s.calls[i]? = some (.update gen noteId change .done)) (hrow : s.row? noteId = some note) :
    Kept (s.setCall i (.update gen noteId change (.read note))) := by
  refine h.advance hi rfl rfl rfl rfl rfl (fun _ hid => hid) h.rowIds h.used h.removed ?_ ?_
  · intro hgen hremoving
    have hbut : GoodBut s noteId s.shown := h.ready _ ⟨List.mem_of_getElem? hi, congrArg some hgen⟩
    obtain ⟨hnote, hid⟩ := (row?_eq_some h.rowIds).mp hrow
    have hsame : SameRows s (s.setCall i (.update gen noteId change (.read note))) :=
      ⟨rfl, hremoving⟩
    refine ⟨hbut.congr hsame, hid, fun n hn hnid => ?_⟩
    exact eq_of_mem_of_id h.rowIds hn hnote (hnid.trans hid.symm)
  · exact fun _ => .inl rfl

/-- A removal leaves every list good. -/
theorem Kept.serveRemove (h : Kept s) {noteId : String}
    (hi : s.calls[i]? = some (.remove noteId false)) :
    Kept ({ s with rows := without noteId s.rows }.setCall i (.remove noteId true)) := by
  have hmem : ∀ n ∈ without noteId s.rows, n ∈ s.rows := fun n hn => (mem_without.mp hn).1
  have hremoving : ∀ id, Call.remove id true ∈ s.calls.set i (.remove noteId true) ↔
      id = noteId ∨ Removing s id := by
    intro id
    by_cases hid : id = noteId
    · subst hid
      exact iff_of_true ((Slots.mem_set_iff hi).mpr (.inl rfl)) (.inl rfl)
    · rw [Slots.mem_set_of_ne hi (by simp) (by simpa using hid), or_iff_right hid]
      rfl
  -- apart from the note that is going, the rows are as they were
  have hagrees : ∀ n, ¬ (n.id = noteId ∨ Removing s n.id) →
      (n ∈ without noteId s.rows ↔ n ∈ s.rows) := by
    intro n hn
    exact mem_without.trans (and_iff_left fun hid => hn (.inl hid))
  have hgood : ∀ notes, Good s notes →
      Good ({ s with rows := without noteId s.rows }.setCall i (.remove noteId true)) notes := by
    intro notes hg
    refine ⟨hg.nodup, fun n hn => ?_⟩
    have hn' := mt (hremoving n.id).mpr hn
    exact (hg.agrees n fun hr => hn' (.inr hr)).trans (hagrees n hn').symm
  have hbut : ∀ id notes, GoodBut s id notes →
      GoodBut ({ s with rows := without noteId s.rows }.setCall i (.remove noteId true)) id notes := by
    intro id notes hg
    refine ⟨hg.nodup, fun n hid hn => ?_, fun hn => ?_⟩
    · have hn' := mt (hremoving n.id).mpr hn
      exact (hg.agrees n hid fun hr => hn' (.inr hr)).trans (hagrees n hn').symm
    · have hn' := mt (hremoving id).mpr hn
      refine (hg.present fun hr => hn' (.inr hr)).trans ?_
      constructor
      · rintro ⟨n, hrow, rfl⟩
        exact ⟨n, (hagrees n hn').mpr hrow, rfl⟩
      · rintro ⟨n, hrow, hid⟩
        exact ⟨n, hmem n hrow, hid⟩
  have hcurrent : ∀ d, Current ({ s with rows := without noteId s.rows }.setCall i
      (.remove noteId true)) d → Current s d := by
    rintro d ⟨hd, hg⟩
    exact ⟨Slots.mem_of_mem_set hi hd (ne_remove_of_gen hg noteId true).symm, hg⟩
  constructor
  case rowIds => exact nodup_without noteId h.rowIds
  case shownIds => exact h.shownIds
  case used => exact fun n hn => h.used n (hmem n hn)
  case removeUsed =>
    intro id served hr
    rcases (Slots.mem_set_iff hi).mp hr with heq | ⟨j, _, hj⟩
    · cases heq
      exact h.removeUsed noteId false (List.mem_of_getElem? hi)
    · exact h.removeUsed id served (List.mem_of_getElem? hj)
  case removed =>
    intro id hr n hn
    rcases (hremoving id).mp hr with rfl | hr
    · exact (mem_without.mp hn).2
    · exact h.removed id hr n (hmem n hn)
  case drawn => exact h.drawn.set hi (.inl rfl)
  case ready =>
    intro d hd
    have hready := h.ready d (hcurrent d hd)
    cases d with
    | hydrate gen rows =>
      cases rows with
      | none => trivial
      | some rows => exact hgood rows hready
    | unsave gen notes messageId id served =>
      obtain ⟨hnodup, hnotes, hserved⟩ := hready
      refine ⟨hnodup, fun n hid hn => ?_, fun hs n hn => hserved hs n (hmem n hn)⟩
      have hn' := mt (hremoving n.id).mpr hn
      exact (hnotes n hid fun hr => hn' (.inr hr)).trans (hagrees n hn').symm
    | insert gen notes draft saved => exact hgood _ hready
    | remove id served => trivial
    | settled => trivial
    | update gen id change state =>
      cases state with
      | asked => exact hgood _ hready
      | done => exact hbut id _ hready
      | read note =>
        exact ⟨hbut id _ hready.1, hready.2.1, fun n hn => hready.2.2 n (hmem n hn)⟩
  case idle =>
    intro _ hnone
    apply hgood
    apply h.idle (List.ne_nil_of_mem (List.mem_of_getElem? hi))
    rintro d ⟨hd, hg⟩
    refine hnone d ⟨?_, hg⟩
    exact (Slots.mem_set_of_ne hi (ne_remove_of_gen hg noteId false).symm
      (ne_remove_of_gen hg noteId true).symm).mpr hd

theorem Kept.serve (h : Kept s) (i : Nat) (m : Moment) (hseen : OvertakenSeen s (.serve i m)) :
    Kept (serve s i m) := by
  unfold NotesStore.serve
  split
  · rename_i gen hi
    exact h.serveHydrate hi
  · rename_i gen notes messageId noteId hi
    exact h.serveUnsave hi fun hgen hrow => hseen _ gen hi rfl hgen hrow
  · rename_i noteId hi
    exact h.serveRemove hi
  · rename_i gen notes draft hi
    split
    · rename_i note hnote
      split
      · exact h
      · rename_i hfresh
        rw [← create_id hnote] at hfresh ⊢
        exact h.serveInsert hi hfresh fun hgen => hseen _ gen hi rfl hgen trivial
    · exact h
  · rename_i gen noteId change hi
    split
    · rename_i note hnote
      obtain ⟨row, hrow, happly⟩ := Option.bind_eq_some_iff.mp hnote
      obtain ⟨hmem, hid⟩ := (row?_eq_some h.rowIds).mp hrow
      exact h.serveUpdate hi hmem ⟨hid, (apply_id happly).trans hid⟩ fun hgen =>
        hseen _ gen hi rfl hgen trivial
    · exact h
  · rename_i gen noteId change hi
    split
    · rename_i note hrow
      exact h.serveRead hi hrow
    · exact h
  · exact h

end Served

section Replies

variable {s t : Store} {c : Call} {i : Nat}

/-- The reply of an overtaken call changes nothing. -/
theorem Kept.dropped (h : Kept s) (hi : s.calls[i]? = some c) {gen : Nat}
    (hcalls : t.calls = s.calls.set i .settled) (hc : c.gen = some gen)
    (hother : gen ≠ s.hydrateGeneration) (hgen : t.hydrateGeneration = s.hydrateGeneration)
    (hrows : t.rows = s.rows) (hshown : t.shown = s.shown) (hused : t.usedIds = s.usedIds) :
    Kept t := by
  have hremove : ∀ noteId served, Call.remove noteId served ∈ t.calls ↔
      Call.remove noteId served ∈ s.calls := by
    intro noteId served
    rw [hcalls]
    exact Slots.mem_set_of_ne hi (ne_remove_of_gen hc noteId served) nofun
  have hsame : SameRows s t := ⟨hrows, fun id => hremove id true⟩
  constructor
  case rowIds => exact hrows ▸ h.rowIds
  case shownIds => exact hshown ▸ h.shownIds
  case used =>
    rw [hrows, hused]
    exact h.used
  case removeUsed => exact fun id served hr => hused ▸ h.removeUsed id served ((hremove id served).mp hr)
  case removed =>
    rw [hrows]
    exact fun id hr => h.removed id ((hremove id true).mp hr)
  case drawn =>
    rw [hgen, hcalls]
    exact h.drawn.set hi (.inl rfl)
  case ready =>
    intro d hd
    rcases current_set hi hcalls hgen hd with ⟨rfl, hg⟩ | ⟨j, _, hj, hg⟩
    · cases hg
    · exact (h.ready d ⟨List.mem_of_getElem? hj, hg⟩).congr hsame hshown
  case idle =>
    intro _ hnone
    have hgood : Good s s.shown := by
      apply h.idle (List.ne_nil_of_mem (List.mem_of_getElem? hi))
      rintro d ⟨hd, hg⟩
      apply hnone d
      refine ⟨?_, by rw [hg, hgen]⟩
      rw [hcalls]
      apply (Slots.mem_set_of_ne hi _ _).mpr hd
      · rintro rfl
        exact hother (Option.some.inj (hc.symm.trans hg))
      · rintro rfl
        cases hg
    rw [← hshown] at hgood
    exact hgood.congr hsame

/-- The reply of the current call brings a good list. -/
theorem Kept.answered (h : Kept s) (hi : s.calls[i]? = some c)
    (hcalls : t.calls = s.calls.set i .settled) (hc : c.gen = some s.hydrateGeneration)
    (hgen : t.hydrateGeneration = s.hydrateGeneration) (hrows : t.rows = s.rows)
    (hused : t.usedIds = s.usedIds) (hshown : Good s t.shown) : Kept t := by
  have hremove : ∀ noteId served, Call.remove noteId served ∈ t.calls ↔
      Call.remove noteId served ∈ s.calls := by
    intro noteId served
    rw [hcalls]
    exact Slots.mem_set_of_ne hi (ne_remove_of_gen hc noteId served) nofun
  have hsame : SameRows s t := ⟨hrows, fun id => hremove id true⟩
  constructor
  case rowIds => exact hrows ▸ h.rowIds
  case shownIds => exact hshown.nodup
  case used =>
    rw [hrows, hused]
    exact h.used
  case removeUsed => exact fun id served hr => hused ▸ h.removeUsed id served ((hremove id served).mp hr)
  case removed =>
    rw [hrows]
    exact fun id hr => h.removed id ((hremove id true).mp hr)
  case drawn =>
    rw [hgen, hcalls]
    exact h.drawn.set hi (.inl rfl)
  case ready =>
    intro d hd
    rcases current_set hi hcalls hgen hd with ⟨rfl, hg⟩ | ⟨j, hj, hjd, hg⟩
    · cases hg
    · exact absurd (h.drawn.unique j i d c hjd hi hg hc) hj
  case idle => exact fun _ _ => hshown.congr hsame

/-- The reply of a removal takes the note out, and no list to come has it. -/
theorem Kept.replyRemove (h : Kept s) {noteId : String}
    (hi : s.calls[i]? = some (.remove noteId true))
    (hgone : ∀ c, Current s c → ∀ n ∈ c.brings, n.id ≠ noteId) :
    Kept ({ s with notes := s.notes.map (without noteId) }.setCall i .settled) := by
  have hrow : ∀ n ∈ s.rows, n.id ≠ noteId := h.removed noteId (List.mem_of_getElem? hi)
  have hback : ∀ id, ¬ Removing ({ s with notes := s.notes.map (without noteId) }.setCall i
      .settled) id → id ≠ noteId → ¬ Removing s id := by
    intro id hn hid hr
    apply hn
    have hset : Call.remove id true ∈ s.calls.set i .settled :=
      (Slots.mem_set_of_ne hi (by simpa using hid) (by simp)).mpr hr
    exact hset
  have hshown : ({ s with notes := s.notes.map (without noteId) }.setCall i .settled).shown =
      without noteId s.shown := by
    show (s.notes.map (without noteId)).getD [] = without noteId (s.notes.getD [])
    cases s.notes <;> rfl
  -- a list without the note stays good
  have hgood : ∀ notes, Good s notes → (∀ n ∈ notes, n.id ≠ noteId) →
      Good ({ s with notes := s.notes.map (without noteId) }.setCall i .settled) notes := by
    intro notes hg hnotes
    refine ⟨hg.nodup, fun n hn => ?_⟩
    by_cases hid : n.id = noteId
    · exact iff_of_false (fun hmem => hnotes n hmem hid) fun hmem => hrow n hmem hid
    · exact hg.agrees n (hback n.id hn hid)
  have hfilter : ∀ notes, Good s notes → Good s (without noteId notes) := by
    intro notes hg
    refine ⟨nodup_without noteId hg.nodup, fun n hn => ?_⟩
    rw [mem_without, hg.agrees n hn]
    exact and_iff_left_of_imp (hrow n)
  have hbut : ∀ id, GoodBut s id s.shown →
      GoodBut ({ s with notes := s.notes.map (without noteId) }.setCall i .settled) id
        (without noteId s.shown) := by
    intro id hg
    refine ⟨nodup_without noteId hg.nodup, fun n hne hn => ?_, fun hn => ?_⟩
    · rw [mem_without]
      by_cases hid : n.id = noteId
      · exact iff_of_false (fun hmem => hmem.2 hid) fun hmem => hrow n hmem hid
      · rw [and_iff_left hid]
        exact hg.agrees n hne (hback n.id hn hid)
    · by_cases hid : id = noteId
      · subst hid
        constructor
        · rintro ⟨n, hmem, hnid⟩
          exact absurd hnid (mem_without.mp hmem).2
        · rintro ⟨n, hmem, hnid⟩
          exact absurd hnid (hrow n hmem)
      · refine Iff.trans ?_ (hg.present (hback id hn hid))
        constructor
        · rintro ⟨n, hmem, hnid⟩
          exact ⟨n, (mem_without.mp hmem).1, hnid⟩
        · rintro ⟨n, hmem, hnid⟩
          exact ⟨n, mem_without.mpr ⟨hmem, fun heq => hid (hnid.symm.trans heq)⟩, hnid⟩
  constructor
  case rowIds => exact h.rowIds
  case shownIds => exact hshown ▸ nodup_without noteId h.shownIds
  case used => exact h.used
  case removeUsed =>
    exact fun id served hr => h.removeUsed id served (Slots.mem_of_mem_set hi hr nofun)
  case removed => exact fun id hr => h.removed id (Slots.mem_of_mem_set hi hr nofun)
  case drawn => exact h.drawn.set hi (.inl rfl)
  case ready =>
    rintro d ⟨hd, hg⟩
    have hcurrent : Current s d := by
      refine ⟨Slots.mem_of_mem_set hi hd ?_, hg⟩
      rintro rfl
      cases hg
    have hready := h.ready d hcurrent
    have hbrings := hgone d hcurrent
    cases d with
    | hydrate gen rows =>
      cases rows with
      | none => trivial
      | some rows => exact hgood rows hready hbrings
    | unsave gen notes messageId id served =>
      obtain ⟨hnodup, hnotes, hserved⟩ := hready
      refine ⟨hnodup, fun n hne hn => ?_, hserved⟩
      by_cases hid : n.id = noteId
      · refine iff_of_false (fun hmem => ?_) fun hmem => hrow n hmem hid
        exact hbrings n (mem_without.mpr ⟨hmem, hne⟩) hid
      · exact hnotes n hne (hback n.id hn hid)
    | insert gen notes draft saved => exact hgood _ hready hbrings
    | remove id served => trivial
    | settled => trivial
    | update gen id change state =>
      cases state with
      | asked =>
        show Good _ (Store.shown _)
        rw [hshown]
        exact hgood _ (hfilter _ hready) fun n hn => (mem_without.mp hn).2
      | done =>
        show GoodBut _ id (Store.shown _)
        rw [hshown]
        exact hbut id hready
      | read note =>
        refine ⟨?_, hready.2⟩
        rw [hshown]
        exact hbut id hready.1
  case idle =>
    intro _ hnone
    rw [hshown]
    apply hgood _ (hfilter _ _) fun n hn => (mem_without.mp hn).2
    apply h.idle (List.ne_nil_of_mem (List.mem_of_getElem? hi))
    rintro d ⟨hd, hg⟩
    refine hnone d ⟨?_, hg⟩
    apply (Slots.mem_set_of_ne hi _ _).mpr hd
    · exact (ne_remove_of_gen hg noteId true).symm
    · rintro rfl
      cases hg

/-- The updated row takes its place in the list. -/
theorem GoodBut.replace {noteId : String} {notes : List Note} {note : Note}
    (hg : GoodBut s noteId notes) (hid : note.id = noteId)
    (hrow : ∀ n ∈ s.rows, n.id = noteId → n = note) : Good s (replace note notes) := by
  refine ⟨by rw [ids_replace]; exact hg.nodup, fun n hn => ?_⟩
  rw [mem_replace, hid]
  by_cases hne : n.id = noteId
  · rw [hne] at hn
    constructor
    · rintro (⟨_, hn'⟩ | ⟨rfl, hmem⟩)
      · exact absurd hne hn'
      · obtain ⟨m, hm, hmid⟩ := (hg.present hn).mp hmem
        exact hrow m hm hmid ▸ hm
    · intro hmem
      exact .inr ⟨hrow n hmem hne, (hg.present hn).mpr ⟨n, hmem, hne⟩⟩
  · rw [← hg.agrees n hne hn]
    constructor
    · rintro (⟨hmem, _⟩ | ⟨rfl, _⟩)
      · exact hmem
      · exact absurd hid hne
    · exact fun hmem => .inl ⟨hmem, hne⟩

theorem Good.sort {notes : List Note} (h : Good s notes) : Good s (sortNotes notes) := by
  refine ⟨((sortNotes_perm notes).map Note.id).nodup_iff.mpr h.nodup, fun n hn => ?_⟩
  rw [(sortNotes_perm notes).mem_iff]
  exact h.agrees n hn

theorem Kept.reply (h : Kept s) (i : Nat) (hgone : RemovedForGood s (.reply i)) :
    Kept (reply s i) := by
  unfold NotesStore.reply
  split
  · rename_i gen rows hi
    dsimp only
    split
    · rename_i hgen
      exact h.dropped hi rfl rfl (Ne.symm hgen) rfl rfl rfl rfl
    · rename_i hgen
      obtain rfl : s.hydrateGeneration = gen := not_not.mp hgen
      exact h.answered hi rfl rfl rfl rfl rfl (h.ready _ ⟨List.mem_of_getElem? hi, rfl⟩)
  · rename_i gen notes messageId noteId hi
    dsimp only
    split
    · rename_i hgen
      exact h.dropped hi rfl rfl (Ne.symm hgen) rfl rfl rfl rfl
    · rename_i hgen
      obtain rfl : s.hydrateGeneration = gen := not_not.mp hgen
      refine h.answered hi rfl rfl rfl rfl rfl ?_
      obtain ⟨hnodup, hnotes, hserved⟩ := h.ready _ ⟨List.mem_of_getElem? hi, rfl⟩
      refine ⟨nodup_without noteId hnodup, fun n hn => ?_⟩
      show n ∈ without noteId notes ↔ n ∈ s.rows
      rw [mem_without]
      constructor
      · rintro ⟨hmem, hid⟩
        exact (hnotes n hid hn).mp hmem
      · intro hmem
        have hid := hserved rfl n hmem
        exact ⟨(hnotes n hid hn).mpr hmem, hid⟩
  · rename_i gen notes draft saved hi
    dsimp only
    split
    · rename_i hgen
      exact h.dropped hi rfl rfl (Ne.symm hgen) rfl rfl rfl rfl
    · rename_i hgen
      obtain rfl : s.hydrateGeneration = gen := not_not.mp hgen
      exact h.answered hi rfl rfl rfl rfl rfl (h.ready _ ⟨List.mem_of_getElem? hi, rfl⟩)
  · rename_i noteId hi
    exact h.replyRemove hi (hgone noteId hi)
  · rename_i gen noteId change note hi
    dsimp only
    split
    · rename_i hgen
      exact h.dropped hi rfl rfl (Ne.symm hgen) rfl rfl rfl rfl
    · rename_i hgen
      obtain rfl : s.hydrateGeneration = gen := not_not.mp hgen
      obtain ⟨hbut, hid, hrow⟩ := h.ready _ ⟨List.mem_of_getElem? hi, rfl⟩
      have hreplaced := hbut.replace hid hrow
      have hshown : ((s.notes.map fun notes => notes.map fun n =>
          if n.id = noteId then note else n).getD []) = replace note s.shown := by
        unfold Store.shown NotesStore.replace
        rw [hid]
        cases s.notes <;> rfl
      split
      · refine h.answered hi rfl rfl rfl rfl rfl ?_
        rw [← hshown] at hreplaced
        exact hreplaced
      · refine h.answered hi rfl rfl rfl rfl rfl ?_
        have hsorted : ((s.notes.map fun notes => notes.map fun n =>
            if n.id = noteId then note else n).map sortNotes).getD [] =
              sortNotes (replace note s.shown) := by
          rw [← hshown]
          cases s.notes with
          | none => simp [sortNotes]
          | some notes => rfl
        have hgood := hreplaced.sort
        rw [← hsorted] at hgood
        exact hgood
  · exact h

end Replies

section Runs

variable {s : Store}

theorem Kept.step (h : Kept s) (e : Event) (horderly : Orderly s e) : Kept (step s e) := by
  cases e with
  | hydrate => exact h.hydrate
  | toggleSave message => exact h.toggleSave message horderly.called
  | addManualNote content => exact h.addManualNote content horderly.called
  | editNote noteId content => exact h.editNote noteId content horderly.called
  | setPinned noteId pinned => exact h.update noteId _ horderly.called
  | remove noteId => exact h.remove noteId horderly.called
  | serve i m => exact h.serve i m horderly.overtaken
  | reply i => exact h.reply i horderly.removed

/-- In an orderly run the notes are the rows of the database whenever all calls have settled. -/
theorem notes_converge (rows : List Note) (hrows : (rows.map Note.id).Nodup) (events : List Event)
    (horderly : Along step Orderly (Store.start rows) events) :
    Throughout step (fun s => s.calls ≠ [] → Settled s → Converged s) (Store.start rows) events := by
  have hkept : Throughout step Kept (Store.start rows) events :=
    horderly.throughout (fun _ e h he => h.step e he) (kept_start hrows)
  exact hkept.mono fun _ h hne hs => h.converged hne hs

/-- A note of the database, a moment, and a message to be saved. -/
def oldNote : Note :=
  ⟨"n0", .manual, "old".toList, none, none, none, "2026-01-01", "2026-01-01", false⟩

def laterMoment : Moment := ⟨"2026-01-02", "n1", fun _ => none⟩

def savedMessage : ChatMessage := ⟨"m1", "answer".toList, none⟩

/-- The notebook is listed, and its note removed. -/
def listedAndRemoved : List Event :=
  [.hydrate, .serve 0 laterMoment, .reply 0, .remove "n0", .serve 1 laterMoment, .reply 1]

theorem notes_converge_removed : Throughout step
    (fun s => s.calls ≠ [] → Settled s → Converged s) (Store.start [oldNote]) listedAndRemoved := by
  apply notes_converge [oldNote] (by decide)
  refine ⟨⟨trivial, trivial, trivial⟩, ⟨trivial, ?_, trivial⟩, ⟨trivial, trivial, ?_⟩,
    ⟨nofun, trivial, trivial⟩, ⟨trivial, ?_, trivial⟩, ⟨trivial, trivial, ?_⟩, trivial⟩
  · intro c gen hc hgen hne
    cases hc
    cases hgen
    exact absurd rfl hne
  · intro noteId hc
    cases hc
  · intro c gen hc hgen
    cases hc
    cases hgen
  · intro noteId hc c hcurrent
    obtain ⟨hmem, hgen⟩ := hcurrent
    rcases List.mem_cons.mp hmem with rfl | hmem
    · cases hgen
    · rw [List.mem_singleton.mp hmem] at hgen
      cases hgen

/-- A message is saved while the first listing is on its way: the listing is dropped. -/
def savedBeforeListing : List Event :=
  [.hydrate, .toggleSave savedMessage, .serve 0 laterMoment, .reply 0, .serve 1 laterMoment, .reply 1]

/-- Two messages are saved at once: the reply of the first one is dropped. -/
def savedTogether : List Event :=
  [.hydrate, .serve 0 laterMoment, .reply 0, .toggleSave savedMessage,
    .toggleSave { savedMessage with id := "m2" }, .serve 1 laterMoment,
    .serve 2 { laterMoment with id := "n2" }, .reply 1, .reply 2]

/-- A listing is read, a removal overtakes it, and the listing brings the note back. -/
def removedDuringListing : List Event :=
  [.hydrate, .serve 0 laterMoment, .remove "n0", .serve 1 laterMoment, .reply 1, .reply 0]

/-- All calls have settled, and a note is missing, a saved message is, or a removed note is shown. -/
theorem overlaps_diverge :
    (Settled (after step (Store.start [oldNote]) savedBeforeListing) ∧
      ¬ Converged (after step (Store.start [oldNote]) savedBeforeListing)) ∧
    (Settled (after step (Store.start [oldNote]) savedTogether) ∧
      ¬ Converged (after step (Store.start [oldNote]) savedTogether)) ∧
    Settled (after step (Store.start [oldNote]) removedDuringListing) ∧
      ¬ Converged (after step (Store.start [oldNote]) removedDuringListing) := by
  -- the lists differ in length
  have hlength : ∀ s, s.shown.length ≠ s.rows.length → ¬ Converged s :=
    fun s hne h => hne h.notes.length_eq
  refine ⟨⟨?_, hlength _ ?_⟩, ⟨?_, hlength _ ?_⟩, ?_, hlength _ ?_⟩
  all_goals decide +kernel

end Runs

end LensLM.NotesStore
