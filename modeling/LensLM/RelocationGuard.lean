import LensLM.Relocation

/-!
# What the guard of the cleanup sees

The guard compares the times at which two files were written. Commits go to a log first, so that
it sees those of the old database that a checkpoint has brought into its file, and no others.
-/

namespace LensLM

open ByteText

namespace Relocate

set_option autoImplicit false

section Waiting

/-- What a commit leaves in a database. -/
structure Rows where
  sources : List Str
  activeTables : List Str
  readyAudio : List AudioPath

def LensDb.commit (rows : Rows) (db : LensDb) : LensDb where
  sources := rows.sources
  activeTables := rows.activeTables
  readyAudio := rows.readyAudio
  modified := db.modified
  log := true

/-- Brings the log, if there is one, into the file. -/
def LensDb.checkpoint (now : Nat) (db : LensDb) : LensDb :=
  if db.log then { db with modified := now, log := false } else db

/-- The two directories from the snapshot on, with the time. -/
structure Copied where
  clock : Nat
  oldDb : LensDb
  newDb : LensDb
  oldFiles : DirData
  newFiles : DirData

/-- What happens between the snapshot and the cleanup: work in the old directory and its shutdown,
the rest of the relocation, and the start on the new one. -/
inductive CopyEvent where
  | oldCommit (rows : Rows)
  | oldCheckpoint
  | oldFiles (data : DirData)
  | newCommit (rows : Rows)
  | newCheckpoint
  | newFiles (data : DirData)

/-- An event some time later. -/
def Copied.step (w : Copied) (gap : Nat) (e : CopyEvent) : Copied :=
  let now := w.clock + gap
  match e with
  | .oldCommit rows => { w with clock := now, oldDb := w.oldDb.commit rows }
  | .oldCheckpoint => { w with clock := now, oldDb := w.oldDb.checkpoint now }
  | .oldFiles data => { w with clock := now, oldFiles := data }
  | .newCommit rows => { w with clock := now, newDb := w.newDb.commit rows }
  | .newCheckpoint => { w with clock := now, newDb := w.newDb.checkpoint now }
  | .newFiles data => { w with clock := now, newFiles := data }

def Copied.run (w : Copied) : List (Nat × CopyEvent) → Copied
  | [] => w
  | (gap, e) :: events => (w.step gap e).run events

def Copied.old (w : Copied) : DirData := { w.oldFiles with db := some w.oldDb }

def Copied.new (w : Copied) : DirData := { w.newFiles with db := some w.newDb }

/-- The pointer names the new directory, and the marker the old one. -/
def Copied.storage (oldDir newDir : Path) (w : Copied) : Storage where
  dirs := Function.update (Function.update (fun _ => none) newDir (some w.new)) oldDir (some w.old)
  location := some ⟨newDir, some oldDir⟩

/-- No checkpoint writes the new file. -/
def Copied.NewRests (w : Copied) : List (Nat × CopyEvent) → Prop
  | [] => True
  | (gap, e) :: events => ¬ (e = .newCheckpoint ∧ w.newDb.log = true) ∧
    (w.step gap e).NewRests events

/-- A checkpoint writes the old file strictly after the new one was written, and none writes the new
one after that. -/
def Copied.OldLast (w : Copied) : List (Nat × CopyEvent) → Prop
  | [] => False
  | (gap, e) :: events =>
    (e = .oldCheckpoint ∧ w.oldDb.log = true ∧ w.newDb.modified < w.clock + gap ∧
      (w.step gap e).NewRests events) ∨ (w.step gap e).OldLast events

/-- The files are not from the future. -/
structure Copied.Past (w : Copied) : Prop where
  old : w.oldDb.modified ≤ w.clock
  new : w.newDb.modified ≤ w.clock

variable {w : Copied}

theorem modified_checkpoint (now : Nat) (db : LensDb) :
    (db.checkpoint now).modified = if db.log then now else db.modified := by
  unfold LensDb.checkpoint
  split
  · rfl
  · rfl

theorem Copied.Past.step (h : w.Past) (gap : Nat) (e : CopyEvent) : (w.step gap e).Past := by
  have hold := h.old
  have hnew := h.new
  cases e with
  | oldCheckpoint =>
    refine ⟨?_, ?_⟩
    · show (w.oldDb.checkpoint (w.clock + gap)).modified ≤ w.clock + gap
      rw [modified_checkpoint]
      split
      · omega
      · omega
    · show w.newDb.modified ≤ w.clock + gap
      omega
  | newCheckpoint =>
    refine ⟨?_, ?_⟩
    · show w.oldDb.modified ≤ w.clock + gap
      omega
    · show (w.newDb.checkpoint (w.clock + gap)).modified ≤ w.clock + gap
      rw [modified_checkpoint]
      split
      · omega
      · omega
  | oldCommit | oldFiles | newCommit | newFiles =>
    refine ⟨?_, ?_⟩
    · show w.oldDb.modified ≤ w.clock + gap
      omega
    · show w.newDb.modified ≤ w.clock + gap
      omega

/-- The old file is newer in the end if it is written last, or is newer now and the new one is not
written any more. -/
theorem newer_run_iff (h : w.Past) (events : List (Nat × CopyEvent)) :
    (w.run events).newDb.modified < (w.run events).oldDb.modified ↔
      w.OldLast events ∨ (w.newDb.modified < w.oldDb.modified ∧ w.NewRests events) := by
  induction events generalizing w with
  | nil =>
    show w.newDb.modified < w.oldDb.modified ↔ False ∨ (w.newDb.modified < w.oldDb.modified ∧ True)
    rw [false_or, and_true]
  | cons event events ih =>
    obtain ⟨gap, e⟩ := event
    have hstep := ih (h.step gap e)
    have hold := h.old
    have hnew := h.new
    show ((w.step gap e).run events).newDb.modified < ((w.step gap e).run events).oldDb.modified ↔
      ((e = .oldCheckpoint ∧ w.oldDb.log = true ∧ w.newDb.modified < w.clock + gap ∧
        (w.step gap e).NewRests events) ∨ (w.step gap e).OldLast events) ∨
      (w.newDb.modified < w.oldDb.modified ∧ ¬ (e = .newCheckpoint ∧ w.newDb.log = true) ∧
        (w.step gap e).NewRests events)
    rw [hstep]
    cases e with
    | oldCommit | oldFiles | newCommit | newFiles =>
      simp only [reduceCtorEq, false_and, false_or, not_false_eq_true, true_and]
      exact Iff.rfl
    | oldCheckpoint =>
      simp only [reduceCtorEq, false_and, not_false_eq_true, true_and]
      have hn : (w.step gap .oldCheckpoint).newDb.modified = w.newDb.modified := rfl
      have ho : (w.step gap .oldCheckpoint).oldDb.modified =
        if w.oldDb.log then w.clock + gap else w.oldDb.modified := modified_checkpoint _ _
      rw [hn, ho]
      cases hlog : w.oldDb.log with
      | true =>
        rw [if_pos rfl]
        constructor
        · intro hl
          rcases hl with hl | hl
          · exact .inl (.inr hl)
          · exact .inl (.inl ⟨rfl, hl⟩)
        · intro hl
          rcases hl with (⟨_, hl⟩ | hl) | ⟨hlt, hr⟩
          · exact .inr hl
          · exact .inl hl
          · exact .inr ⟨by omega, hr⟩
      | false =>
        rw [if_neg Bool.false_ne_true]
        simp only [Bool.false_eq_true, false_and, false_or]
    | newCheckpoint =>
      simp only [reduceCtorEq, false_and, true_and, false_or]
      have hn : (w.step gap .newCheckpoint).newDb.modified =
        if w.newDb.log then w.clock + gap else w.newDb.modified := modified_checkpoint _ _
      have ho : (w.step gap .newCheckpoint).oldDb.modified = w.oldDb.modified := rfl
      rw [hn, ho]
      cases hlog : w.newDb.log with
      | true =>
        rw [if_pos rfl]
        constructor
        · intro hl
          rcases hl with hl | ⟨hlt, _⟩
          · exact .inl hl
          · omega
        · intro hl
          rcases hl with hl | ⟨_, hne, _⟩
          · exact .inl hl
          · exact absurd rfl hne
      | false =>
        rw [if_neg Bool.false_ne_true]
        simp only [Bool.false_eq_true, not_false_eq_true, true_and]

end Waiting

section Guard

variable (anchor oldDir newDir : Path)

/-- Whatever the cleanup can remove and write, it keeps the marker and all of the old directory but
`config.json`. -/
def Copied.Refuses (w : Copied) : Prop := ∀ x : BootChoice, x.missing = (fun _ => false) →
  (runBootCleanup anchor x newDir (w.storage oldDir newDir)).location =
      (w.storage oldDir newDir).location ∧
    ∃ config, (runBootCleanup anchor x newDir (w.storage oldDir newDir)).dirs oldDir =
      some { w.old with config }

/-- It keeps `config.json` too. -/
def Copied.LeavesAll (w : Copied) : Prop := ∀ x : BootChoice, x.missing = (fun _ => false) →
  (runBootCleanup anchor x newDir (w.storage oldDir newDir)).location =
      (w.storage oldDir newDir).location ∧
    (runBootCleanup anchor x newDir (w.storage oldDir newDir)).dirs oldDir = some w.old

def Copied.Verifies (w : Copied) : Prop :=
  verifyBeforeDelete newDir (some w.old) (some w.new) = .ok ()

variable {anchor oldDir newDir} {w : Copied} {x : BootChoice}

theorem seen_storage (hx : x.missing = fun _ => false) (d : Path) :
    (w.storage oldDir newDir).seen anchor x d = (w.storage oldDir newDir).dirs d := by
  unfold Storage.seen
  rw [hx]
  simp

theorem dirs_old : (w.storage oldDir newDir).dirs oldDir = some w.old := by
  unfold Copied.storage
  exact Function.update_self _ _ _

theorem dirs_new (hne : oldDir ≠ newDir) : (w.storage oldDir newDir).dirs newDir = some w.new := by
  unfold Copied.storage
  dsimp only
  rw [Function.update_of_ne hne.symm, Function.update_self]

theorem oldDirIsNewer_iff : oldDirIsNewer (some w.old) (some w.new) = true ↔
    w.newDb.modified < w.oldDb.modified := by
  unfold oldDirIsNewer Copied.old Copied.new
  simp

theorem runBootCleanup_refused (hne : oldDir ≠ newDir) (hx : x.missing = fun _ => false)
    (h : w.newDb.modified < w.oldDb.modified ∨ ¬ w.Verifies newDir) :
    runBootCleanup anchor x newDir (w.storage oldDir newDir) =
      (w.storage oldDir newDir).setDir oldDir (eraseConfigFiles x w.old) := by
  have herase : (w.storage oldDir newDir).change anchor x oldDir (eraseConfigFiles x) =
      (w.storage oldDir newDir).setDir oldDir (eraseConfigFiles x w.old) := by
    unfold Storage.change
    rw [seen_storage hx, dirs_old]
  show (if oldDir = newDir then _ else _) = _
  rw [if_neg hne, seen_storage hx, seen_storage hx, dirs_old, dirs_new hne]
  split
  · exact herase
  · rename_i hnewer
    rw [oldDirIsNewer_iff] at hnewer
    split
    · exact herase
    · rename_i u hv
      exact absurd hv (h.resolve_left hnewer)

theorem runBootCleanup_passed (hne : oldDir ≠ newDir) (hx : x.missing = fun _ => false)
    (hnewer : ¬ w.newDb.modified < w.oldDb.modified) (hv : w.Verifies newDir) :
    runBootCleanup anchor x newDir (w.storage oldDir newDir) =
      clearMarker x ⟨newDir, some oldDir⟩
        ((w.storage oldDir newDir).setDir oldDir (removeEntries x w.old)) := by
  have hremove : (w.storage oldDir newDir).change anchor x oldDir (removeEntries x) =
      (w.storage oldDir newDir).setDir oldDir (removeEntries x w.old) := by
    unfold Storage.change
    rw [seen_storage hx, dirs_old]
  show (if oldDir = newDir then _ else _) = _
  rw [if_neg hne, seen_storage hx, seen_storage hx, dirs_old, dirs_new hne, hremove]
  rw [← oldDirIsNewer_iff] at hnewer
  rw [if_neg hnewer]
  unfold Copied.Verifies at hv
  rw [hv]

theorem dirs_setDir (s : Storage) (d : Path) (data : DirData) :
    (s.setDir d data).dirs d = some data := by
  unfold Storage.setDir
  exact Function.update_self _ _ _

/-- A start on which all can be removed and written. -/
def ableBoot : BootChoice :=
  ⟨fun _ => false, 0, false, true, false, false, false, false, false, true⟩

theorem not_refuses (hne : oldDir ≠ newDir) (hnewer : ¬ w.newDb.modified < w.oldDb.modified)
    (hv : w.Verifies newDir) : (runBootCleanup anchor ableBoot newDir
      (w.storage oldDir newDir)).location ≠ (w.storage oldDir newDir).location := by
  rw [runBootCleanup_passed hne rfl hnewer hv]
  intro h
  cases h

theorem newer_or_not (hne : oldDir ≠ newDir)
    (h : (runBootCleanup anchor ableBoot newDir (w.storage oldDir newDir)).location =
      (w.storage oldDir newDir).location) :
    w.newDb.modified < w.oldDb.modified ∨ ¬ w.Verifies newDir := by
  by_contra hc
  rw [not_or, not_not] at hc
  exact not_refuses hne hc.1 hc.2 h

theorem refuses_iff (hne : oldDir ≠ newDir) : w.Refuses anchor oldDir newDir ↔
    w.newDb.modified < w.oldDb.modified ∨ ¬ w.Verifies newDir := by
  constructor
  · intro h
    exact newer_or_not hne (h ableBoot rfl).1
  · intro h x hx
    rw [runBootCleanup_refused hne hx h]
    exact ⟨rfl, w.old.config && x.keepsConfig, dirs_setDir _ _ _⟩

theorem leavesAll_iff (hne : oldDir ≠ newDir) : w.LeavesAll anchor oldDir newDir ↔
    (w.newDb.modified < w.oldDb.modified ∨ ¬ w.Verifies newDir) ∧ w.oldFiles.config = false := by
  constructor
  · intro h
    have hguard := newer_or_not hne (h ableBoot rfl).1
    refine ⟨hguard, ?_⟩
    have hdirs := (h ableBoot rfl).2
    rw [runBootCleanup_refused hne rfl hguard, dirs_setDir] at hdirs
    have hconfig := congrArg DirData.config (Option.some.inj hdirs)
    have herased : (eraseConfigFiles ableBoot w.old).config = false := Bool.and_false _
    rw [herased] at hconfig
    exact hconfig.symm
  · rintro ⟨hguard, hconfig⟩ x hx
    rw [runBootCleanup_refused hne hx hguard]
    refine ⟨rfl, ?_⟩
    have hold : eraseConfigFiles x w.old = w.old := by
      have hc : w.old.config = false := hconfig
      unfold eraseConfigFiles
      rw [hc, Bool.false_and, ← hc]
    rw [dirs_setDir, hold]

/-- From a snapshot on, whatever the order of the work in the old directory, its shutdown, the rest
of the relocation and the start on the new one, the cleanup refuses if and only if the old file was
written last, by a checkpoint, or the copy does not verify. Of `config.json` it leaves nothing. -/
theorem cleanup_refuses_iff (anchor : Path) {oldDir newDir : Path} (hne : oldDir ≠ newDir)
    {w : Copied} (hpast : w.Past) (hsnapshot : w.newDb.modified = w.clock)
    (events : List (Nat × CopyEvent)) :
    ((w.run events).Refuses anchor oldDir newDir ↔
      w.OldLast events ∨ ¬ (w.run events).Verifies newDir) ∧
    ((w.run events).LeavesAll anchor oldDir newDir ↔
      (w.OldLast events ∨ ¬ (w.run events).Verifies newDir) ∧
        (w.run events).oldFiles.config = false) := by
  have hnewer : (w.run events).newDb.modified < (w.run events).oldDb.modified ↔
      w.OldLast events := by
    rw [newer_run_iff hpast]
    constructor
    · intro h
      rcases h with h | ⟨hlt, _⟩
      · exact h
      · have hold := hpast.old
        omega
    · exact .inl
  rw [refuses_iff hne, leavesAll_iff hne, hnewer]
  exact ⟨Iff.rfl, Iff.rfl⟩

end Guard

section Unseen

/-- One source is in both directories right after the snapshot. -/
def snapshotTaken : Copied where
  clock := 5
  oldDb := ⟨[['s']], [], [], 3, false⟩
  newDb := ⟨[['s']], [], [], 5, false⟩
  oldFiles := .empty
  newFiles := .empty

def addsSource : CopyEvent := .oldCommit ⟨[['s'], ['t']], [], []⟩

def oldHome : Path := [['o']]

def newHome : Path := [['n']]

/-- A source that is committed to the log of the old database after the snapshot is deleted. -/
theorem logged_work_deleted : ['t'] ∈ (snapshotTaken.run [(1, addsSource)]).oldDb.sources ∧
    ['t'] ∉ (snapshotTaken.run [(1, addsSource)]).newDb.sources ∧
    ((runBootCleanup oldHome ableBoot newHome
      ((snapshotTaken.run [(1, addsSource)]).storage oldHome newHome)).dirs oldHome).map
        DirData.db = some none ∧
    ¬ (snapshotTaken.run [(1, addsSource)]).Refuses oldHome oldHome newHome := by
  refine ⟨by decide, by decide, by decide +kernel, ?_⟩
  intro h
  have hmarker : (runBootCleanup oldHome ableBoot newHome
      ((snapshotTaken.run [(1, addsSource)]).storage oldHome newHome)).location ≠
    ((snapshotTaken.run [(1, addsSource)]).storage oldHome newHome).location := by
    decide +kernel
  exact hmarker (h ableBoot rfl).1

/-- With a shutdown that brings the log into the file, the cleanup refuses. -/
theorem cleanup_refuses_checkpointed :
    (snapshotTaken.run [(1, addsSource), (1, .oldCheckpoint)]).Refuses oldHome oldHome newHome := by
  have hne : oldHome ≠ newHome := by decide
  apply (cleanup_refuses_iff oldHome hne (w := snapshotTaken) ⟨by decide, by decide⟩ rfl _).1.mpr
  exact .inl (.inr (.inl ⟨rfl, rfl, by decide, trivial⟩))

end Unseen

end Relocate

end LensLM
