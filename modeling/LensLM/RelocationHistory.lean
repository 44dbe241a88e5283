import LensLM.Relocation

/-!
# What the cleanup of a start deletes

Whenever a marker names an old directory, its rows are in the directory of the pointer. A cleanup
relies on that, and so it is safe where the start opens the directory of the pointer.
-/

namespace LensLM

open ByteText

namespace Relocate

set_option autoImplicit false

section History

variable (anchor : Path)

/-- The condition on an event. While a marker is there, no row is added to the old directory and
none is deleted from the new one, and no relocation into the old directory fails. The directory of
the pointer is there at a restart, unless the marker names the anchor. -/
def AppState.Meets (a : AppState) : Event → Prop
  | .work data => ∀ d loc old, a.running = some d → a.storage.location = some loc →
    loc.cleanup = some old → (d = old → data.sources ⊆ a.storage.sources d) ∧
      (d = loc.dataDir → a.storage.sources d ⊆ data.sources)
  | .relocate target x => ∀ d loc, a.running = some d → a.storage.location = some loc →
    loc.cleanup = some target → (relocateDataDir anchor x d target a.storage).1 = .ok ()
  | .restart x => ∀ loc old, a.storage.location = some loc → loc.cleanup = some old →
    old ≠ anchor → (a.storage.seen anchor x loc.dataDir).isSome

/-- All events of a history meet the condition where they happen. -/
def AppState.MeetsAll (a : AppState) : List Event → Prop
  | [] => True
  | e :: events => a.Meets anchor e ∧ (a.step anchor e).MeetsAll events

/-- What the cleanup of a start changes is the directory of the marker, whose rows are all in the
active directory, and that is the one of the pointer. -/
def DeletesReplaced (x : BootChoice) (s : Storage) : Prop :=
  let active := resolveDataDir anchor x s
  ∀ d, (runBootCleanup anchor x active (opened anchor x s)).dirs d ≠ (opened anchor x s).dirs d →
    ∃ loc, s.location = some loc ∧ loc.cleanup = some d ∧ loc.dataDir = active ∧
      (opened anchor x s).sources d ⊆ (opened anchor x s).sources active

/-- The rows of the old directory are in the directory of the pointer. -/
def Storage.Succeeds (s : Storage) : Prop :=
  ∀ loc old, s.location = some loc → loc.cleanup = some old → s.sources old ⊆ s.sources loc.dataDir

variable {anchor} {x : BootChoice} {s : Storage}

theorem sources_init (d d' : Path) : (init x d s).sources d' = s.sources d' := by
  unfold init
  rw [Storage.sources_setDir]
  split
  · rename_i h
    rw [h]
    unfold Storage.sources DirData.sources
    cases s.dirs d with
    | none => rfl
    | some data =>
      cases hdb : data.db with
      | none => simp [hdb]
      | some db => simp [hdb]
  · rfl

theorem sources_opened (d : Path) : (opened anchor x s).sources d = s.sources d := sources_init _ d

theorem sources_removeEntries (data : DirData) : (removeEntries x data).sources ⊆ data.sources := by
  unfold removeEntries DirData.sources
  dsimp only
  split
  · exact List.Subset.refl _
  · exact List.nil_subset _

theorem change_cases (anchor : Path) (x : BootChoice) (s : Storage) (d : Path)
    (f : DirData → DirData) : s.change anchor x d f = s ∨
    ∃ data, s.dirs d = some data ∧ s.change anchor x d f = s.setDir d (f data) := by
  unfold Storage.change
  cases hd : s.seen anchor x d with
  | none => exact .inl rfl
  | some data =>
    refine .inr ⟨data, ?_, rfl⟩
    unfold Storage.seen at hd
    split at hd
    · cases hd
    · exact hd

theorem location_change (d : Path) (f : DirData → DirData) :
    (s.change anchor x d f).location = s.location := by
  rcases change_cases anchor x s d f with h | ⟨data, _, h⟩
  · rw [h]
  · rw [h]
    rfl

theorem dirs_clearMarker (loc : DataLocation) : (clearMarker x loc s).dirs = s.dirs := by
  unfold clearMarker
  split
  · rfl
  · rfl

theorem location_clearMarker (loc : DataLocation) : (clearMarker x loc s).location = s.location ∨
    (clearMarker x loc s).location = some { loc with cleanup := none } := by
  unfold clearMarker
  split
  · exact .inr rfl
  · exact .inl rfl

/-- What a cleanup does to the directories: nothing, or something to the one that the marker names,
if this is not the active one. -/
theorem dirs_runBootCleanup (anchor : Path) (x : BootChoice) (s : Storage) (active : Path) :
    (runBootCleanup anchor x active s).dirs = s.dirs ∨
      ∃ loc old data data', s.location = some loc ∧ loc.cleanup = some old ∧ old ≠ active ∧
        s.dirs old = some data ∧ data'.sources ⊆ data.sources ∧
        (runBootCleanup anchor x active s).dirs = (s.setDir old data').dirs := by
  unfold runBootCleanup
  cases hl : s.location with
  | none => exact .inl rfl
  | some loc =>
    dsimp only
    cases hc : loc.cleanup with
    | none => exact .inl rfl
    | some old =>
      dsimp only
      split
      · rw [dirs_clearMarker]
        exact .inl rfl
      · rename_i hne
        have hchange : ∀ f : DirData → DirData, (∀ data, (f data).sources ⊆ data.sources) →
            (s.change anchor x old f).dirs = s.dirs ∨ ∃ loc' old' data data', some loc = some loc' ∧
              loc'.cleanup = some old' ∧ old' ≠ active ∧ s.dirs old' = some data ∧
              data'.sources ⊆ data.sources ∧
              (s.change anchor x old f).dirs = (s.setDir old' data').dirs := by
          intro f hf
          rcases change_cases anchor x s old f with h | ⟨data, hd, h⟩
          · exact .inl (congrArg Storage.dirs h)
          · exact .inr ⟨loc, old, data, f data, rfl, hc, hne, hd, hf data, congrArg Storage.dirs h⟩
        split
        · exact hchange _ fun _ => List.Subset.refl _
        · split
          · exact hchange _ fun _ => List.Subset.refl _
          · rw [dirs_clearMarker]
            exact hchange _ sources_removeEntries

theorem location_runBootCleanup (anchor : Path) (x : BootChoice) (s : Storage) (active : Path) :
    (runBootCleanup anchor x active s).location = s.location ∨
      ∃ loc, s.location = some loc ∧
        (runBootCleanup anchor x active s).location = some { loc with cleanup := none } := by
  unfold runBootCleanup
  cases hl : s.location with
  | none => exact .inl hl
  | some loc =>
    dsimp only
    have hcleared : ∀ s' : Storage, s'.location = some loc →
        (clearMarker x loc s').location = some loc ∨
          ∃ loc', some loc = some loc' ∧
            (clearMarker x loc s').location = some { loc' with cleanup := none } := by
      intro s' hs'
      rcases location_clearMarker (x := x) (s := s') loc with h | h
      · rw [hs'] at h
        exact .inl h
      · exact .inr ⟨loc, rfl, h⟩
    have hchanged : ∀ d f, (s.change anchor x d f).location = some loc := by
      intro d f
      rw [location_change, hl]
    split
    · exact .inl hl
    · split
      · exact hcleared s hl
      · split
        · exact .inl (hchanged _ _)
        · split
          · exact .inl (hchanged _ _)
          · exact hcleared _ (hchanged _ _)

theorem sources_subset_of_dirs {s' : Storage} {old d : Path} {data data' : DirData}
    (hdirs : s'.dirs = (s.setDir old data').dirs) (hd : s.dirs old = some data)
    (hsub : data'.sources ⊆ data.sources) : s'.sources d ⊆ s.sources d := by
  have h : s'.sources d = (s.setDir old data').sources d := by
    unfold Storage.sources
    rw [hdirs]
  rw [h, Storage.sources_setDir]
  split
  · rename_i he
    unfold Storage.sources
    rw [he, hd]
    exact hsub
  · exact List.Subset.refl _

/-- A cleanup keeps the rows of all directories but the one of the marker, of which it adds none. -/
theorem Storage.Succeeds.runBootCleanup {active : Path} (h : s.Succeeds)
    (hactive : ∀ loc old, s.location = some loc → loc.cleanup = some old → old ≠ active →
      loc.dataDir = active) :
    (Relocate.runBootCleanup anchor x active s).Succeeds := by
  intro loc old hl hc
  rcases location_runBootCleanup anchor x s active with hloc | ⟨l, _, hloc⟩
  · rw [hloc] at hl
    rcases dirs_runBootCleanup anchor x s active with
      hdirs | ⟨loc', old', data, data', hl', hc', hne, hd, hsub, hdirs⟩
    · unfold Storage.sources
      rw [hdirs]
      exact h loc old hl hc
    · rw [hl'] at hl
      cases hl
      rw [hc'] at hc
      cases hc
      have hdir : loc.dataDir ≠ old := by
        rw [hactive loc old hl' hc' hne]
        exact hne.symm
      have hnew : (Relocate.runBootCleanup anchor x active s).sources loc.dataDir =
          s.sources loc.dataDir := by
        unfold Storage.sources Storage.setDir at *
        rw [hdirs]
        dsimp only
        rw [Function.update_of_ne hdir]
      rw [hnew]
      exact List.Subset.trans (sources_subset_of_dirs hdirs hd hsub) (h loc old hl' hc')
  · rw [hloc] at hl
    cases hl
    cases hc

theorem dataDir_of_seen {loc : DataLocation} (hl : s.location = some loc)
    (hseen : (s.seen anchor x loc.dataDir).isSome) : resolveDataDir anchor x s = loc.dataDir := by
  unfold resolveDataDir
  rw [hl]
  dsimp only
  rw [if_pos hseen]

/-- A directory other than the anchor that is not the pointer's is not opened, as long as the
pointer's is there. -/
theorem dataDir_of_meets {a : AppState} (h : a.Meets anchor (.restart x)) {loc : DataLocation}
    {old : Path} (hl : a.storage.location = some loc) (hc : loc.cleanup = some old)
    (hne : old ≠ resolveDataDir anchor x a.storage) :
    loc.dataDir = resolveDataDir anchor x a.storage := by
  cases hseen : (a.storage.seen anchor x loc.dataDir).isSome with
  | true => exact (dataDir_of_seen hl hseen).symm
  | false =>
    have hanchor : old = anchor := by
      by_contra ho
      rw [h loc old hl hc ho] at hseen
      cases hseen
    have hres : resolveDataDir anchor x a.storage = anchor := by
      unfold resolveDataDir
      rw [hl]
      dsimp only
      rw [hseen, if_neg Bool.false_ne_true]
    rw [hres, hanchor] at hne
    exact absurd rfl hne

theorem Storage.Succeeds.opened (h : s.Succeeds) : (Relocate.opened anchor x s).Succeeds := by
  intro loc old hl hc
  rw [sources_opened, sources_opened]
  exact h loc old hl hc

theorem succeeds_work {a : AppState} {data : DirData} (h : a.storage.Succeeds)
    (hm : a.Meets anchor (.work data)) : (a.step anchor (.work data)).storage.Succeeds := by
  unfold AppState.step
  cases hr : a.running with
  | none => exact h
  | some d =>
    intro loc old hl hc
    obtain ⟨hold, hnew⟩ := hm d loc old hr hl hc
    have hkept := h loc old hl hc
    show (a.storage.setDir d data).sources old ⊆ (a.storage.setDir d data).sources loc.dataDir
    rw [Storage.sources_setDir, Storage.sources_setDir]
    by_cases hod : old = d
    · rw [if_pos hod]
      split
      · exact List.Subset.refl _
      · rw [hod] at hkept
        exact List.Subset.trans (hold hod.symm) hkept
    · rw [if_neg hod]
      split
      · rename_i hld
        rw [hld] at hkept
        exact List.Subset.trans hkept (hnew hld.symm)
      · exact hkept

theorem validateTarget_ok {source target : Path} (h : validateTarget anchor source target s = .ok ()) :
    target ≠ source ∧ s.sources target = [] := by
  unfold validateTarget at h
  split at h
  · cases h
  · rename_i hne
    split at h
    · cases h
    · split at h
      · rename_i hempty
        refine ⟨hne, ?_⟩
        unfold isEmptyDir at hempty
        rw [Bool.and_eq_true] at hempty
        have hdata := of_decide_eq_true hempty.1
        unfold Storage.sources
        cases hd : s.dirs target with
        | none => rfl
        | some data =>
          rw [hd] at hdata
          have hde : data = .empty := hdata
          rw [hde]
          rfl
      · cases h

theorem relocateInto_ok {y : MoveChoice} {source target : Path} {data copy : DirData} {db : LensDb}
    (h : relocateInto y source target data db = .ok copy) : copy = copyDir y source target data db := by
  unfold relocateInto at h
  dsimp only at h
  split at h
  · cases h
  · split at h
    · split at h
      · cases h
        rfl
      · cases h
    · cases h

/-- What a relocation can do: nothing, leave something in an empty target, or copy and point. -/
theorem relocateDataDir_cases (anchor : Path) (y : MoveChoice) (source target : Path) (s : Storage) :
    (relocateDataDir anchor y source target s).2 = s ∨
    (∃ e data, (relocateDataDir anchor y source target s).1 = .error e ∧
      target ≠ source ∧ s.sources target = [] ∧
      (relocateDataDir anchor y source target s).2 = s.setDir target data) ∨
    ∃ copy : DirData, target ≠ source ∧ copy.sources = s.sources source ∧
      (relocateDataDir anchor y source target s).2 =
        { s.setDir target copy with location := some ⟨target, some source⟩ } := by
  unfold relocateDataDir
  cases hv : validateTarget anchor source target s with
  | error e => exact .inl rfl
  | ok _ =>
    obtain ⟨hne, hempty⟩ := validateTarget_ok hv
    dsimp only
    cases hd : (s.dirs source).bind fun data => data.db.map fun db => (data, db) with
    | none => exact .inl rfl
    | some found =>
      obtain ⟨data, db⟩ := found
      dsimp only
      cases hcopy : relocateInto y source target data db with
      | error e => exact .inr (.inl ⟨e, y.residue, rfl, hne, hempty, rfl⟩)
      | ok copy =>
        dsimp only
        cases y.pointerFault with
        | some e => exact .inr (.inl ⟨e, copy, rfl, hne, hempty, rfl⟩)
        | none =>
          refine .inr (.inr ⟨copy, hne, ?_, rfl⟩)
          obtain ⟨data', hd', hdb⟩ := Option.bind_eq_some_iff.mp hd
          obtain ⟨db', hdb', he⟩ := Option.map_eq_some_iff.mp hdb
          cases he
          have hcs := relocateInto_ok hcopy
          rw [hcs]
          unfold Storage.sources
          rw [hd']
          unfold DirData.sources
          rw [Option.map_some, hdb']
          rfl

theorem succeeds_relocate {a : AppState} {target : Path} {y : MoveChoice} (h : a.storage.Succeeds)
    (hm : a.Meets anchor (.relocate target y)) :
    (a.step anchor (.relocate target y)).storage.Succeeds := by
  unfold AppState.step
  cases hr : a.running with
  | none => exact h
  | some d =>
    show (relocateDataDir anchor y d target a.storage).2.Succeeds
    rcases relocateDataDir_cases anchor y d target a.storage with
      hs | ⟨e, data, he, hne, hempty, hs⟩ | ⟨copy, hne, hcopy, hs⟩
    · rw [hs]
      exact h
    · rw [hs]
      intro loc old hl hc
      have hold : old ≠ target := by
        intro hot
        rw [hot] at hc
        rw [hm d loc hr hl hc] at he
        cases he
      rw [Storage.sources_setDir, Storage.sources_setDir, if_neg hold]
      have hkept := h loc old hl hc
      split
      · rename_i hlt
        rw [hlt, hempty] at hkept
        intro id hid
        exact absurd (hkept hid) (List.not_mem_nil)
      · exact hkept
    · rw [hs]
      intro loc old hl hc
      cases hl
      cases hc
      show (a.storage.setDir target copy).sources d ⊆ (a.storage.setDir target copy).sources target
      rw [Storage.sources_setDir, Storage.sources_setDir, if_neg hne.symm, if_pos rfl, hcopy]
      exact List.Subset.refl _

theorem succeeds_step {a : AppState} {e : Event} (h : a.storage.Succeeds) (hm : a.Meets anchor e) :
    (a.step anchor e).storage.Succeeds := by
  cases e with
  | work data => exact succeeds_work h hm
  | relocate target y => exact succeeds_relocate h hm
  | restart x =>
    show (boot anchor x a.storage).storage.Succeeds
    unfold boot
    split
    · exact h.opened.runBootCleanup fun loc old hl hc hne => dataDir_of_meets hm hl hc hne
    · exact h.opened

theorem succeeds_run {a : AppState} {events : List Event} (h : a.storage.Succeeds)
    (hm : a.MeetsAll anchor events) : (a.run anchor events).storage.Succeeds := by
  induction events generalizing a with
  | nil => exact h
  | cons e events ih => exact ih (succeeds_step h hm.1) hm.2

theorem meetsAll_append {a : AppState} {events events' : List Event}
    (hm : a.MeetsAll anchor (events ++ events')) :
    a.MeetsAll anchor events ∧ (a.run anchor events).MeetsAll anchor events' := by
  induction events generalizing a with
  | nil => exact ⟨trivial, hm⟩
  | cons e events ih =>
    obtain ⟨hrest, hlast⟩ := ih hm.2
    exact ⟨⟨hm.1, hrest⟩, hlast⟩

theorem deletesReplaced_of_meets {a : AppState} (h : a.storage.Succeeds)
    (hm : a.Meets anchor (.restart x)) : DeletesReplaced anchor x a.storage := by
  intro d hd
  rcases dirs_runBootCleanup anchor x (opened anchor x a.storage)
      (resolveDataDir anchor x a.storage) with
    hsame | ⟨loc, old, data, data', hl, hc, hne, _, _, hdirs⟩
  · rw [hsame] at hd
    exact absurd rfl hd
  · have hdo : d = old := by
      by_contra hdo
      rw [hdirs] at hd
      unfold Storage.setDir at hd
      dsimp only at hd
      rw [Function.update_of_ne hdo] at hd
      exact hd rfl
    have hactive := dataDir_of_meets hm hl hc hne
    rw [hdo]
    refine ⟨loc, hl, hc, hactive, ?_⟩
    rw [← hactive]
    exact h.opened loc old hl hc

/-- In a history that begins without a marker and meets the condition, a cleanup deletes in favour
of the directory of the pointer only, which has all rows. -/
theorem boot_cleanup_replaced {a : AppState}
    (hstart : ∀ loc, a.storage.location = some loc → loc.cleanup = none) (events : List Event)
    (x : BootChoice) (hm : a.MeetsAll anchor (events ++ [.restart x])) :
    DeletesReplaced anchor x (a.run anchor events).storage := by
  obtain ⟨hrest, hlast, _⟩ := meetsAll_append hm
  apply deletesReplaced_of_meets (succeeds_run ?_ hrest) hlast
  intro loc old hl hc
  rw [hstart loc hl] at hc
  cases hc

end History

section Fallback

/-- The directory of the app, which holds one source, and the two that it moves to. -/
def homeDir : Path := [['h']]

def firstDir : Path := [['1']]

def secondDir : Path := [['2']]

def oneSource : DirData := ⟨some ⟨[['s']], [], [], 0, false⟩, [], [], true, false, false⟩

def freshInstall : AppState where
  storage := ⟨Function.update (fun _ => none) homeDir (some oneSource), none⟩
  running := some homeDir

def plainMove (modified : Nat) : MoveChoice := ⟨none, fun _ => false, .empty, modified, none⟩

/-- All goes well at a start, but for the directories that are missing. -/
def plainBoot (missing : List Path) (modified : Nat) : BootChoice :=
  ⟨(· ∈ missing), modified, false, true, false, false, false, false, false, true⟩

/-- Two moves, and a start after the first one. -/
def movedTwice : List Event :=
  [.relocate firstDir (plainMove 1), .restart (plainBoot [] 2), .relocate secondDir (plainMove 3)]

def secondMissing : BootChoice := plainBoot [secondDir] 4

/-- The start falls back to the anchor while the directory of the pointer is missing, and empties
the directory that was left last, whose row the anchor does not have. -/
theorem fallback_deletes_predecessor : freshInstall.storage.location = none ∧
    ¬ DeletesReplaced homeDir secondMissing (freshInstall.run homeDir movedTwice).storage := by
  refine ⟨rfl, ?_⟩
  intro h
  have hchanged : (runBootCleanup homeDir secondMissing
      (resolveDataDir homeDir secondMissing (freshInstall.run homeDir movedTwice).storage)
      (opened homeDir secondMissing (freshInstall.run homeDir movedTwice).storage)).dirs firstDir ≠
    (opened homeDir secondMissing (freshInstall.run homeDir movedTwice).storage).dirs firstDir := by
    decide +kernel
  have hactive : resolveDataDir homeDir secondMissing (freshInstall.run homeDir movedTwice).storage =
      homeDir := by
    decide +kernel
  have hpointer : (freshInstall.run homeDir movedTwice).storage.location.map
      DataLocation.dataDir = some secondDir := by
    decide +kernel
  obtain ⟨loc, hl, _, hd, _⟩ := h firstDir hchanged
  rw [hl, Option.map_some, hd, hactive] at hpointer
  cases hpointer

/-- After one move the start opens the copy, and empties the anchor. -/
theorem boot_cleanup_replaced_once :
    (runBootCleanup homeDir (plainBoot [] 2) firstDir (opened homeDir (plainBoot [] 2)
      (freshInstall.run homeDir [.relocate firstDir (plainMove 1)]).storage)).sources homeDir = [] ∧
    DeletesReplaced homeDir (plainBoot [] 2)
      (freshInstall.run homeDir [.relocate firstDir (plainMove 1)]).storage := by
  refine ⟨by decide +kernel, boot_cleanup_replaced ?_ _ _ ⟨?_, ?_, trivial⟩⟩
  · intro loc hl
    cases hl
  · intro d loc _ hl
    cases hl
  · intro loc old hl hc hne
    cases hl
    cases hc
    exact absurd rfl hne

end Fallback

end Relocate

end LensLM
