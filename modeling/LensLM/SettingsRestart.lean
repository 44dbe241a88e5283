import LensLM.Settings

/-!
# Settings across restarts

A running app changes its settings in memory and on disk. Whether the next start finds them
depends on the directory that each change is written to.
-/

namespace LensLM

open ByteText

set_option autoImplicit false

section Start

variable {R T : Type} (host : SettingsHost R T) (anchor : Path)

/-- The settings in a directory; a missing file stands for the defaults. -/
def readConfig (disk : Disk T) (d : Path) : Except LensError (AppConfig R) :=
  match disk.config d with
  | some text => host.decode text
  | none => .ok host.default.normalize

def load (disk : Disk T) (d : Path) : Except LensError (AppConfig R × Disk T) :=
  match disk.config d with
  | some text => (host.decode text).map fun c => (c, disk)
  | none =>
    let c := host.default.normalize
    .ok (c, disk.writeConfig d (host.encode c))

/-- What a boot cleanup meets: whether its checks pass, what it can remove, and whether it can
write the pointer. -/
structure CleanupChoice where
  passed : Bool
  erases : Bool
  leftovers : Bool
  writesPointer : Bool
deriving DecidableEq

def eraseConfigFiles (x : CleanupChoice) (old : Path) (disk : Disk T) : Disk T :=
  if x.erases then disk.eraseConfig old else disk

/-- Removes the entries of the old directory, not the directory itself. -/
def removeEntries (x : CleanupChoice) (old : Path) (disk : Disk T) : Disk T :=
  if disk.isDir old then
    let disk := eraseConfigFiles x old disk
    disk.setFiles old { disk.filesOf old with others := x.leftovers }
  else disk

def clearMarker (x : CleanupChoice) (loc : DataLocation) (disk : Disk T) : Disk T :=
  if x.writesPointer then disk.setLocation { loc with cleanup := none } else disk

def runBootCleanup (active : Path) (x : CleanupChoice) (disk : Disk T) : Disk T :=
  match disk.location with
  | none => disk
  | some loc =>
    match loc.cleanup with
    | none => disk
    | some old =>
      if old = active then clearMarker x loc disk
      else if x.passed then clearMarker x loc (removeEntries x old disk)
      else eraseConfigFiles x old disk

/-- A running app: the disk, and the settings in force. -/
structure App (R T : Type) where
  disk : Disk T
  config : AppConfig R

/-- The engine is opened on the resolved directory, and then the superseded one is cleaned. -/
def start (x : CleanupChoice) (disk : Disk T) : Except LensError (App R T) :=
  let dataDir := resolveDataDir anchor disk
  (load host (disk.openPool dataDir) dataDir).map fun loaded =>
    { disk := runBootCleanup dataDir x loaded.2
      config := { loaded.1 with dataDir := dataDir } }

end Start

section Commands

variable {R T : Type} (host : SettingsHost R T) (anchor : Path)

/-- What is saved is normalized first. -/
def App.save (app : App R T) (d : Path) (c : AppConfig R) : App R T where
  disk := app.disk.writeConfig d (host.encode c.normalize)
  config := c.normalize

/-- Saves in the fixed app data directory, then applies. A fault is one of the save. -/
def persistAndApply (c : AppConfig R) (fault : Option LensError) (app : App R T) :
    Except LensError Unit × App R T :=
  match fault with
  | some e => (.error e, app)
  | none => (.ok (), app.save host anchor c)

def copyCacheCheck (fromRoot toRoot : Path) : Except LensError Unit :=
  if toRoot = fromRoot then
    .error (.validation "the new cache location is the same as the current one")
  else if fromRoot <+: toRoot ∨ toRoot <+: fromRoot then
    .error (.validation "the cache location and data folder cannot be nested")
  else .ok ()

/-- Copies the cache and saves its place in the engine's data directory. A fault is one of the copy
or of the save. -/
def offloadCache (toCacheRoot : Option Path) (fault : Option LensError) (app : App R T) :
    Except LensError Unit × App R T :=
  let dataDir := app.config.dataDir
  match copyCacheCheck (app.config.cacheRoot dataDir) (toCacheRoot.getD dataDir) with
  | .error e => (.error e, app)
  | .ok () =>
    match fault with
    | some e => (.error e, app)
    | none => (.ok (), app.save host dataDir { app.config with cacheDir := toCacheRoot })

def validateTarget (disk : Disk T) (source target : Path) : Except LensError Unit :=
  if target = source then
    .error (.validation "the new location is the same as the current one")
  else if source <+: target then
    .error (.validation "the new location cannot be inside the current data folder")
  else if (disk.filesOf target).IsEmpty ∧ (target = anchor → disk.location = none) then .ok ()
  else .error (.validation "the new location must be an empty folder")

/-- Copies the data directory. What is left of a copy that fails is an empty directory. -/
def relocateFiles (source target : Path) (fault : Option LensError) (disk : Disk T) :
    Except LensError Unit × Disk T :=
  match validateTarget anchor disk source target with
  | .error e => (.error e, disk)
  | .ok () =>
    match fault with
    | some e => (.error e, disk.setFiles target ⟨none, false⟩)
    | none =>
      if disk.isDir source then (.ok (), disk.setFiles target ⟨disk.config source, true⟩)
      else (.error (.io "failed to read source dir"), disk.setFiles target ⟨none, false⟩)

/-- The pointer is written last. The faults are of the copy and of the pointer. -/
def relocateDataDir (target : Path) (fault pointerFault : Option LensError) (app : App R T) :
    Except LensError Unit × App R T :=
  let source := app.config.dataDir
  match relocateFiles anchor source target fault app.disk with
  | (.error e, disk) => (.error e, { app with disk })
  | (.ok (), disk) =>
    match pointerFault with
    | some e => (.error e, { app with disk })
    | none => (.ok (), { app with disk := disk.setLocation ⟨target, some source⟩ })

/-- One step of a history: a command with the fault it meets, or a restart. -/
inductive SettingsEvent (R : Type) where
  | setConfig (config : AppConfig R) (fault : Option LensError)
  | setActiveChatModel (model : TaskModel) (fault : Option LensError)
  | clearActiveChatModel (fault : Option LensError)
  | offloadCache (toCacheRoot : Option Path) (fault : Option LensError)
  | relocateDataDir (target : Path) (fault pointerFault : Option LensError)
  | restart (x : CleanupChoice)

/-- The app after an event; an error is one of a start that does not succeed. -/
def App.step (app : App R T) : SettingsEvent R → Except LensError (App R T)
  | .setConfig c fault => .ok (persistAndApply host anchor c fault app).2
  | .setActiveChatModel model fault =>
    .ok (persistAndApply host anchor { app.config with chatModel := some model } fault app).2
  | .clearActiveChatModel fault =>
    .ok (persistAndApply host anchor { app.config with chatModel := none } fault app).2
  | .offloadCache toCacheRoot fault => .ok (LensLM.offloadCache host toCacheRoot fault app).2
  | .relocateDataDir target fault pointerFault =>
    .ok (LensLM.relocateDataDir anchor target fault pointerFault app).2
  | .restart x => start host anchor x app.disk

def App.run (app : App R T) : List (SettingsEvent R) → Except LensError (App R T)
  | [] => .ok app
  | e :: events => (app.step host anchor e).bind fun app => app.run events

end Commands

section Survival

variable {R T : Type} (host : SettingsHost R T) (anchor : Path)

/-- Every restart succeeds and finds the settings in force. -/
def App.Survives (app : App R T) : Prop :=
  ∀ x, ∃ app', start host anchor x app.disk = .ok app' ∧ app'.config.SameSettings app.config

/-- The directory holds the settings in force. -/
def App.HeldIn (app : App R T) (d : Path) : Prop :=
  ∃ c, readConfig host app.disk d = .ok c ∧ c.SameSettings app.config

/-- Settings that are written to `d` are found again, or are those that were found before. -/
def App.WritesWell (app : App R T) (d : Path) (c : AppConfig R) : Prop :=
  d = resolveDataDir anchor app.disk ∨ c.normalize.SameSettings app.config

/-- The condition on an event: a change is written to the directory that the next start reads, or
changes nothing, and a relocation copies a directory that holds the settings in force. -/
def App.Meets (app : App R T) : SettingsEvent R → Prop
  | .setConfig c fault => fault = none → app.WritesWell anchor anchor c
  | .setActiveChatModel model fault =>
    fault = none → app.WritesWell anchor anchor { app.config with chatModel := some model }
  | .clearActiveChatModel fault =>
    fault = none → app.WritesWell anchor anchor { app.config with chatModel := none }
  | .offloadCache toCacheRoot fault =>
    copyCacheCheck (app.config.cacheRoot app.config.dataDir)
      (toCacheRoot.getD app.config.dataDir) = .ok () → fault = none →
      app.WritesWell anchor app.config.dataDir { app.config with cacheDir := toCacheRoot }
  | .relocateDataDir target fault pointerFault =>
    validateTarget anchor app.disk app.config.dataDir target = .ok () → fault = none →
      pointerFault = none → app.disk.isDir app.config.dataDir →
      app.HeldIn host app.config.dataDir
  | .restart _ => True

/-- All events of a history meet the condition where they happen. -/
def App.MeetsAll (app : App R T) : List (SettingsEvent R) → Prop
  | [] => True
  | e :: events => app.Meets host anchor e ∧
    ∀ app', app.step host anchor e = .ok app' → app'.MeetsAll events

/-- The pointer is valid, and the next start finds a database in the directory that it reads. -/
structure Grounded (disk : Disk T) : Prop where
  pointerValid : disk.PointerValid
  occupied : (disk.filesOf (resolveDataDir anchor disk)).others = true

variable {host anchor}

/-- A disk whose files elsewhere than in the directory of the next start have changed. -/
theorem Grounded.setFiles {disk : Disk T} (h : Grounded anchor disk) {d : Path} (files : DirFiles T)
    (hd : d = resolveDataDir anchor disk → files.others = true) :
    Grounded anchor (disk.setFiles d files) ∧
      resolveDataDir anchor (disk.setFiles d files) = resolveDataDir anchor disk := by
  have hv := h.pointerValid.setFiles d files
  have hr := resolveDataDir_congr anchor h.pointerValid hv rfl
  refine ⟨⟨hv, ?_⟩, hr⟩
  rw [hr, Disk.filesOf_setFiles]
  split
  · rename_i he
    exact hd he.symm
  · exact h.occupied

/-- The database of a start makes the disk fit for the next one. -/
theorem grounded_openPool {disk : Disk T} (hv : disk.PointerValid) :
    Grounded anchor (disk.openPool (resolveDataDir anchor disk)) ∧
      resolveDataDir anchor (disk.openPool (resolveDataDir anchor disk)) =
        resolveDataDir anchor disk := by
  have hv' := hv.setFiles (resolveDataDir anchor disk)
    { disk.filesOf (resolveDataDir anchor disk) with others := true }
  have hr := resolveDataDir_congr anchor hv hv' rfl
  refine ⟨⟨hv', ?_⟩, hr⟩
  unfold Disk.openPool
  rw [hr, Disk.filesOf_setFiles, if_pos rfl]

theorem Grounded.save {disk : Disk T} (h : Grounded anchor disk) (d : Path) (text : T) :
    Grounded anchor (disk.writeConfig d text) ∧
      resolveDataDir anchor (disk.writeConfig d text) = resolveDataDir anchor disk := by
  apply h.setFiles
  intro hd
  rw [hd]
  exact h.occupied

section Cleanup

variable (x : CleanupChoice)

/-- The files of a directory, all directories and the pointer to the data stay as they are. -/
structure Spares (d : Path) (disk disk' : Disk T) : Prop where
  isDir : ∀ d, disk'.isDir d = disk.isDir d
  filesOf : disk'.filesOf d = disk.filesOf d
  dataDir : disk'.location.map DataLocation.dataDir = disk.location.map DataLocation.dataDir

variable {d old : Path} {disk disk' : Disk T}

theorem Spares.refl (d : Path) (disk : Disk T) : Spares d disk disk := ⟨fun _ => rfl, rfl, rfl⟩

theorem Spares.trans {disk'' : Disk T} (h : Spares d disk disk') (h' : Spares d disk' disk'') :
    Spares d disk disk'' where
  isDir d := (h'.isDir d).trans (h.isDir d)
  filesOf := h'.filesOf.trans h.filesOf
  dataDir := h'.dataDir.trans h.dataDir

theorem spares_setFiles (hne : d ≠ old) (h : disk.isDir old = true) (files : DirFiles T) :
    Spares d disk (disk.setFiles old files) where
  isDir d' := by
    rw [Disk.isDir_setFiles]
    by_cases hd : d' = old
    · rw [hd, h, Bool.or_true]
    · simp [hd]
  filesOf := by rw [Disk.filesOf_setFiles, if_neg hne]
  dataDir := rfl

theorem spares_eraseConfigFiles (hne : d ≠ old) : Spares d disk (eraseConfigFiles x old disk) := by
  unfold eraseConfigFiles Disk.eraseConfig
  split
  · split
    · rename_i h
      exact spares_setFiles hne h _
    · exact .refl d disk
  · exact .refl d disk

theorem spares_removeEntries (hne : d ≠ old) : Spares d disk (removeEntries x old disk) := by
  unfold removeEntries
  split
  · rename_i h
    have herase : Spares d disk (eraseConfigFiles x old disk) := spares_eraseConfigFiles x hne
    exact herase.trans (spares_setFiles hne ((herase.isDir old).trans h) _)
  · exact .refl d disk

theorem spares_clearMarker {loc : DataLocation} (hloc : disk.location = some loc)
    (h : Spares d disk disk') : Spares d disk (clearMarker x loc disk') := by
  unfold clearMarker
  split
  · refine ⟨h.isDir, h.filesOf, ?_⟩
    rw [hloc]
    rfl
  · exact h

/-- A boot cleanup leaves the active directory alone. -/
theorem spares_runBootCleanup (active : Path) (disk : Disk T) :
    Spares active disk (runBootCleanup active x disk) := by
  unfold runBootCleanup
  split
  · exact .refl active disk
  · rename_i loc hloc
    split
    · exact .refl active disk
    · rename_i old _
      split
      · exact spares_clearMarker x hloc (.refl active disk)
      · rename_i hne
        have hne : active ≠ old := fun h => hne h.symm
        split
        · exact spares_clearMarker x hloc (spares_removeEntries x hne)
        · exact spares_eraseConfigFiles x hne

/-- The next start reads the same directory as before. -/
theorem Spares.grounded (hg : Grounded anchor disk)
    (h : Spares (resolveDataDir anchor disk) disk disk') :
    Grounded anchor disk' ∧ resolveDataDir anchor disk' = resolveDataDir anchor disk := by
  have hv : disk'.PointerValid := by
    intro loc hloc
    have hd := h.dataDir
    rw [hloc, Option.map_some] at hd
    obtain ⟨loc', hloc', hd⟩ := Option.map_eq_some_iff.mp hd.symm
    rw [h.isDir, ← hd]
    exact hg.pointerValid loc' hloc'
  have hr := resolveDataDir_congr anchor hg.pointerValid hv h.dataDir
  refine ⟨⟨hv, ?_⟩, hr⟩
  rw [hr, h.filesOf]
  exact hg.occupied

end Cleanup

section Start

variable (host) in
theorem readConfig_congr {disk disk' : Disk T} {d : Path} (h : disk'.config d = disk.config d) :
    readConfig host disk' d = readConfig host disk d := by
  unfold readConfig
  rw [h]

theorem readConfig_writeConfig (disk : Disk T) (d : Path) (c : AppConfig R) :
    readConfig host (disk.writeConfig d (host.encode c)) d = .ok c := by
  unfold readConfig
  rw [Disk.config_writeConfig, if_pos rfl]
  exact host.decode_encode c

variable (host) in
/-- What is loaded is what the directory holds, and it holds that afterwards. -/
theorem load_eq (disk : Disk T) (d : Path) :
    (∃ e, readConfig host disk d = .error e ∧ load host disk d = .error e) ∨
      ∃ c disk', readConfig host disk d = .ok c ∧ load host disk d = .ok (c, disk') ∧
        readConfig host disk' d = .ok c ∧
        (disk' = disk ∨ disk' = disk.writeConfig d (host.encode c)) := by
  unfold readConfig load
  cases hc : disk.config d with
  | none =>
    refine .inr ⟨_, _, rfl, rfl, ?_, .inr rfl⟩
    exact readConfig_writeConfig disk d _
  | some text =>
    dsimp only
    cases hd : host.decode text with
    | error e => exact .inl ⟨e, rfl, rfl⟩
    | ok c =>
      refine .inr ⟨c, disk, rfl, rfl, ?_, .inl rfl⟩
      rw [hc]
      exact hd

variable (host anchor) in
/-- A start on a disk with a valid pointer: either nothing readable is there, or the app runs with
what was read, which the next start reads again. -/
theorem start_cases {disk : Disk T} (hv : disk.PointerValid) (x : CleanupChoice) :
    (∃ e, readConfig host disk (resolveDataDir anchor disk) = .error e ∧
        start host anchor x disk = .error e) ∨
      ∃ c app, readConfig host disk (resolveDataDir anchor disk) = .ok c ∧
        start host anchor x disk = .ok app ∧ app.config.SameSettings c ∧
        Grounded anchor app.disk ∧
        readConfig host app.disk (resolveDataDir anchor app.disk) = .ok c := by
  have hopen : Grounded anchor (disk.openPool (resolveDataDir anchor disk)) ∧ _ :=
    grounded_openPool hv
  unfold start
  dsimp only
  generalize hd : resolveDataDir anchor disk = d at *
  obtain ⟨hopen, hresolve⟩ := hopen
  have hread := readConfig_congr host (disk.config_openPool d d)
  obtain ⟨e, he, hload⟩ | ⟨c, disk', hc, hload, hread', hdisk'⟩ := load_eq host (disk.openPool d) d
  · refine .inl ⟨e, hread ▸ he, ?_⟩
    rw [hload]
    rfl
  · refine .inr ⟨c, _, hread ▸ hc, by rw [hload]; rfl, AppConfig.sameSettings_dataDir c d, ?_⟩
    obtain ⟨hg, hr⟩ : Grounded anchor disk' ∧ resolveDataDir anchor disk' = d := by
      cases hdisk' with
      | inl h =>
        rw [h]
        exact ⟨hopen, hresolve⟩
      | inr h =>
        rw [h]
        obtain ⟨hg, hr⟩ := hopen.save d (host.encode c)
        exact ⟨hg, hr.trans hresolve⟩
    have hspares := spares_runBootCleanup x d disk'
    have hspares' : Spares (resolveDataDir anchor disk') disk' (runBootCleanup d x disk') := by
      rw [hr]
      exact hspares
    obtain ⟨hg', hr'⟩ := hspares'.grounded hg
    refine ⟨hg', ?_⟩
    dsimp only
    rw [hr', hr, readConfig_congr host (congrArg DirFiles.config hspares.filesOf)]
    exact hread'

/-- A restart finds the settings in force exactly if the directory that it reads holds them. -/
theorem survives_iff {app : App R T} (hv : app.disk.PointerValid) :
    app.Survives host anchor ↔ app.HeldIn host (resolveDataDir anchor app.disk) := by
  constructor
  · intro h
    obtain ⟨app', hstart, hsame⟩ := h ⟨false, false, false, false⟩
    obtain ⟨e, _, he⟩ | ⟨c, app₁, hc, happ, hsame₁, _⟩ :=
      start_cases host anchor hv ⟨false, false, false, false⟩
    · rw [he] at hstart
      cases hstart
    · rw [happ] at hstart
      cases hstart
      exact ⟨c, hc, hsame₁.symm.trans hsame⟩
  · intro h x
    obtain ⟨c, hc, hsame⟩ := h
    obtain ⟨e, he, _⟩ | ⟨c', app', hc', happ, hsame', _⟩ :=
      start_cases host anchor hv x
    · rw [hc] at he
      cases he
    · rw [hc] at hc'
      cases hc'
      exact ⟨app', happ, hsame'.trans hsame⟩

/-- An app that has just started survives. -/
theorem survives_of_start {disk : Disk T} (hv : disk.PointerValid) {x : CleanupChoice}
    {app : App R T} (h : start host anchor x disk = .ok app) :
    Grounded anchor app.disk ∧ app.Survives host anchor := by
  obtain ⟨e, _, he⟩ | ⟨c, app', _, happ, hsame, hg, hread⟩ :=
    start_cases host anchor hv x
  · rw [he] at h
    cases h
  · rw [happ] at h
    cases h
    exact ⟨hg, (survives_iff hg.pointerValid).mpr ⟨c, hread, hsame.symm⟩⟩

end Start

section Events

variable {app : App R T}

/-- Changed files elsewhere and a changed configuration. -/
theorem survives_save_iff (hg : Grounded anchor app.disk) (hs : app.Survives host anchor) (d : Path)
    (c : AppConfig R) : Grounded anchor (app.save host d c).disk ∧
      ((app.save host d c).Survives host anchor ↔ app.WritesWell anchor d c) := by
  obtain ⟨hg', hr⟩ := hg.save d (host.encode c.normalize)
  refine ⟨hg', ?_⟩
  rw [survives_iff hg'.pointerValid]
  unfold App.HeldIn App.WritesWell App.save
  dsimp only
  rw [hr]
  by_cases hd : d = resolveDataDir anchor app.disk
  · rw [← hd, readConfig_writeConfig]
    exact ⟨fun _ => .inl rfl, fun _ => ⟨_, rfl, .refl _⟩⟩
  · obtain ⟨c₀, hc₀, hsame⟩ := (survives_iff hg.pointerValid).mp hs
    have hread : readConfig host (app.disk.writeConfig d (host.encode c.normalize))
        (resolveDataDir anchor app.disk) = .ok c₀ := by
      rw [readConfig_congr host ?_]
      · exact hc₀
      · rw [Disk.config_writeConfig, if_neg fun h => hd h.symm]
    rw [hread]
    constructor
    · intro h
      obtain ⟨c', hc', hsame'⟩ := h
      cases hc'
      exact .inr (hsame'.symm.trans hsame)
    · intro h
      exact ⟨c₀, rfl, hsame.trans (h.resolve_left hd).symm⟩

/-- An app whose disk has changed in directories that nothing was in. -/
theorem survives_setFiles_iff (hg : Grounded anchor app.disk) {d : Path} {files : DirFiles T}
    (hd : (app.disk.filesOf d).IsEmpty) :
    Grounded anchor (app.disk.setFiles d files) ∧
      (App.Survives host anchor { app with disk := app.disk.setFiles d files } ↔
        app.Survives host anchor) := by
  have hne : d ≠ resolveDataDir anchor app.disk := by
    intro h
    have hocc := hg.occupied
    rw [← h, hd.2] at hocc
    cases hocc
  obtain ⟨hg', hr⟩ := hg.setFiles files fun h => absurd h hne
  refine ⟨hg', ?_⟩
  rw [survives_iff hg.pointerValid, survives_iff hg'.pointerValid]
  unfold App.HeldIn
  dsimp only
  rw [hr, readConfig_congr host ?_]
  unfold Disk.config
  rw [Disk.filesOf_setFiles, if_neg fun h => hne h.symm]

/-- The app after a relocation that has succeeded. -/
def App.movedTo (app : App R T) (target : Path) : App R T :=
  let files : DirFiles T := ⟨app.disk.config app.config.dataDir, true⟩
  let loc : DataLocation := ⟨target, some app.config.dataDir⟩
  { app with disk := (app.disk.setFiles target files).setLocation loc }

/-- The next start reads what the old directory held. -/
theorem survives_movedTo_iff (app : App R T) (target : Path) :
    Grounded anchor (app.movedTo target).disk ∧
      ((app.movedTo target).Survives host anchor ↔ app.HeldIn host app.config.dataDir) := by
  have hdir : (app.movedTo target).disk.isDir target = true := by
    show (app.disk.setFiles target _).isDir target = true
    rw [Disk.isDir_setFiles]
    simp
  have hv : (app.movedTo target).disk.PointerValid := by
    intro loc hloc
    cases hloc
    exact hdir
  have hfiles : (app.movedTo target).disk.filesOf target =
      ⟨app.disk.config app.config.dataDir, true⟩ := by
    show (app.disk.setFiles target _).filesOf target = _
    rw [Disk.filesOf_setFiles, if_pos rfl]
  have hr : resolveDataDir anchor (app.movedTo target).disk = target := if_pos hdir
  refine ⟨⟨hv, ?_⟩, ?_⟩
  · rw [hr, hfiles]
  · have hread : readConfig host (app.movedTo target).disk target =
        readConfig host app.disk app.config.dataDir := by
      unfold readConfig Disk.config
      rw [hfiles]
      rfl
    rw [survives_iff hv]
    unfold App.HeldIn
    rw [hr, hread]
    exact Iff.rfl

theorem validateTarget_ok {disk : Disk T} {source target : Path}
    (h : validateTarget anchor disk source target = .ok ()) : (disk.filesOf target).IsEmpty := by
  unfold validateTarget at h
  split at h
  · cases h
  · split at h
    · cases h
    · split at h
      · rename_i hempty
        exact hempty.1
      · cases h

/-- What a relocation can do: nothing, change the empty target only, or move the pointer too. -/
theorem relocateDataDir_cases (anchor : Path) (target : Path) (fault pointerFault : Option LensError)
    (app : App R T) :
    (validateTarget anchor app.disk app.config.dataDir target ≠ .ok () ∧
        (relocateDataDir anchor target fault pointerFault app).2 = app) ∨
      ((app.disk.filesOf target).IsEmpty ∧
        (fault = none → pointerFault = none → app.disk.isDir app.config.dataDir = false) ∧
        ∃ files, (relocateDataDir anchor target fault pointerFault app).2 =
          { app with disk := app.disk.setFiles target files }) ∨
      (validateTarget anchor app.disk app.config.dataDir target = .ok () ∧ fault = none ∧
        pointerFault = none ∧ app.disk.isDir app.config.dataDir = true ∧
        (relocateDataDir anchor target fault pointerFault app).2 =
          app.movedTo target) := by
  simp only [relocateDataDir, relocateFiles]
  cases hv : validateTarget anchor app.disk app.config.dataDir target with
  | error e => exact .inl ⟨nofun, rfl⟩
  | ok _ =>
    have hempty := validateTarget_ok hv
    cases fault with
    | some e => exact .inr (.inl ⟨hempty, nofun, _, rfl⟩)
    | none =>
      by_cases hdir : app.disk.isDir app.config.dataDir = true
      · simp only [if_pos hdir]
        cases pointerFault with
        | some e => exact .inr (.inl ⟨hempty, nofun, _, rfl⟩)
        | none => exact .inr (.inr ⟨trivial, trivial, rfl, hdir, rfl⟩)
      · simp only [if_neg hdir]
        exact .inr (.inl ⟨hempty, fun _ _ => by simpa using hdir, _, rfl⟩)

/-- One relocation, whatever faults it meets. -/
theorem survives_relocateDataDir_iff (hg : Grounded anchor app.disk)
    (hs : app.Survives host anchor) (target : Path) (fault pointerFault : Option LensError) :
    Grounded anchor (relocateDataDir anchor target fault pointerFault app).2.disk ∧
      ((relocateDataDir anchor target fault pointerFault app).2.Survives host anchor ↔
        app.Meets host anchor (.relocateDataDir target fault pointerFault)) := by
  obtain ⟨hv, h⟩ | ⟨hempty, hfault, files, h⟩ | ⟨hv, rfl, rfl, hdir, h⟩ :=
    relocateDataDir_cases anchor target fault pointerFault app
  · rw [h]
    exact ⟨hg, fun _ hv' => absurd hv' hv, fun _ => hs⟩
  · rw [h]
    obtain ⟨hg', hiff⟩ := survives_setFiles_iff hg hempty
    refine ⟨hg', fun _ _ hf hp hdir => ?_, fun _ => hiff.mpr hs⟩
    rw [hfault hf hp] at hdir
    cases hdir
  · rw [h]
    obtain ⟨hg', hiff⟩ := survives_movedTo_iff app target
    exact ⟨hg', hiff.trans ⟨fun hheld _ _ _ _ => hheld, fun hmeets => hmeets hv rfl rfl hdir⟩⟩

theorem survives_offloadCache_iff (hg : Grounded anchor app.disk) (hs : app.Survives host anchor)
    (toCacheRoot : Option Path) (fault : Option LensError) :
    Grounded anchor (offloadCache host toCacheRoot fault app).2.disk ∧
      ((offloadCache host toCacheRoot fault app).2.Survives host anchor ↔
        app.Meets host anchor (.offloadCache toCacheRoot fault)) := by
  simp only [offloadCache, App.Meets]
  cases hc : copyCacheCheck (app.config.cacheRoot app.config.dataDir)
      (toCacheRoot.getD app.config.dataDir) with
  | error e => exact ⟨hg, fun _ => nofun, fun _ => hs⟩
  | ok _ =>
    cases fault with
    | some e => exact ⟨hg, fun _ _ => nofun, fun _ => hs⟩
    | none =>
      obtain ⟨hg', hiff⟩ := survives_save_iff hg hs app.config.dataDir
        { app.config with cacheDir := toCacheRoot }
      exact ⟨hg', hiff.trans ⟨fun h _ _ => h, fun h => h rfl rfl⟩⟩

/-- One event after which the app runs: it survives exactly if the event meets the condition. -/
theorem survives_step_iff (hg : Grounded anchor app.disk) (hs : app.Survives host anchor)
    (e : SettingsEvent R) : ∃ app', app.step host anchor e = .ok app' ∧ Grounded anchor app'.disk ∧
      (app'.Survives host anchor ↔ app.Meets host anchor e) := by
  have hpersist : ∀ (c : AppConfig R) (fault : Option LensError),
      Grounded anchor (persistAndApply host anchor c fault app).2.disk ∧
        ((persistAndApply host anchor c fault app).2.Survives host anchor ↔
          (fault = none → app.WritesWell anchor anchor c)) := by
    intro c fault
    cases fault with
    | some e => exact ⟨hg, fun _ => nofun, fun _ => hs⟩
    | none =>
      obtain ⟨hg', hiff⟩ := survives_save_iff hg hs anchor c
      exact ⟨hg', hiff.trans ⟨fun h _ => h, fun h => h rfl⟩⟩
  cases e with
  | setConfig c fault => exact ⟨_, rfl, hpersist c fault⟩
  | setActiveChatModel model fault => exact ⟨_, rfl, hpersist _ fault⟩
  | clearActiveChatModel fault => exact ⟨_, rfl, hpersist _ fault⟩
  | offloadCache toCacheRoot fault =>
    exact ⟨_, rfl, survives_offloadCache_iff hg hs toCacheRoot fault⟩
  | relocateDataDir target fault pointerFault =>
    exact ⟨_, rfl, survives_relocateDataDir_iff hg hs target fault pointerFault⟩
  | restart x =>
    obtain ⟨app', hstart, _⟩ := hs x
    obtain ⟨hg', hs'⟩ := survives_of_start hg.pointerValid hstart
    exact ⟨app', hstart, hg', fun _ => trivial, fun _ => hs'⟩

/-- Over a history, every restart that could be made finds the settings in force exactly if all
events meet the condition. -/
theorem survives_run_iff (hg : Grounded anchor app.disk) (hs : app.Survives host anchor)
    (events : List (SettingsEvent R)) : (∀ past, past <+: events → ∀ app', app.run host anchor past = .ok app' →
      app'.Survives host anchor) ↔ app.MeetsAll host anchor events := by
  induction events generalizing app with
  | nil =>
    refine ⟨fun _ => trivial, ?_⟩
    intro _ past hpast app' hrun
    rw [List.prefix_nil.mp hpast] at hrun
    cases hrun
    exact hs
  | cons e events ih =>
    obtain ⟨app₁, hstep, hg₁, hiff⟩ := survives_step_iff hg hs e
    have hrun₁ : ∀ past, app.run host anchor (e :: past) = app₁.run host anchor past := by
      intro past
      rw [App.run, hstep]
      rfl
    constructor
    · intro h
      have hs₁ : app₁.Survives host anchor := h [e] (by simp) app₁ (hrun₁ [])
      refine ⟨hiff.mp hs₁, ?_⟩
      intro app' hstep'
      rw [hstep] at hstep'
      cases hstep'
      refine (ih hg₁ hs₁).mp fun past hpast app' hrun => ?_
      exact h (e :: past) (List.cons_prefix_cons.mpr ⟨rfl, hpast⟩) app' ((hrun₁ past).trans hrun)
    · intro h past hpast app' hrun
      have hs₁ := hiff.mpr h.1
      cases past with
      | nil =>
        cases hrun
        exact hs
      | cons e' past =>
        obtain ⟨he, hpast'⟩ := List.cons_prefix_cons.mp hpast
        rw [he, hrun₁] at hrun
        exact (ih hg₁ hs₁).mpr (h.2 app₁ hstep) past hpast' app' hrun

/-- The histories of an app from its start. -/
theorem settings_survive_iff {disk : Disk T} (hv : disk.PointerValid) {x : CleanupChoice}
    (h : start host anchor x disk = .ok app) (events : List (SettingsEvent R)) :
    (∀ past, past <+: events → ∀ app', app.run host anchor past = .ok app' →
      app'.Survives host anchor) ↔ app.MeetsAll host anchor events := by
  obtain ⟨hg, hs⟩ := survives_of_start hv h
  exact survives_run_iff hg hs events

end Events

end Survival

section Examples

/-- The file holds the settings themselves. -/
def plainHost : SettingsHost Nat (AppConfig Nat) where
  default := ⟨[], none, ⟨[], none, [], []⟩, false, none, 0⟩
  encode := id
  decode := .ok
  decode_encode _ := rfl

def emptyDisk : Disk (AppConfig Nat) := ⟨∅, none⟩

def appDataDir : Path := ["home".toList, "lens".toList]

def quietCleanup : CleanupChoice := ⟨true, true, false, true⟩

/-- A relocation with its restart, and a change of the settings after it. -/
def relocateThenChange (theme : Nat) : List (SettingsEvent Nat) :=
  [.relocateDataDir ["disk".toList] none none, .restart quietCleanup,
    .setConfig { plainHost.default with dataDir := ["disk".toList], others := theme } none]

/-- A change after a relocation is lost at the next restart. -/
theorem change_lost_after_relocation : ∃ app app' app'',
    start plainHost appDataDir quietCleanup emptyDisk = .ok app ∧
      app.run plainHost appDataDir (relocateThenChange 1) = .ok app' ∧
      start plainHost appDataDir quietCleanup app'.disk = .ok app'' ∧
      ¬ app''.config.SameSettings app'.config :=
  ⟨_, _, _, rfl, rfl, rfl, by decide⟩

/-- A change before any relocation survives. -/
theorem settings_survive_iff_unmoved : ∃ app app',
    start plainHost appDataDir quietCleanup emptyDisk = .ok app ∧
      app.run plainHost appDataDir [.setConfig { plainHost.default with others := 1 } none] =
        .ok app' ∧ app'.Survives plainHost appDataDir := by
  refine ⟨_, _, rfl, rfl, ?_⟩
  refine (settings_survive_iff (x := quietCleanup) (nofun : emptyDisk.PointerValid) rfl
    [.setConfig { plainHost.default with others := 1 } none]).mpr ?_ _ (List.prefix_refl _) _ rfl
  exact ⟨fun _ => .inl rfl, fun _ _ => trivial⟩

end Examples

end LensLM
