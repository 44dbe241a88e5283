import LensLM.PurgeRefused

/-!
# Purges and the files of the user

A purge removes the file that the locator of a source names, whoever has put it there. For a source
with a managed copy that is a file under the data directory.
-/

namespace LensLM

open ByteText Programs Program PathText

set_option autoImplicit false

variable {s s₁ s' : LibraryState}

section Kept

/-- The files and the locators are as before. -/
structure KeepsFiles (s s' : LibraryState) : Prop where
  files : s'.files = s.files
  columns : s'.columns = s.columns
  cwd : s'.cwd = s.cwd

theorem KeepsFiles.refl (s : LibraryState) : KeepsFiles s s := ⟨rfl, rfl, rfl⟩

theorem KeepsFiles.trans (h : KeepsFiles s s₁) (h' : KeepsFiles s₁ s') : KeepsFiles s s' :=
  ⟨h'.files.trans h.files, h'.columns.trans h.columns, h'.cwd.trans h.cwd⟩

theorem KeepsFiles.locator (h : KeepsFiles s s') (id : String) : s'.locator id = s.locator id := by
  unfold LibraryState.locator
  rw [h.columns]

theorem keepsFiles_after (s : LibraryState) (events : List TrashEvent) :
    KeepsFiles s (s.after events) := by
  induction events generalizing s with
  | nil => exact .refl s
  | cons e events ih =>
    have hstep : KeepsFiles s ((TrashEvent.run s e).toOption.getD s) := by
      cases e with
      | trashSource | restoreSource | trashNotebook | restoreNotebook =>
        simp only [TrashEvent.run]
        repeat' split
        all_goals exact ⟨rfl, rfl, rfl⟩
    exact hstep.trans (ih _)

/-- The removal of a file aside, no command touches the files. -/
theorem keepsFiles_run {c : PurgeCmd} (hc : ∀ path, c ≠ .removeFile path) {a : c.Reply}
    (h : c.run s = .ok (a, s')) : KeepsFiles s s' := by
  cases c with
  | getSource | activeCoordinates | sourceFiles | lanceTableNamesForNotebook =>
    cases h
    exact .refl s
  | deleteSource id =>
    simp only [PurgeCmd.run] at h
    cases hrun : Cmd.run (.purgeSource id) s.engine with
    | error e =>
      rw [hrun] at h
      cases h
    | ok out =>
      rw [hrun] at h
      cases h
      exact ⟨rfl, rfl, rfl⟩
  | deleteNotebook notebook =>
    simp only [PurgeCmd.run] at h
    split at h
    · cases h
      exact ⟨rfl, rfl, rfl⟩
    · cases h
  | removeFile path => exact absurd rfl (hc path)
  | store c =>
    simp only [PurgeCmd.run] at h
    cases hrun : c.run s.engine with
    | error e =>
      rw [hrun] at h
      cases h
    | ok out =>
      rw [hrun] at h
      cases h
      exact ⟨rfl, rfl, rfl⟩

theorem keepsFiles_react {c : PurgeCmd} (hc : ∀ path, c ≠ .removeFile path) {x : PurgeChoice}
    {r : Except Stop c.Reply} (h : PurgeCmd.react c x s = some (r, s')) : KeepsFiles s s' := by
  have hafter := keepsFiles_after s x.others
  obtain ⟨_, _, _, rfl⟩ | ⟨_, _, _, rfl⟩ | ⟨a, _, hrun⟩ := PurgeCmd.react_cases h
  · exact hafter
  · exact hafter
  · exact hafter.trans (keepsFiles_run hc hrun)

theorem keepsFiles_perform {c : PurgeCmd} (hc : ∀ path, c ≠ .removeFile path)
    {r : Except Stop c.Reply} (h : PurgeRun (perform c) s r s') : KeepsFiles s s' := by
  obtain ⟨x, hr⟩ := h.perform_inv
  exact keepsFiles_react hc hr

theorem keepsFiles_inStore {α : Type} {p : Job α} {r : Except Stop α}
    (h : PurgeRun (inStore p) s r s') : KeepsFiles s s' := by
  apply h.embed_inv.keeps KeepsFiles.refl fun _ _ _ => KeepsFiles.trans
  intro c x s r s' hr
  exact keepsFiles_react (c := .store c) nofun hr

end Kept

section Removed

/-- The files that the given locators name are gone, and all others stay. -/
structure Removes (locators : List Str) (s s' : LibraryState) : Prop where
  files : ∀ f, f ∈ s'.files ↔ f ∈ s.files ∧ ∀ l ∈ locators, f ≠ PathText.resolve s.cwd l
  cwd : s'.cwd = s.cwd

theorem KeepsFiles.removes (h : KeepsFiles s s') : Removes [] s s' := by
  refine ⟨fun f => ?_, h.cwd⟩
  rw [h.files]
  simp

theorem Removes.trans {a b : List Str} (h : Removes a s s₁) (h' : Removes b s₁ s') :
    Removes (a ++ b) s s' := by
  refine ⟨fun f => ?_, h'.cwd.trans h.cwd⟩
  rw [h'.files, h.files, h.cwd]
  simp only [List.mem_append, or_imp, forall_and, and_assoc]

theorem removes_removeFile {path : Str}
    (h : PurgeRun (perform (.removeFile path : PurgeCmd)) s (.ok ()) s') :
    Removes [path] s s' := by
  obtain ⟨x, hr⟩ := h.perform_inv
  have hafter := keepsFiles_after s x.others
  obtain ⟨_, he, _, _⟩ | ⟨_, he, _, _⟩ | ⟨a, _, hrun⟩ := PurgeCmd.react_cases hr
  · cases he
  · cases he
  · cases hrun
    refine hafter.removes.trans ⟨fun f => ?_, rfl⟩
    simp only [AList.mem_erase, List.mem_singleton, forall_eq, and_comm]

theorem removes_managed {id : String} {locator : Str}
    (h : PurgeRun (removeManagedSourceFile id locator) s (.ok ()) s') :
    Removes [locator] s s' := by
  obtain ⟨_, s₁, hfile, h⟩ := Exec.bind_ok h
  exact (removes_removeFile hfile).trans
    (keepsFiles_perform (c := .store (.removeSiblings id)) nofun h).removes

theorem removes_each {sources : List (String × Str)}
    (h : PurgeRun (forEach sources fun x => removeManagedSourceFile x.1 x.2) s (.ok ()) s') :
    Removes (sources.map Prod.snd) s s' := by
  induction sources generalizing s with
  | nil =>
    obtain ⟨_, rfl⟩ := Exec.ret_inv h
    exact (KeepsFiles.refl _).removes
  | cons x sources ih =>
    obtain ⟨_, s₁, hfirst, h⟩ := Exec.bind_ok h
    exact (removes_managed hfirst).trans (ih h)

/-- A job whose failures have removed nothing. -/
def FailsClean {α : Type} (p : PurgeJob α) : Prop :=
  ∀ s s' stop, PurgeRun p s (.error stop) s' → KeepsFiles s s'

theorem Succeeds.failsClean {α : Type} {p : PurgeJob α} (h : Succeeds p) : FailsClean p :=
  fun s s' stop hrun => absurd hrun (h s s' stop)

theorem FailsClean.bind {α β : Type} {p : PurgeJob α} {f : α → PurgeJob β}
    (hp : ∀ s r s', PurgeRun p s r s' → KeepsFiles s s') (hf : ∀ a, FailsClean (f a)) :
    FailsClean (p.bind f) := by
  intro s s' stop h
  obtain ⟨_, _, h⟩ | ⟨a, s₁, hfirst, h⟩ := h.bind_inv
  · exact hp _ _ _ h
  · exact (hp _ _ _ hfirst).trans (hf a _ _ _ h)

/-- A command before what fails clean. -/
theorem FailsClean.after {c : PurgeCmd} {β : Type} {f : c.Reply → PurgeJob β}
    (hc : ∀ path, c ≠ .removeFile path) (hf : ∀ a, FailsClean (f a)) :
    FailsClean ((perform c).bind f) :=
  .bind (fun _ _ _ => keepsFiles_perform hc) hf

theorem FailsClean.afterStores {α β : Type} {p : Job α} {f : α → PurgeJob β}
    (hf : ∀ a, FailsClean (f a)) : FailsClean ((inStore p).bind f) :=
  .bind (fun _ _ _ => keepsFiles_inStore) hf

theorem failsClean_underPermit {p : PurgeJob Unit} (hp : FailsClean p) :
    FailsClean (underPermit p) := by
  refine FailsClean.after (c := .store .acquire) nofun fun _ => ?_
  intro s s' stop h
  obtain ⟨r, s₁, hrun, ⟨hlast, hr⟩ | ⟨e, hlast, _⟩⟩ := Exec.ensuring_inv h
  · subst hr
    exact (hp _ _ _ hrun).trans (keepsFiles_perform (c := .store .release) nofun hlast)
  · exact absurd hlast (succeeds_release _ _ _)

theorem failsClean_purge (p : Purge) : FailsClean p.job := by
  cases p with
  | source id =>
    refine failsClean_underPermit (.after (c := .getSource id) nofun fun source => ?_)
    cases source with
    | none =>
      intro s s' stop h
      obtain ⟨_, rfl⟩ := Exec.fail_inv h
      exact .refl _
    | some source =>
      refine .after (c := .activeCoordinates source.notebookId) nofun fun coords => ?_
      refine .afterStores fun _ => .after (c := .deleteSource id) nofun fun _ => ?_
      exact (succeeds_removeManagedSourceFile id source.locator).failsClean
  | notebook id =>
    refine failsClean_underPermit (.after (c := .sourceFiles id) nofun fun sources => ?_)
    refine .after (c := .lanceTableNamesForNotebook id) nofun fun names => ?_
    refine .afterStores fun _ => .afterStores fun _ => ?_
    exact .after (c := .deleteNotebook id) nofun fun _ => (succeeds_removeFiles sources).failsClean

end Removed

section Targets

/-- The sources that a purge is about. -/
def Purge.targets (s : LibraryState) : Purge → List Source
  | .source id => s.engine.sources.filter fun x => x.id = id
  | .notebook id => if s.engine.notebook = id then s.engine.sources else []

/-- A command that went through, in a state that differs by the user's trash. -/
theorem performed_done {c : PurgeCmd} {α : Type} {f : c.Reply → PurgeJob α} {b : α}
    (h : PurgeRun ((perform c).bind f) s (.ok b) s') :
    ∃ a s₁ s₂, Unchanged s s₁ ∧ KeepsFiles s s₁ ∧ c.run s₁ = .ok (a, s₂) ∧
      PurgeRun (f a) s₂ (.ok b) s' := by
  obtain ⟨a, s₂, h, hf⟩ := h.bind_ok
  obtain ⟨x, hr⟩ := h.perform_inv
  obtain ⟨_, he, _, _⟩ | ⟨_, he, _, _⟩ | ⟨a', ha, hrun⟩ := PurgeCmd.react_cases hr
  · cases he
  · cases he
  · cases ha
    exact ⟨a, _, s₂, unchanged_after s x.others, keepsFiles_after s x.others, hrun, hf⟩

theorem underPermit_done {p : PurgeJob Unit} (h : PurgeRun (underPermit p) s (.ok ()) s') :
    ∃ s₁ s₂, Unchanged s s₁ ∧ KeepsFiles s s₁ ∧ PurgeRun p s₁ (.ok ()) s₂ ∧ KeepsFiles s₂ s' := by
  obtain ⟨_, t, s₁, hs, hkeep, hrun, h⟩ := performed_done (c := .store .acquire) h
  cases hrun
  obtain ⟨r, s₂, hp, ⟨hlast, hr⟩ | ⟨_, _, hr⟩⟩ := Exec.ensuring_inv h
  · subst hr
    refine ⟨_, s₂, hs.trans ?_, hkeep.trans ?_, hp,
      keepsFiles_perform (c := .store .release) nofun hlast⟩
    · exact ⟨fun _ => rfl, rfl, rfl, rfl, rfl, rfl, rfl, rfl, rfl⟩
    · exact ⟨rfl, rfl, rfl⟩
  · cases hr

theorem Removes.congr {a b : List Str} (h : Removes a s s') (hab : ∀ l, l ∈ a ↔ l ∈ b) :
    Removes b s s' := by
  refine ⟨fun f => ?_, h.cwd⟩
  rw [h.files]
  simp only [hab]

theorem KeepsFiles.removes_trans {a : List Str} (h : KeepsFiles s s₁) (h' : Removes a s₁ s') :
    Removes a s s' := h.removes.trans h'

theorem purgeSource_removes {id : String} (h : PurgeRun (purgeSourceJob id) s (.ok ()) s') :
    s.source? id ≠ none ∧ Removes [s.locator id] s s' := by
  obtain ⟨s₁, s₂, hs₁, hkeep₁, h, hkeep₂⟩ := underPermit_done h
  obtain ⟨source, s₃, s₄, hs₃, hkeep₃, hrun, h⟩ := performed_done (c := .getSource id) h
  cases hrun
  have hs := hs₁.trans hs₃
  have hkeep := hkeep₁.trans hkeep₃
  cases hsource : s₃.source? id with
  | none =>
    simp only [hsource] at h
    cases h
  | some x =>
    simp only [hsource] at h
    refine ⟨fun hnone => ?_, ?_⟩
    · rw [(hs.source?_isNone id).mpr hnone] at hsource
      cases hsource
    · obtain ⟨coords, s₅, hcoords, h⟩ := Exec.bind_ok h
      obtain ⟨_, s₆, hstores, h⟩ := Exec.bind_ok h
      obtain ⟨_, s₇, hdelete, h⟩ := Exec.bind_ok h
      have hfile := removes_managed h
      rw [hkeep.locator] at hfile
      have hbefore := hkeep.trans ((keepsFiles_perform (by nofun) hcoords).trans
        ((keepsFiles_inStore hstores).trans (keepsFiles_perform (by nofun) hdelete)))
      exact hbefore.removes_trans (hfile.trans hkeep₂.removes)

theorem purgeNotebook_removes {id : Str} (h : PurgeRun (purgeNotebookJob id) s (.ok ()) s') :
    Removes (if s.engine.notebook = id then
      (s.engine.sources.map Source.id).map s.locator else []) s s' := by
  obtain ⟨s₁, s₂, hs₁, hkeep₁, h, hkeep₂⟩ := underPermit_done h
  obtain ⟨sources, s₃, s₄, hs₃, hkeep₃, hrun, h⟩ := performed_done (c := .sourceFiles id) h
  cases hrun
  obtain ⟨names, s₅, hnames, h⟩ := Exec.bind_ok h
  obtain ⟨_, s₆, htables, h⟩ := Exec.bind_ok h
  obtain ⟨_, s₇, hentities, h⟩ := Exec.bind_ok h
  obtain ⟨_, s₈, hdelete, h⟩ := Exec.bind_ok h
  have hs := hs₁.trans hs₃
  have hkeep := hkeep₁.trans hkeep₃
  have hbefore := hkeep.trans ((keepsFiles_perform (by nofun) hnames).trans
    ((keepsFiles_inStore htables).trans ((keepsFiles_inStore hentities).trans
      (keepsFiles_perform (by nofun) hdelete))))
  have hfiles := hbefore.removes_trans ((removes_each h).trans hkeep₂.removes)
  rw [List.append_nil] at hfiles
  have hlist : (if s₃.engine.notebook = id then
      s₃.engine.sources.map fun x => (x.id, s₃.locator x.id) else []).map Prod.snd =
        if s.engine.notebook = id then (s.engine.sources.map Source.id).map s.locator else [] := by
    rw [hs.notebook]
    split
    · rw [← hs.sources, List.map_map, List.map_map]
      apply List.map_congr_left
      intro x _
      exact hkeep.locator x.id
    · rfl
  rwa [hlist] at hfiles

/-- A purge that is carried out removes the files that the locators of its sources name. -/
theorem purge_removes (p : Purge) (h : PurgeRun p.job s (.ok ()) s') :
    Removes ((p.targets s).map fun x => s.locator x.id) s s' := by
  cases p with
  | source id =>
    obtain ⟨hsome, hfiles⟩ := purgeSource_removes h
    apply hfiles.congr
    intro l
    obtain ⟨x, hx⟩ := Option.ne_none_iff_exists'.mp hsome
    have hmem := List.mem_of_find?_eq_some hx
    have hid : x.id = id := by simpa using List.find?_some hx
    simp only [Purge.targets, List.mem_singleton, List.mem_map, List.mem_filter,
      decide_eq_true_eq]
    constructor
    · intro hl
      exact ⟨x, ⟨hmem, hid⟩, by rw [hid, hl]⟩
    · intro hl
      obtain ⟨y, ⟨_, hy⟩, rfl⟩ := hl
      rw [hy]
  | notebook id =>
    apply (purgeNotebook_removes h).congr
    intro l
    simp only [Purge.targets]
    split
    · rw [List.map_map]
      rfl
    · rfl

end Targets

section Owned

def UnderDataDir (s : LibraryState) (f : Path) : Prop := s.dataDir.path <+: f

/-- No source that a purge is about keeps a path or a URL that names a file elsewhere. -/
def Purge.OwnsFiles (s : LibraryState) (p : Purge) : Prop :=
  ∀ x ∈ p.targets s, ¬ x.kind.IsManaged → ∀ f ∈ s.files,
    f = PathText.resolve s.cwd (s.locator x.id) → UnderDataDir s f

theorem Purge.targets_subset (p : Purge) {x : Source} (h : x ∈ p.targets s) :
    x ∈ s.engine.sources := by
  cases p with
  | source id => exact (List.mem_filter.mp h).1
  | notebook id =>
    simp only [Purge.targets] at h
    split at h
    · exact h
    · cases h

/-- The managed copy of a source is under the data directory. -/
theorem Managed.underDataDir (h : Managed s) {x : Source} (hx : x ∈ s.engine.sources)
    (hkind : x.kind.IsManaged) : UnderDataDir s (PathText.resolve s.cwd (s.locator x.id)) := by
  obtain ⟨n, hn, hloc⟩ := h x hx hkind
  have hnormal : ∀ m ∈ s.dataDir.path ++ ["sources".toList, n], Normal m := by
    intro m hm
    rcases List.mem_append.mp hm with hm | hm
    · exact s.dataDir.normal m hm
    · rcases List.mem_cons.mp hm with hm | hm
      · rw [hm]
        decide
      · rwa [List.mem_singleton.mp hm]
  unfold UnderDataDir
  rw [hloc, resolve_display hnormal (by simp)]
  exact List.prefix_append _ _

variable {host : LibraryHost}

/-- A purge that is carried out has removed files under the data directory only, exactly if no
source with a locator of the user names another. One that fails has removed nothing. -/
theorem purge_removes_owned_iff (h : Reachable host s) (p : Purge) {r : Except Stop Unit}
    (hrun : PurgeRun p.job s r s') :
    (r = .ok () → ((∀ f ∈ s.files, f ∉ s'.files → UnderDataDir s f) ↔ p.OwnsFiles s)) ∧
      ∀ stop, r = .error stop → s'.files = s.files := by
  refine ⟨fun hok => ?_, fun stop hfail => ?_⟩
  · subst hok
    have hfiles := (purge_removes p hrun).files
    have hmanaged := managed_of_reachable host h
    constructor
    · intro howned x hx _ f hf hloc
      apply howned f hf
      intro hkept
      exact ((hfiles f).mp hkept).2 _ (List.mem_map.mpr ⟨x, hx, rfl⟩) hloc
    · intro howned f hf hgone
      rw [hfiles] at hgone
      simp only [hf, true_and, List.mem_map, forall_exists_index, and_imp, not_forall,
        forall_apply_eq_imp_iff₂] at hgone
      obtain ⟨x, hx, hloc⟩ := hgone
      have hloc := not_not.mp hloc
      by_cases hkind : x.kind.IsManaged
      · rw [hloc]
        exact hmanaged.underDataDir (p.targets_subset hx) hkind
      · exact howned x hx hkind f hf hloc
  · subst hfail
    exact (failsClean_purge p _ _ _ hrun).files

end Owned

section Examples

/-- The user's own file as a source, in the trash. -/
def pathLibrary : LibraryState :=
  (addSource plainLibraryHost "s1" "/home/a.pdf".toList newLibrary).2.after [.trashSource "s1"]

theorem reachable_pathLibrary : Reachable plainLibraryHost pathLibrary :=
  .step (.step (reachable_newLibrary plainLibraryHost) (.addSource "s1" _ rfl (by decide)))
    (.trash _)

/-- The purge of a source of a path removes the user's file. -/
theorem purge_removes_users_file : ∃ s',
    Reachable plainLibraryHost pathLibrary ∧
      PurgeRun (Purge.source "s1").job pathLibrary (.ok ()) s' ∧
      ∃ f ∈ pathLibrary.files, f ∉ s'.files ∧ ¬ UnderDataDir pathLibrary f := by
  have hrun : ∃ s', purgeQuietly (.source "s1") pathLibrary = some (.ok (), s') ∧
      ["home".toList, "a.pdf".toList] ∉ s'.files := ⟨_, rfl, by decide⟩
  obtain ⟨s', hrun, hgone⟩ := hrun
  exact ⟨s', reachable_pathLibrary, exec_of_runWith hrun, _, by decide, hgone, by
    unfold UnderDataDir
    decide⟩

/-- That of a text leaves it. -/
theorem purge_keeps_users_file : ∃ s',
    PurgeRun (Purge.source "s1").job (textLibrary.after [.trashSource "s1"]) (.ok ()) s' ∧
      ∀ f ∈ textLibrary.files, f ∉ s'.files → UnderDataDir textLibrary f := by
  have hreach : Reachable plainLibraryHost (textLibrary.after [.trashSource "s1"]) :=
    .step reachable_textLibrary (.trash _)
  have hrun : ∃ s', purgeQuietly (.source "s1") (textLibrary.after [.trashSource "s1"]) =
      some (.ok (), s') := ⟨_, rfl⟩
  obtain ⟨s', hrun⟩ := hrun
  have howned : (Purge.source "s1").OwnsFiles (textLibrary.after [.trashSource "s1"]) := by
    intro x hx hkind
    have hall : ∀ x ∈ (Purge.source "s1").targets (textLibrary.after [.trashSource "s1"]),
        x.kind.IsManaged := by decide
    exact absurd (hall x hx) hkind
  refine ⟨s', exec_of_runWith hrun, ?_⟩
  exact ((purge_removes_owned_iff hreach _ (exec_of_runWith hrun)).1 rfl).mpr howned

end Examples

end LensLM
