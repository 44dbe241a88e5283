import LensLM.Purge

/-!
# Refused purges

A purge that the database refuses has dropped the vectors by then. It has changed nothing exactly
if there were none to drop.
-/

namespace LensLM

open ByteText Programs Program PathText

set_option autoImplicit false

section Frames

/-- The rows of a table, if it exists, as a change of the tables leaves them. -/
abbrev TableChange := Str → Option (List VectorRow) → Option (List VectorRow)

/-- The tables are changed, and the registry, the chunks and all files are as before. -/
structure Leaves (f : TableChange) (s s' : LibraryState) : Prop where
  tables : ∀ n, s'.engine.tables.lookup n = f n (s.engine.tables.lookup n)
  sources : s'.engine.sources.map Source.id = s.engine.sources.map Source.id
  registry : s'.engine.registry = s.engine.registry
  chunks : s'.engine.chunks = s.engine.chunks
  sections : s'.engine.sections = s.engine.sections
  files : s'.files = s.files
  extracted : s'.engine.extracted = s.engine.extracted
  tableMarkdown : s'.engine.tableMarkdown = s.engine.tableMarkdown
  notebook : s'.engine.notebook = s.engine.notebook

/-- All tables, registry rows, chunks and files are as before. -/
abbrev Unchanged : LibraryState → LibraryState → Prop := Leaves fun _ rows => rows

variable {f g : TableChange} {s s₁ s' : LibraryState}

theorem Leaves.trans (h : Leaves f s s₁) (h' : Leaves g s₁ s') :
    Leaves (fun n rows => g n (f n rows)) s s' where
  tables n := by rw [h'.tables, h.tables]
  sources := h'.sources.trans h.sources
  registry := h'.registry.trans h.registry
  chunks := h'.chunks.trans h.chunks
  sections := h'.sections.trans h.sections
  files := h'.files.trans h.files
  extracted := h'.extracted.trans h.extracted
  tableMarkdown := h'.tableMarkdown.trans h.tableMarkdown
  notebook := h'.notebook.trans h.notebook

theorem Unchanged.refl (s : LibraryState) : Unchanged s s :=
  ⟨fun _ => rfl, rfl, rfl, rfl, rfl, rfl, rfl, rfl, rfl⟩

/-- It is enough that the changes agree on the tables there are. -/
theorem Leaves.congr (h : Leaves f s s') (hfg : ∀ n,
    f n (s.engine.tables.lookup n) = g n (s.engine.tables.lookup n)) : Leaves g s s' :=
  { h with tables := fun n => (h.tables n).trans (hfg n) }

theorem Leaves.source?_isNone (h : Leaves f s s') (id : String) :
    s'.source? id = none ↔ s.source? id = none := by
  have hnone : ∀ t : LibraryState, t.source? id = none ↔ id ∉ t.engine.sources.map Source.id := by
    intro t
    simp [LibraryState.source?, EngineState.source?]
  rw [hnone, hnone, h.sources]

theorem unchanged_update (s : LibraryState) (id : String) {u : Source → Source}
    (hid : ∀ x, (u x).id = x.id) : Unchanged s (s.updateSource id u) := by
  refine ⟨fun _ => rfl, ?_, rfl, rfl, rfl, rfl, rfl, rfl, rfl⟩
  show (s.engine.sources.map fun x => if x.id = id then u x else x).map Source.id = _
  rw [List.map_map]
  apply List.map_congr_left
  intro x _
  dsimp only [Function.comp_apply]
  split
  · exact hid x
  · rfl

/-- The user's trash touches none of it. -/
theorem unchanged_after (s : LibraryState) (events : List TrashEvent) :
    Unchanged s (s.after events) := by
  induction events generalizing s with
  | nil => exact .refl s
  | cons e events ih =>
    have hstep : Unchanged s ((TrashEvent.run s e).toOption.getD s) := by
      cases e with
      | trashSource | restoreSource | trashNotebook | restoreNotebook =>
        simp only [TrashEvent.run]
        repeat' split
        all_goals first
          | exact .refl s
          | exact unchanged_update s _ fun _ => rfl
          | exact ⟨fun _ => rfl, rfl, rfl, rfl, rfl, rfl, rfl, rfl, rfl⟩
    exact hstep.trans (ih _)

/-- Without the rows of a source, in the tables with the given names. -/
def wipe (sourceId : String) (names : List Str) : TableChange := fun n rows =>
  if n ∈ names then rows.map (List.filter fun r => r.sourceId ≠ sourceId) else rows

def dropped (names : List Str) : TableChange := fun n rows => if n ∈ names then none else rows

theorem Leaves.wipe_wipe {sourceId : String} {a b : List Str}
    (h : Leaves (wipe sourceId a) s s₁) (h' : Leaves (wipe sourceId b) s₁ s') :
    Leaves (wipe sourceId (a ++ b)) s s' := by
  apply (h.trans h').congr
  intro n
  unfold wipe
  by_cases ha : n ∈ a
  · by_cases hb : n ∈ b
    · simp [ha, hb, Option.map_map, Function.comp_def, List.filter_filter]
    · simp [ha, hb]
  · simp [ha]

theorem Leaves.dropped_dropped {a b : List Str} (h : Leaves (dropped a) s s₁)
    (h' : Leaves (dropped b) s₁ s') : Leaves (dropped (a ++ b)) s s' := by
  apply (h.trans h').congr
  intro n
  unfold dropped
  by_cases ha : n ∈ a
  · simp [ha]
  · simp [ha]

/-- A table that does not exist has no rows to delete. -/
theorem Leaves.wipe_absent (h : Unchanged s s') (sourceId : String) (names : List Str)
    (habsent : ∀ n ∈ names, s.engine.tables.lookup n = none) :
    Leaves (wipe sourceId names) s s' := by
  apply h.congr
  intro n
  unfold wipe
  split
  · rename_i hn
    rw [habsent n hn]
    rfl
  · rfl

theorem Leaves.drop_absent (h : Unchanged s s') (names : List Str)
    (habsent : ∀ n ∈ names, s.engine.tables.lookup n = none) : Leaves (dropped names) s s' := by
  apply h.congr
  intro n
  unfold dropped
  split
  · rename_i hn
    exact habsent n hn
  · rfl

end Frames

section Specs

/-- A job of the stores inside of a purge: what it leaves, unless a store fails. -/
def Spec {α : Type} (p : Job α) (Q : α → LibraryState → LibraryState → Prop) : Prop :=
  ∀ s r s', Exec (fun c => PurgeCmd.react (.store c)) p s r s' →
    (∃ a, r = .ok a ∧ Q a s s') ∨ ∃ e, r = .error (.failed e) ∧ e.kind ≠ "Validation"

variable {α β : Type}

theorem Spec.ret (a : α) : Spec (.ret a) fun b s s' => b = a ∧ Unchanged s s' := by
  intro s r s' h
  obtain ⟨rfl, rfl⟩ := h.ret_inv
  exact .inl ⟨a, rfl, rfl, .refl _⟩

theorem Spec.bind {p : Job α} {f : α → Job β} {Q : α → LibraryState → LibraryState → Prop}
    {R : α → β → LibraryState → LibraryState → Prop} (hp : Spec p Q) (hf : ∀ a, Spec (f a) (R a)) :
    Spec (p.bind f) fun b s s' => ∃ a s₁, Q a s s₁ ∧ R a b s₁ s' := by
  intro s r s' h
  obtain ⟨e, he, hfirst⟩ | ⟨a, s₁, hfirst, hsecond⟩ := h.bind_inv
  · obtain ⟨_, ha, _⟩ | ⟨e', he', hkind⟩ := hp _ _ _ hfirst
    · cases ha
    · cases he'
      exact .inr ⟨e', he, hkind⟩
  · obtain ⟨a', ha, hQ⟩ | ⟨_, he, _⟩ := hp _ _ _ hfirst
    · cases ha
      obtain ⟨b, hb, hR⟩ | hfail := hf a _ _ _ hsecond
      · exact .inl ⟨b, hb, a, s₁, hQ, hR⟩
      · exact .inr hfail
    · cases he

theorem Spec.mono {p : Job α} {Q R : α → LibraryState → LibraryState → Prop} (h : Spec p Q)
    (hQR : ∀ a s s', Q a s s' → R a s s') : Spec p R := by
  intro s r s' hexec
  obtain ⟨a, ha, hQ⟩ | hfail := h s r s' hexec
  · exact .inl ⟨a, ha, hQR a s s' hQ⟩
  · exact .inr hfail

/-- One command, whose own errors are not refusals. -/
theorem Spec.perform {c : Cmd} {Q : c.Reply → LibraryState → LibraryState → Prop}
    (herr : ∀ s e, c.run s = .error e → e.kind ≠ "Validation")
    (hok : ∀ s a t, c.run s.engine = .ok (a, t) → Q a s { s with engine := t })
    (hQ : ∀ a s s₁ s', Unchanged s s₁ → Q a s₁ s' → Q a s s') :
    Spec (Program.perform c) Q := by
  intro s r s' h
  obtain ⟨x, hr⟩ := h.perform_inv
  have hafter := unchanged_after s x.others
  obtain ⟨e, hr, _, _⟩ | ⟨e, hr, hrun, _⟩ | ⟨a, hr, hrun⟩ := PurgeCmd.react_cases hr
  · exact .inr ⟨e.error, hr, e.notValidation⟩
  · refine .inr ⟨e, hr, herr (s.after x.others).engine e ?_⟩
    cases hc : c.run (s.after x.others).engine with
    | error e' =>
      rw [PurgeCmd.run, hc] at hrun
      cases hrun
      rfl
    | ok out =>
      rw [PurgeCmd.run, hc] at hrun
      cases hrun
  · refine .inl ⟨a, hr, hQ _ _ _ _ hafter ?_⟩
    cases hc : c.run (s.after x.others).engine with
    | error e' =>
      rw [PurgeCmd.run, hc] at hrun
      cases hrun
    | ok out =>
      rw [PurgeCmd.run, hc] at hrun
      cases hrun
      exact hok _ _ _ hc

theorem spec_tableNames : Spec (Program.perform Cmd.tableNames) fun existing s s' =>
    (∀ n, n ∈ existing ↔ (s.engine.tables.lookup n).isSome) ∧ Unchanged s s' := by
  apply Spec.perform
  · intro s e h
    cases h
  · intro s a t h
    cases h
    exact ⟨fun n => (AList.lookup_isSome (s := s.engine.tables)).symm, .refl s⟩
  · intro a s s₁ s' hs h
    refine ⟨fun n => ?_, hs.trans h.2⟩
    rw [h.1, hs.tables]

theorem spec_openTable (n : Str) :
    Spec (Program.perform (Cmd.openTable n)) fun _ s s' => Unchanged s s' := by
  apply Spec.perform
  · intro s e h
    simp only [Cmd.run] at h
    split at h
    · cases h
    · cases h
      decide
  · intro s a t h
    simp only [Cmd.run] at h
    split at h
    · cases h
      exact .refl s
    · cases h
  · exact fun _ _ _ _ hs h => hs.trans h

theorem spec_activeLanceTableName (c : Coordinate) :
    Spec (Program.perform (Cmd.activeLanceTableName c)) fun name s s' =>
      name = s.engine.registry.activeName c ∧ Unchanged s s' := by
  apply Spec.perform
  · intro s e h
    cases h
  · intro s a t h
    cases h
    exact ⟨rfl, .refl s⟩
  · intro a s s₁ s' hs h
    exact ⟨hs.registry ▸ h.1, hs.trans h.2⟩

theorem leaves_withRows {f : TableChange} (s : LibraryState) (n : Str) (rows : List VectorRow)
    (hn : some rows = f n (s.engine.tables.lookup n))
    (hf : ∀ m, m ≠ n → f m (s.engine.tables.lookup m) = s.engine.tables.lookup m) :
    Leaves f s { s with engine := s.engine.withRows n rows } := by
  refine ⟨fun m => ?_, rfl, rfl, rfl, rfl, rfl, rfl, rfl, rfl⟩
  unfold EngineState.withRows
  dsimp only
  by_cases hm : m = n
  · rw [hm, AList.lookup_insert, ← hn]
  · rw [AList.lookup_insert_ne hm, hf m hm]

theorem spec_deleteRows (n : Str) (sourceId : String) :
    Spec (Program.perform (Cmd.deleteRows n sourceId)) fun _ => Leaves (wipe sourceId [n]) := by
  apply Spec.perform
  · intro s e h
    simp only [Cmd.run] at h
    split at h
    · cases h
    · cases h
      decide
  · intro s a t h
    simp only [Cmd.run] at h
    split at h
    · rename_i old hold
      cases h
      apply leaves_withRows
      · rw [wipe, if_pos List.mem_cons_self, hold]
        rfl
      · intro m hm
        rw [wipe, if_neg (by simpa using hm)]
    · cases h
  · exact fun _ _ _ _ hs h => hs.trans h

theorem spec_dropTable (n : Str) :
    Spec (Program.perform (Cmd.dropTable n)) fun _ => Leaves (dropped [n]) := by
  apply Spec.perform
  · intro s e h
    simp only [Cmd.run] at h
    split at h
    · cases h
    · cases h
      decide
  · intro s a t h
    simp only [Cmd.run] at h
    split at h
    · cases h
      refine ⟨fun m => ?_, rfl, rfl, rfl, rfl, rfl, rfl, rfl, rfl⟩
      unfold dropped
      dsimp only
      by_cases hm : m = n
      · rw [hm, AList.lookup_erase, if_pos List.mem_cons_self]
      · rw [AList.lookup_erase_ne hm, if_neg (by simpa using hm)]
    · cases h
  · exact fun _ _ _ _ hs h => hs.trans h

/-- Finds a table by its name exactly if it exists. -/
theorem spec_openTableByName (n : Str) : Spec (openTableByName n) fun table s s' =>
    table = (if (s.engine.tables.lookup n).isSome then some n else none) ∧ Unchanged s s' := by
  unfold openTableByName
  refine (Spec.bind (R := fun existing table s s' =>
    table = (if n ∈ existing then some n else none) ∧ Unchanged s s') spec_tableNames ?_).mono ?_
  · intro existing
    split
    · refine (Spec.bind (spec_openTable n) fun _ => Spec.ret (some n)).mono ?_
      intro table s s' h
      obtain ⟨_, s₁, h, htable, h'⟩ := h
      exact ⟨htable, h.trans h'⟩
    · exact Spec.ret none
  · intro table s s' h
    obtain ⟨existing, s₁, ⟨hmem, h⟩, htable, h'⟩ := h
    refine ⟨?_, h.trans h'⟩
    rw [htable]
    simp only [hmem]

theorem spec_openActiveTable (c : Coordinate) : Spec (openActiveTable c) fun table s s' =>
    table = ((s.engine.registry.activeName c).filter fun n => (s.engine.tables.lookup n).isSome) ∧
      Unchanged s s' := by
  unfold openActiveTable
  refine (Spec.bind (R := fun name table s s' =>
    table = (name.filter fun n => (s.engine.tables.lookup n).isSome) ∧ Unchanged s s')
      (spec_activeLanceTableName c) ?_).mono ?_
  · intro name
    cases name with
    | none => exact Spec.ret none
    | some n =>
      refine (spec_openTableByName n).mono ?_
      intro table s s' h
      refine ⟨?_, h.2⟩
      rw [h.1, Option.filter_some]
  · intro table s s' h
    obtain ⟨name, s₁, ⟨hname, h⟩, htable, h'⟩ := h
    refine ⟨?_, h.trans h'⟩
    rw [htable, hname]
    simp only [h.tables]

theorem spec_dropSource (c : Coordinate) (sourceId : String) :
    Spec (dropSource c sourceId) fun _ s s' =>
      Leaves (wipe sourceId (s.engine.registry.activeName c).toList) s s' := by
  unfold dropSource
  refine (Spec.bind (R := fun table _ s s' => Leaves (wipe sourceId table.toList) s s')
    (spec_openActiveTable c) ?_).mono ?_
  · intro table
    cases table with
    | none => exact (Spec.ret ()).mono fun _ _ _ h => .wipe_absent h.2 sourceId [] nofun
    | some n => exact spec_deleteRows n sourceId
  · intro _ s s' h
    obtain ⟨table, s₁, ⟨htable, h⟩, h'⟩ := h
    cases hname : s.engine.registry.activeName c with
    | none =>
      rw [hname] at htable
      rw [htable] at h'
      exact h.trans h'
    | some n =>
      rw [hname, Option.filter_some] at htable
      split at htable
      · rw [htable] at h'
        exact h.trans h'
      · rename_i hnone
        rw [htable] at h'
        have hsame : Unchanged s s' := (h.trans h').congr fun n => if_neg List.not_mem_nil
        apply Leaves.wipe_absent hsame
        intro m hm
        rw [List.mem_singleton.mp hm]
        simpa using hnone

theorem spec_dropEntitySource (c : Coordinate) (sourceId : String) :
    Spec (dropEntitySource c sourceId) fun _ => Leaves (wipe sourceId [entityTableName c]) := by
  unfold dropEntitySource
  refine (Spec.bind (R := fun table _ s s' => Leaves (wipe sourceId table.toList) s s')
    (spec_openTableByName (entityTableName c)) ?_).mono ?_
  · intro table
    cases table with
    | none => exact (Spec.ret ()).mono fun _ _ _ h => .wipe_absent h.2 sourceId [] nofun
    | some n => exact spec_deleteRows n sourceId
  · intro _ s s' h
    obtain ⟨table, s₁, ⟨htable, h⟩, h'⟩ := h
    split at htable
    · rw [htable] at h'
      exact h.trans h'
    · rename_i hnone
      rw [htable] at h'
      have hsame : Unchanged s s' := (h.trans h').congr fun n => if_neg List.not_mem_nil
      apply Leaves.wipe_absent hsame
      intro m hm
      rw [List.mem_singleton.mp hm]
      simpa using hnone

/-- The tables with the vectors of a notebook's sources: of every active coordinate that of its
chunks and that of its entities. -/
def vectorTables (s : LibraryState) (coords : List Coordinate) : List Str :=
  coords.flatMap fun c => (s.engine.registry.activeName c).toList ++ [entityTableName c]

theorem spec_dropVectors (sourceId : String) (coords : List Coordinate) :
    Spec (forEach coords (dropSourceVectors sourceId)) fun _ s s' =>
      Leaves (wipe sourceId (vectorTables s coords)) s s' := by
  induction coords with
  | nil =>
    refine (Spec.ret ()).mono fun _ s s' h => ?_
    exact .wipe_absent h.2 sourceId [] nofun
  | cons c coords ih =>
    have hone : Spec (dropSourceVectors sourceId c) fun _ s s' =>
        Leaves (wipe sourceId ((s.engine.registry.activeName c).toList ++ [entityTableName c])) s s' :=
      (Spec.bind (spec_dropSource c sourceId) fun _ => spec_dropEntitySource c sourceId).mono
        fun _ s s' h => by
          obtain ⟨_, s₁, h, h'⟩ := h
          exact h.wipe_wipe h'
    refine (Spec.bind hone fun _ => ih).mono fun _ s s' h => ?_
    obtain ⟨_, s₁, h, h'⟩ := h
    have hsame : vectorTables s₁ coords = vectorTables s coords := by
      unfold vectorTables
      rw [h.registry]
    rw [hsame] at h'
    exact h.wipe_wipe h'

theorem spec_dropListed (existing names : List Str) :
    Spec (forEach names fun n =>
      if n ∈ existing then perform (.dropTable n : Cmd) else return ()) fun _ =>
        Leaves (dropped (names.filter (· ∈ existing))) := by
  induction names with
  | nil => exact (Spec.ret ()).mono fun _ s s' h => .drop_absent h.2 [] nofun
  | cons n names ih =>
    have hone : Spec (if n ∈ existing then perform (.dropTable n : Cmd) else return ()) fun _ =>
        Leaves (dropped ([n].filter (· ∈ existing))) := by
      split
      · rename_i hn
        rw [List.filter_cons_of_pos (by simpa using hn)]
        exact spec_dropTable n
      · rename_i hn
        rw [List.filter_cons_of_neg (by simpa using hn)]
        exact (Spec.ret ()).mono fun _ s s' h => .drop_absent h.2 [] nofun
    refine (Spec.bind hone fun _ => ih).mono fun _ s s' h => ?_
    obtain ⟨_, s₁, h, h'⟩ := h
    have hlist : (n :: names).filter (· ∈ existing) =
        [n].filter (· ∈ existing) ++ names.filter (· ∈ existing) := List.filter_append [n] names
    rw [hlist]
    exact h.dropped_dropped h'

/-- Drops the named tables, of those that exist. -/
theorem spec_dropTables (names : List Str) :
    Spec (dropTables names) fun _ => Leaves (dropped names) := by
  unfold dropTables
  split
  · rename_i hnil
    rw [List.isEmpty_iff.mp hnil]
    exact (Spec.ret ()).mono fun _ s s' h => .drop_absent h.2 [] nofun
  · refine (Spec.bind spec_tableNames fun existing => spec_dropListed existing names).mono ?_
    intro _ s s' h
    obtain ⟨existing, s₁, ⟨hmem, h⟩, h'⟩ := h
    apply (h.trans h').congr
    intro n
    unfold dropped
    by_cases hex : n ∈ existing
    · simp [hex]
    · have habsent : s.engine.tables.lookup n = none := by simpa [hmem] using hex
      simp [hex, habsent]

/-- Drops all tables with the prefix of the notebook's entity tables. -/
theorem spec_dropEntityTables (notebook : Str) :
    Spec (dropEntityTablesForNotebook notebook) fun _ s s' =>
      Leaves (fun n rows => if entityTablePrefix notebook <+: n then none else rows) s s' := by
  unfold dropEntityTablesForNotebook
  refine (Spec.bind spec_tableNames fun existing => spec_dropTables _).mono ?_
  intro _ s s' h
  obtain ⟨existing, s₁, ⟨hmem, h⟩, h'⟩ := h
  apply (h.trans h').congr
  intro n
  unfold dropped
  by_cases hex : n ∈ existing
  · simp [hex]
  · have habsent : s.engine.tables.lookup n = none := by simpa [hmem] using hex
    simp [hex, habsent]

end Specs

section Refused

variable {s s₁ s₂ s' : LibraryState} {e : LensError}

/-- A command runs in a state that differs by the user's trash. If it is refused, then by itself. -/
theorem performed {c : PurgeCmd} {r : Except Stop c.Reply}
    (h : PurgeRun (Program.perform c) s r s') :
    (∃ e, r = .error (.failed e) ∧ Unchanged s s' ∧
      (e.kind = "Validation" → ∃ s₁, Unchanged s s₁ ∧ c.run s₁ = .error e)) ∨
    ∃ a s₁, r = .ok a ∧ Unchanged s s₁ ∧ c.run s₁ = .ok (a, s') := by
  obtain ⟨x, hr⟩ := h.perform_inv
  have hafter := unchanged_after s x.others
  obtain ⟨f, hres, _, rfl⟩ | ⟨e, hres, hrun, rfl⟩ | ⟨a, hres, hrun⟩ := PurgeCmd.react_cases hr
  · exact .inl ⟨f.error, hres, hafter, fun hkind => absurd hkind f.notValidation⟩
  · exact .inl ⟨e, hres, hafter, fun _ => ⟨_, hafter, hrun⟩⟩
  · exact .inr ⟨a, _, hres, hafter, hrun⟩

/-- A command that is never refused goes through, or the error is no refusal. -/
theorem performed_ok {c : PurgeCmd} {α : Type} {f : c.Reply → PurgeJob α}
    (h : PurgeRun ((Program.perform c).bind f) s (.error (.failed e)) s')
    (he : e.kind = "Validation") (hc : ∀ t e, c.run t ≠ .error e) :
    ∃ a s₁ s₂, Unchanged s s₁ ∧ c.run s₁ = .ok (a, s₂) ∧
      PurgeRun (f a) s₂ (.error (.failed e)) s' := by
  obtain ⟨_, he', h⟩ | ⟨a, s₂, h, hf⟩ := h.bind_inv
  · cases he'
    obtain ⟨e', he', _, hkind⟩ | ⟨a, _, ha, _⟩ := performed h
    · cases he'
      obtain ⟨t, _, hrun⟩ := hkind he
      exact absurd hrun (hc t e)
    · cases ha
  · obtain ⟨_, he', _⟩ | ⟨a', s₁, ha, hs, hrun⟩ := performed h
    · cases he'
    · cases ha
      exact ⟨a, s₁, s₂, hs, hrun, hf⟩

/-- A job of the stores is never refused. -/
theorem inStore_ok {α β : Type} {p : Job α} {Q : α → LibraryState → LibraryState → Prop}
    (hp : Spec p Q) {f : α → PurgeJob β}
    (h : PurgeRun ((inStore p).bind f) s (.error (.failed e)) s') (he : e.kind = "Validation") :
    ∃ a s₁, Q a s s₁ ∧ PurgeRun (f a) s₁ (.error (.failed e)) s' := by
  obtain ⟨_, he', h⟩ | ⟨a, s₁, h, hf⟩ := h.bind_inv
  · cases he'
    obtain ⟨_, ha, _⟩ | ⟨e', he', hkind⟩ := hp _ _ _ h.embed_inv
    · cases ha
    · cases he'
      exact absurd he hkind
  · obtain ⟨a', ha, hQ⟩ | ⟨_, he', _⟩ := hp _ _ _ h.embed_inv
    · cases ha
      exact ⟨a, s₁, hQ, hf⟩
    · cases he'

/-- Many commands have a reply in every state. -/
theorem run_ne_error {c : PurgeCmd} {f : LibraryState → c.Reply × LibraryState}
    (h : ∀ t, c.run t = .ok (f t)) (t : LibraryState) (e : LensError) : c.run t ≠ .error e := by
  rw [h]
  nofun

/-- A job that never fails. -/
def Succeeds {α : Type} (p : PurgeJob α) : Prop := ∀ s s' stop, ¬ PurgeRun p s (.error stop) s'

theorem Succeeds.bind {α β : Type} {p : PurgeJob α} {f : α → PurgeJob β} (hp : Succeeds p)
    (hf : ∀ a, Succeeds (f a)) : Succeeds (p.bind f) := by
  intro s s' stop h
  obtain ⟨_, he, h⟩ | ⟨a, s₁, _, h⟩ := h.bind_inv
  · cases he
    exact hp _ _ _ h
  · exact hf a _ _ _ h

theorem Succeeds.perform {c : PurgeCmd} (hc : c.canFail = false) (hrun : ∀ t e, c.run t ≠ .error e) :
    Succeeds (Program.perform c) := by
  intro s s' stop h
  obtain ⟨x, hr⟩ := h.perform_inv
  obtain ⟨_, _, hcan, _⟩ | ⟨e, _, he, _⟩ | ⟨_, ha, _⟩ := PurgeCmd.react_cases hr
  · rw [hc] at hcan
    cases hcan
  · exact hrun _ e he
  · cases ha

theorem succeeds_release : Succeeds (Program.perform (.store .release : PurgeCmd)) :=
  .perform rfl (run_ne_error fun _ => rfl)

theorem succeeds_removeManagedSourceFile (id : String) (locator : Str) :
    Succeeds (removeManagedSourceFile id locator) :=
  Succeeds.bind (.perform rfl (run_ne_error fun _ => rfl)) fun _ => .perform rfl (run_ne_error fun _ => rfl)

theorem succeeds_removeFiles (sources : List (String × Str)) :
    Succeeds (forEach sources fun x => removeManagedSourceFile x.1 x.2) := by
  induction sources with
  | nil =>
    intro s s' stop h
    cases h
  | cons x sources ih => exact (succeeds_removeManagedSourceFile x.1 x.2).bind fun _ => ih

/-- A command that ends a job with a refusal, before what never fails. -/
theorem refused_last {c : PurgeCmd} {α : Type} {f : c.Reply → PurgeJob α}
    (hf : ∀ a, Succeeds (f a))
    (h : PurgeRun ((Program.perform c).bind f) s (.error (.failed e)) s') : Unchanged s s' := by
  obtain ⟨_, he, h⟩ | ⟨a, s₁, _, h⟩ := h.bind_inv
  · cases he
    obtain ⟨_, _, hs, _⟩ | ⟨a, _, ha, _⟩ := performed h
    · exact hs
    · cases ha
  · exact absurd h (hf a _ _ _)

/-- What is refused under the permit is refused without it. -/
theorem refused_underPermit {p : PurgeJob Unit}
    (h : PurgeRun (underPermit p) s (.error (.failed e)) s') (he : e.kind = "Validation") :
    ∃ s₁ s₂, Unchanged s s₁ ∧ PurgeRun p s₁ (.error (.failed e)) s₂ ∧ Unchanged s₂ s' := by
  obtain ⟨_, t, s₁, hs, hrun, h⟩ := performed_ok h he (run_ne_error fun _ => rfl)
  have hlock : Unchanged t s₁ := by
    cases hrun
    exact ⟨fun _ => rfl, rfl, rfl, rfl, rfl, rfl, rfl, rfl, rfl⟩
  obtain ⟨r, s₂, hp, ⟨hlast, hr⟩ | ⟨stop, hlast, _⟩⟩ := h.ensuring_inv
  · subst hr
    refine ⟨s₁, s₂, hs.trans hlock, hp, ?_⟩
    obtain ⟨_, he', _⟩ | ⟨_, t', _, hs', hrun'⟩ := performed hlast
    · cases he'
    · cases hrun'
      exact hs'.trans ⟨fun _ => rfl, rfl, rfl, rfl, rfl, rfl, rfl, rfl, rfl⟩
  · exact absurd hlast (succeeds_release _ _ _)

/-- The active coordinates of the notebook. -/
def notebookCoords (s : LibraryState) : List Coordinate :=
  (activeCoords s.engine.registry.rows).filter fun c => c.notebook = s.engine.notebook

theorem refused_source {id : String} (h : PurgeRun (purgeSourceJob id) s (.error (.failed e)) s')
    (he : e.kind = "Validation") : s.source? id = none ∧ Unchanged s s' ∨
      s.source? id ≠ none ∧ Leaves (wipe id (vectorTables s (notebookCoords s))) s s' := by
  obtain ⟨s₁, s₂, hs₁, h, hs'⟩ := refused_underPermit h he
  obtain ⟨source, s₃, s₄, hs₃, hrun, h⟩ := performed_ok h he (run_ne_error fun _ => rfl)
  cases hrun
  have hs := hs₁.trans hs₃
  cases hsource : s₃.source? id with
  | none =>
    simp only [hsource] at h
    obtain ⟨_, rfl⟩ := h.fail_inv
    exact .inl ⟨(hs.source?_isNone id).mp hsource, hs.trans hs'⟩
  | some x =>
    simp only [hsource] at h
    obtain ⟨coords, s₅, s₆, hs₅, hrun, h⟩ := performed_ok h he (run_ne_error fun _ => rfl)
    cases hrun
    obtain ⟨_, s₇, hs₇, h⟩ := inStore_ok (spec_dropVectors id _) h he
    have hlast := refused_last (fun _ => succeeds_removeManagedSourceFile id _) h
    have hread := hs.trans hs₅
    refine .inr ⟨fun hnone => ?_, ?_⟩
    · rw [(hs.source?_isNone id).mpr hnone] at hsource
      cases hsource
    · have hcoords : vectorTables s₅ ((activeCoords s₅.engine.registry.rows).filter
          fun c => c.notebook = s₃.engine.notebook) = vectorTables s (notebookCoords s) := by
        unfold vectorTables notebookCoords
        rw [hread.registry, hs.notebook]
      rw [hcoords] at hs₇
      exact hread.trans (hs₇.trans (hlast.trans hs'))

/-- The names in the registry of the notebook's tables. -/
def notebookTables (s : LibraryState) (notebook : Str) : List Str :=
  (s.engine.registry.rows.filter fun row => row.coord.notebook = notebook).map RegistryRow.table

theorem refused_notebook {id : Str} (h : PurgeRun (purgeNotebookJob id) s (.error (.failed e)) s')
    (he : e.kind = "Validation") :
    Leaves (fun n rows => if entityTablePrefix id <+: n then none
      else dropped (notebookTables s id) n rows) s s' := by
  obtain ⟨s₁, s₂, hs₁, h, hs'⟩ := refused_underPermit h he
  obtain ⟨sources, s₃, s₄, hs₃, hrun, h⟩ := performed_ok h he (run_ne_error fun _ => rfl)
  cases hrun
  obtain ⟨names, s₅, s₆, hs₅, hrun, h⟩ := performed_ok h he (run_ne_error fun _ => rfl)
  cases hrun
  obtain ⟨_, s₇, hs₇, h⟩ := inStore_ok (spec_dropTables _) h he
  obtain ⟨_, s₈, hs₈, h⟩ := inStore_ok (spec_dropEntityTables id) h he
  have hlast := refused_last (fun _ => succeeds_removeFiles _) h
  have hread := hs₁.trans (hs₃.trans hs₅)
  rw [hread.registry] at hs₇
  exact hread.trans (hs₇.trans (hs₈.trans (hlast.trans hs')))

/-- A purge would find nothing to drop: there are no vectors of the source in the tables of the
notebook's active coordinates, or none of the notebook's tables exists. -/
def Purge.DropsNothing (s : LibraryState) : Purge → Prop
  | .source id => s.source? id = none ∨ ∀ n ∈ vectorTables s (notebookCoords s),
    ∀ rows, s.engine.tables.lookup n = some rows → ∀ r ∈ rows, r.sourceId ≠ id
  | .notebook id => ∀ n, n ∈ notebookTables s id ∨ entityTablePrefix id <+: n →
    s.engine.tables.lookup n = none

theorem Leaves.unchanged_iff {f : TableChange} (h : Leaves f s s') :
    Unchanged s s' ↔ ∀ n, f n (s.engine.tables.lookup n) = s.engine.tables.lookup n := by
  constructor
  · intro hs n
    rw [← h.tables, hs.tables]
  · exact fun hf => h.congr hf

theorem wipe_eq_iff (sourceId : String) (names : List Str) (n : Str)
    (rows : Option (List VectorRow)) : wipe sourceId names n rows = rows ↔
      (n ∈ names → ∀ l, rows = some l → ∀ r ∈ l, r.sourceId ≠ sourceId) := by
  unfold wipe
  split
  · rename_i hn
    cases rows with
    | none => simp
    | some l => simp [hn]
  · rename_i hn
    exact ⟨fun _ h => absurd h hn, fun _ => rfl⟩

/-- A refused purge has changed nothing exactly if there was nothing to drop. -/
theorem purge_refused_iff (p : Purge) (h : PurgeRun p.job s (.error (.failed e)) s')
    (he : e.kind = "Validation") : Unchanged s s' ↔ p.DropsNothing s := by
  cases p with
  | source id =>
    obtain ⟨hnone, hs⟩ | ⟨hsome, hs⟩ := refused_source h he
    · exact ⟨fun _ => .inl hnone, fun _ => hs⟩
    · rw [hs.unchanged_iff]
      simp only [wipe_eq_iff]
      unfold Purge.DropsNothing
      constructor
      · exact fun hf => .inr fun n hn => hf n hn
      · intro hf n hn
        exact (hf.resolve_left hsome) n hn
  | notebook id =>
    rw [(refused_notebook h he).unchanged_iff]
    unfold Purge.DropsNothing
    apply forall_congr'
    intro n
    unfold dropped
    by_cases hent : entityTablePrefix id <+: n
    · simp [hent, eq_comm]
    · by_cases hn : n ∈ notebookTables s id
      · simp [hent, hn, eq_comm]
      · simp [hent, hn]

end Refused

section Examples

def purgeQuietly (p : Purge) (s : LibraryState) : Option (Except Stop Unit × LibraryState) :=
  runWith PurgeCmd.react ⟨none, []⟩ p.job s

/-- A refusal that leaves a state with `q`. -/
def RefusedWith (q : LibraryState → Bool) : Except Stop Unit × LibraryState → Bool
  | (.error (.failed e), s') => decide (e.kind = "Validation") && q s'
  | _ => false

theorem refused_of_quietly {p : Purge} {s : LibraryState} {q : LibraryState → Bool}
    (h : (purgeQuietly p s).any (RefusedWith q) = true) : ∃ e s',
      purgeQuietly p s = some (.error (.failed e), s') ∧ e.kind = "Validation" ∧ q s' = true := by
  obtain ⟨⟨r, s'⟩, hrun, hq⟩ := (Option.any_eq_true _ _).mp h
  cases r with
  | ok a => cases hq
  | error stop =>
    cases stop with
    | panicked => cases hq
    | failed e =>
      obtain ⟨he, hq⟩ := (Bool.and_eq_true _ _).mp hq
      exact ⟨e, s', hrun, of_decide_eq_true he, hq⟩

/-- A live source of a text. -/
def textLibrary : LibraryState :=
  (addTextSource plainLibraryHost "s1" "hello".toList .text newLibrary).2

def activeTable : RegistryRow :=
  ⟨⟨"n1".toList, .fastembed, "nomic-embed-text-v1.5".toList, 768⟩,
    "vec__n1__fastembed__nomic_v15__d768".toList, .active⟩

/-- The same with a vector of the source in the active table. -/
def indexedLibrary : LibraryState :=
  { textLibrary with
    engine := { textLibrary.engine with
      registry := ⟨[activeTable], by decide⟩
      tables := AList.insert activeTable.table [⟨"c1", "s1", "n1".toList⟩] ∅ } }

theorem reachable_textLibrary : Reachable plainLibraryHost textLibrary :=
  .step (reachable_newLibrary plainLibraryHost) (.addTextSource "s1" _ .text rfl (by decide))

theorem reachable_indexedLibrary : Reachable plainLibraryHost indexedLibrary :=
  .step reachable_textLibrary (.work _ _ fun x hx => ⟨x, hx, rfl, rfl⟩)

/-- The purge of a live source is refused and has removed its vectors. -/
theorem refused_purge_removes_vectors : ∃ s' e,
    Reachable plainLibraryHost indexedLibrary ∧
      (indexedLibrary.source? "s1").map Source.trashed = some false ∧
      PurgeRun (Purge.source "s1").job indexedLibrary (.error (.failed e)) s' ∧
      e.kind = "Validation" ∧ ¬ Unchanged indexedLibrary s' := by
  have hruns : (purgeQuietly (.source "s1") indexedLibrary).any (RefusedWith fun s' =>
      s'.engine.tables.lookup activeTable.table = some []) = true := by decide +kernel
  obtain ⟨e, s', hrun, he, hrows⟩ := refused_of_quietly hruns
  refine ⟨s', e, reachable_indexedLibrary, by decide, exec_of_runWith hrun, he, fun h => ?_⟩
  have hsame := h.tables activeTable.table
  rw [of_decide_eq_true hrows] at hsame
  exact absurd hsame (by decide)

/-- A source without vectors keeps all it has. -/
theorem refused_purge_keeps_text : ∃ s' e,
    PurgeRun (Purge.source "s1").job textLibrary (.error (.failed e)) s' ∧
      e.kind = "Validation" ∧ Unchanged textLibrary s' := by
  have hruns : (purgeQuietly (.source "s1") textLibrary).any (RefusedWith fun _ => true) = true := by
    decide +kernel
  obtain ⟨e, s', hrun, he, _⟩ := refused_of_quietly hruns
  refine ⟨s', e, exec_of_runWith hrun, he, ?_⟩
  exact (purge_refused_iff (.source "s1") (exec_of_runWith hrun) he).mpr (.inr nofun)

end Examples

end LensLM
