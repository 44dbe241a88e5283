import LensLM.Error
import LensLM.Lib.PathText
import Mathlib.Data.List.Forall2

/-!
# Stored paths of a moved data directory

A relocation rewrites the paths in the copied database that start with the text of the old
directory. The text of a path tells less than its components: it also starts the names of sibling
directories, and a path can be spelled otherwise.
-/

namespace LensLM.StoredPaths

open PathText

set_option autoImplicit false

section Rewrite

/-- The rows of a table with a path, by their primary keys. -/
@[ext]
structure PathTable where
  rows : List (Name × Name)
  keys : (rows.map Prod.fst).Nodup

/-- The locators of the sources and the paths of the audio overviews. -/
@[ext]
structure PathDb where
  sources : PathTable
  audioOverviews : PathTable

/-- `s.strip_prefix(prefix)` -/
def stripPrefix (p s : Name) : Option Name := if p <+: s then some (s.drop p.length) else none

def rewritePath (oldPrefix newPrefix s : Name) : Name :=
  match stripPrefix oldPrefix s with
  | some rest => newPrefix ++ rest
  | none => s

/-- `UPDATE … SET path = ? WHERE key = ?` -/
def setPath (rows : List (Name × Name)) (key path : Name) : List (Name × Name) :=
  rows.map fun r => if r.1 = key then (r.1, path) else r

/-- The updates for the rows that were read. -/
def rewriteRows (oldPrefix newPrefix : Name) (read rows : List (Name × Name)) :
    List (Name × Name) :=
  read.foldl (fun rows r =>
    match stripPrefix oldPrefix r.2 with
    | some rest => setPath rows r.1 (newPrefix ++ rest)
    | none => rows) rows

/-- `s.strip_suffix(MAIN_SEPARATOR).unwrap_or(s)` -/
def prefixOf (s : Name) : Name := if s.getLast? = some '/' then s.dropLast else s

/-- Directories are compared where their components really are, as `canonicalOrAncestor` finds. -/
def validateTarget (canonicalOrAncestor : List Name → List Name) (nonempty : Bool)
    (source target : Name) : Except LensError Unit :=
  let sourceC := canonicalOrAncestor (components source)
  let targetC := canonicalOrAncestor (components target)
  if targetC = sourceC then
    .error (.validation "the new location is the same as the current one")
  else if sourceC <+: targetC then
    .error (.validation "the new location cannot be inside the current data folder")
  else if nonempty then .error (.validation "the new location must be an empty folder")
  else .ok ()

variable {oldPrefix newPrefix s : Name}

theorem stripPrefix_append (p rest : Name) : stripPrefix p (p ++ rest) = some rest := by
  rw [stripPrefix, if_pos (List.prefix_append p rest), List.drop_left]

theorem rewritePath_append (rest : Name) :
    rewritePath oldPrefix newPrefix (oldPrefix ++ rest) = newPrefix ++ rest := by
  rw [rewritePath, stripPrefix_append]

theorem rewritePath_other (h : ¬ oldPrefix <+: s) : rewritePath oldPrefix newPrefix s = s := by
  rw [rewritePath, stripPrefix, if_neg h]

theorem rewriteRows_cons (r : Name × Name) (read rows : List (Name × Name)) :
    rewriteRows oldPrefix newPrefix (r :: read) rows =
      rewriteRows oldPrefix newPrefix read (match stripPrefix oldPrefix r.2 with
        | some rest => setPath rows r.1 (newPrefix ++ rest)
        | none => rows) := rfl

/-- The updates of other rows leave the rows before them as they are. -/
theorem rewriteRows_done (read done : List (Name × Name))
    (h : ((done ++ read).map Prod.fst).Nodup) :
    rewriteRows oldPrefix newPrefix read (done ++ read) =
      done ++ read.map fun r => (r.1, rewritePath oldPrefix newPrefix r.2) := by
  induction read generalizing done with
  | nil => rfl
  | cons r read ih =>
    have hset : (match stripPrefix oldPrefix r.2 with
        | some rest => setPath (done ++ r :: read) r.1 (newPrefix ++ rest)
        | none => done ++ r :: read) =
        (done ++ [(r.1, rewritePath oldPrefix newPrefix r.2)]) ++ read := by
      unfold rewritePath
      split
      · rename_i rest _
        rw [List.map_append, List.map_cons, List.nodup_append] at h
        have hread := List.nodup_cons.mp h.2.1
        have hothers : ∀ rows : List (Name × Name), r.1 ∉ rows.map Prod.fst →
            setPath rows r.1 (newPrefix ++ rest) = rows := by
          intro rows hr
          conv_rhs => rw [← List.map_id rows]
          apply List.map_congr_left
          intro x hx
          exact if_neg fun heq : x.1 = r.1 => hr (heq ▸ List.mem_map_of_mem hx)
        have hdone : r.1 ∉ done.map Prod.fst :=
          fun hmem => h.2.2 _ hmem _ List.mem_cons_self rfl
        rw [setPath, List.map_append, List.map_cons, if_pos rfl]
        show setPath done _ _ ++ _ :: setPath read _ _ = _
        rw [hothers done hdone, hothers read hread.1]
        simp
      · simp
    have hkeys : (((done ++ [(r.1, rewritePath oldPrefix newPrefix r.2)]) ++ read).map
        Prod.fst).Nodup := by
      simpa using h
    rw [rewriteRows_cons, hset, ih _ hkeys]
    simp

/-- The updates of a table rewrite its rows one by one. -/
theorem rewriteRows_eq (t : PathTable) : rewriteRows oldPrefix newPrefix t.rows t.rows =
    t.rows.map fun r => (r.1, rewritePath oldPrefix newPrefix r.2) :=
  rewriteRows_done t.rows [] t.keys

theorem keys_rewriteRows (t : PathTable) :
    ((rewriteRows oldPrefix newPrefix t.rows t.rows).map Prod.fst).Nodup := by
  rw [rewriteRows_eq, List.map_map]
  exact t.keys

def PathTable.rewrite (oldPrefix newPrefix : Name) (t : PathTable) : PathTable :=
  ⟨rewriteRows oldPrefix newPrefix t.rows t.rows, keys_rewriteRows t⟩

theorem rows_rewrite (t : PathTable) : (t.rewrite oldPrefix newPrefix).rows =
    t.rows.map fun r => (r.1, rewritePath oldPrefix newPrefix r.2) := rewriteRows_eq t

def rewritePaths (oldPrefix newPrefix : Name) (db : PathDb) : PathDb :=
  ⟨db.sources.rewrite oldPrefix newPrefix, db.audioOverviews.rewrite oldPrefix newPrefix⟩

end Rewrite

section Moves

/-- A path changes exactly if it is below the old directory, and then to the same path below the
new one. -/
def Moved (source target s s' : Name) : Prop :=
  (s' ≠ s ↔ Below source s) ∧
    ∀ r, r ≠ [] → components s = components source ++ r → components s' = components target ++ r

def RowsMoved (source target : Name) (t t' : PathTable) : Prop :=
  List.Forall₂ (fun r r' => r'.1 = r.1 ∧ Moved source target r.2 r'.2) t.rows t'.rows

/-- Every row is moved, and the move back restores the database. -/
def RelocatesExactly (source target : Name) (db : PathDb) : Prop :=
  let moved := rewritePaths (prefixOf source) (prefixOf target) db
  RowsMoved source target db.sources moved.sources ∧
    RowsMoved source target db.audioOverviews moved.audioOverviews ∧
    rewritePaths (prefixOf target) (prefixOf source) moved = db

/-- What follows a prefix begins with a slash, or both prefixes end alike. -/
def GoesOn (p n rest : Name) : Prop :=
  rest.head? = some '/' ∨ p ≠ [] ∧ n ≠ [] ∧ lastPart p = lastPart n

/-- A path that starts with the old prefix exactly if it is below the old directory, goes on
there, and does not start with the new prefix otherwise. -/
def Unambiguous (source target s : Name) : Prop :=
  (prefixOf source <+: s ↔ Below source s) ∧
    (∀ rest, s = prefixOf source ++ rest → GoesOn (prefixOf source) (prefixOf target) rest) ∧
    (prefixOf target <+: s → prefixOf source <+: s)

def PathDb.paths (db : PathDb) : List Name :=
  (db.sources.rows ++ db.audioOverviews.rows).map Prod.snd

theorem prefixOf_cases {d : Name} (h : d.head? = some '/') : (prefixOf d = [] ∧ d = ['/']) ∨
    (prefixOf d ≠ [] ∧ (prefixOf d).head? = some '/' ∧ parts (prefixOf d) = parts d) := by
  unfold prefixOf
  split
  · rename_i hlast
    have hd : d.dropLast ++ ['/'] = d := List.dropLast_append_getLast? '/' hlast
    cases hdrop : d.dropLast with
    | nil =>
      rw [hdrop] at hd
      exact .inl ⟨rfl, hd.symm⟩
    | cons c q =>
      rw [hdrop] at hd
      refine .inr ⟨List.cons_ne_nil c q, ?_, ?_⟩
      · rw [← hd] at h
        exact h
      · rw [← hd, parts_append_slash]
        exact (List.append_nil _).symm
  · refine .inr ⟨?_, h, rfl⟩
    rintro rfl
    cases h

theorem components_prefixOf_slash {d rest : Name} (h : d.head? = some '/')
    (hrest : rest.head? = some '/') :
    components (prefixOf d ++ rest) = components d ++ parts rest := by
  rcases prefixOf_cases h with ⟨hnil, rfl⟩ | ⟨hne, habs, hparts⟩
  · rw [hnil, List.nil_append, components_of_absolute hrest]
    rfl
  · have habs' : (prefixOf d ++ rest).head? = some '/' := by
      rw [List.head?_append_of_ne_nil _ hne]
      exact habs
    rw [components_of_absolute habs', components_of_absolute h, ← hparts]
    cases rest with
    | nil => cases hrest
    | cons c q =>
      cases hrest
      rw [parts_append_slash, parts_slash]
      rfl

/-- Below a prefix that is not the root, only parts are compared. -/
theorem components_prefixOf_iff {d rest : Name} {r : List Name} (h : d.head? = some '/')
    (hne : prefixOf d ≠ []) : components (prefixOf d ++ rest) = components d ++ r ↔
      parts (prefixOf d ++ rest) = parts (prefixOf d) ++ r := by
  obtain ⟨_, habs, hparts⟩ := (prefixOf_cases h).resolve_left fun hnil => hne hnil.1
  have habs' : (prefixOf d ++ rest).head? = some '/' := by
    rw [List.head?_append_of_ne_nil _ hne]
    exact habs
  rw [components_of_absolute habs', components_of_absolute h, ← hparts, List.cons_append,
    List.cons.injEq]
  exact and_iff_right rfl

theorem absolute_after_root {d rest : Name} {r : List Name} (h : d.head? = some '/')
    (hnil : prefixOf d = []) (hr : components (prefixOf d ++ rest) = components d ++ r) :
    rest.head? = some '/' := by
  rcases prefixOf_cases h with ⟨_, rfl⟩ | ⟨hne, _⟩
  · rw [hnil] at hr
    exact absolute_of_components hr
  · exact absurd hnil hne

variable {source target s : Name}

theorem goesOn_iff (hs : source.head? = some '/') (ht : target.head? = some '/') {rest : Name}
    {r : List Name} (hr : r ≠ [])
    (h : components (prefixOf source ++ rest) = components source ++ r) :
    components (prefixOf target ++ rest) = components target ++ r ↔
      GoesOn (prefixOf source) (prefixOf target) rest := by
  by_cases hslash : rest.head? = some '/'
  · rw [components_prefixOf_slash hs hslash] at h
    rw [components_prefixOf_slash ht hslash, List.append_cancel_left h]
    exact iff_of_true rfl (.inl hslash)
  · by_cases hp : prefixOf source = []
    · exact absurd (absolute_after_root hs hp h) hslash
    · by_cases hn : prefixOf target = []
      · apply iff_of_false
        · exact fun h' => hslash (absolute_after_root ht hn h')
        · rintro (h' | ⟨_, hn', _⟩)
          · exact hslash h'
          · exact hn' hn
      · have hpa := ((prefixOf_cases hs).resolve_left fun hnil => hp hnil.1).2.1
        have hna := ((prefixOf_cases ht).resolve_left fun hnil => hn hnil.1).2.1
        rw [components_prefixOf_iff hs hp] at h
        rw [components_prefixOf_iff ht hn, parts_below_iff hpa hna hr h]
        exact or_congr_right ⟨fun hl => ⟨hp, hn, hl⟩, fun hl => hl.2.2⟩

/-- One path is moved and restored exactly if it is unambiguous. -/
theorem moved_iff (hs : source.head? = some '/') (ht : target.head? = some '/')
    (hne : prefixOf target ≠ prefixOf source) :
    (Moved source target s (rewritePath (prefixOf source) (prefixOf target) s) ∧
      rewritePath (prefixOf target) (prefixOf source)
        (rewritePath (prefixOf source) (prefixOf target) s) = s) ↔ Unambiguous source target s := by
  by_cases hpre : prefixOf source <+: s
  · obtain ⟨rest, rfl⟩ := hpre
    have hpre := List.prefix_append (prefixOf source) rest
    have hchanged : prefixOf target ++ rest ≠ prefixOf source ++ rest :=
      fun heq => hne (List.append_cancel_right heq)
    rw [rewritePath_append, rewritePath_append]
    constructor
    · rintro ⟨⟨hiff, hmoved⟩, _⟩
      have hbelow := hiff.mp hchanged
      refine ⟨iff_of_true hpre hbelow, ?_, fun _ => hpre⟩
      intro rest' heq
      rw [← List.append_cancel_left heq]
      obtain ⟨r, hr, hcomp⟩ := hbelow
      exact (goesOn_iff hs ht hr hcomp).mp (hmoved r hr hcomp)
    · rintro ⟨hiff, hgoes, _⟩
      have hbelow := hiff.mp hpre
      refine ⟨⟨iff_of_true hchanged hbelow, ?_⟩, rfl⟩
      intro r hr hcomp
      exact (goesOn_iff hs ht hr hcomp).mpr (hgoes rest rfl)
  · rw [rewritePath_other hpre]
    have hback : rewritePath (prefixOf target) (prefixOf source) s = s ↔
        ¬ prefixOf target <+: s := by
      constructor
      · rintro heq ⟨rest, rfl⟩
        rw [rewritePath_append] at heq
        exact hne (List.append_cancel_right heq).symm
      · exact rewritePath_other
    rw [hback]
    constructor
    · rintro ⟨⟨hiff, _⟩, hno⟩
      refine ⟨iff_of_false hpre fun hbelow => hiff.mpr hbelow rfl, ?_, fun h => absurd h hno⟩
      rintro rest rfl
      exact absurd (List.prefix_append _ _) hpre
    · rintro ⟨hiff, _, hno⟩
      have hbelow : ¬ Below source s := fun h => hpre (hiff.mpr h)
      refine ⟨⟨iff_of_false (fun h => h rfl) hbelow, ?_⟩, fun h => hpre (hno h)⟩
      exact fun r hr hcomp => absurd ⟨r, hr, hcomp⟩ hbelow

/-- Every row of a table is moved, and restored by the moves back. -/
theorem rewrite_iff (t : PathTable) :
    (RowsMoved source target t (t.rewrite (prefixOf source) (prefixOf target)) ∧
      (t.rewrite (prefixOf source) (prefixOf target)).rewrite (prefixOf target)
        (prefixOf source) = t) ↔
    ∀ r ∈ t.rows, Moved source target r.2 (rewritePath (prefixOf source) (prefixOf target) r.2) ∧
      rewritePath (prefixOf target) (prefixOf source)
        (rewritePath (prefixOf source) (prefixOf target) r.2) = r.2 := by
  have hmoved : RowsMoved source target t (t.rewrite (prefixOf source) (prefixOf target)) ↔
      ∀ r ∈ t.rows, Moved source target r.2
        (rewritePath (prefixOf source) (prefixOf target) r.2) := by
    rw [RowsMoved, rows_rewrite, List.forall₂_map_right_iff, List.forall₂_same]
    exact forall₂_congr fun r _ => and_iff_right rfl
  have hback : (t.rewrite (prefixOf source) (prefixOf target)).rewrite (prefixOf target)
      (prefixOf source) = t ↔ ∀ r ∈ t.rows, rewritePath (prefixOf target) (prefixOf source)
        (rewritePath (prefixOf source) (prefixOf target) r.2) = r.2 := by
    have hrows : ((t.rewrite (prefixOf source) (prefixOf target)).rewrite (prefixOf target)
        (prefixOf source)).rows = t.rows.map fun r => (r.1,
          rewritePath (prefixOf target) (prefixOf source)
            (rewritePath (prefixOf source) (prefixOf target) r.2)) := by
      rw [rows_rewrite, rows_rewrite, List.map_map]
      rfl
    have hself : t.rows = t.rows.map id := (List.map_id _).symm
    rw [PathTable.ext_iff, hrows]
    conv_lhs => rw [hself, List.map_map]
    rw [List.map_inj_left]
    exact forall₂_congr fun r _ => ⟨fun h => congrArg Prod.snd h, fun h => Prod.ext rfl h⟩
  rw [hmoved, hback]
  exact ⟨fun h r hr => ⟨h.1 r hr, h.2 r hr⟩, fun h => ⟨fun r hr => (h r hr).1,
    fun r hr => (h r hr).2⟩⟩

theorem components_eq_of_prefixOf (hs : source.head? = some '/') (ht : target.head? = some '/')
    (h : prefixOf target = prefixOf source) : components target = components source := by
  rcases prefixOf_cases hs with ⟨hp, rfl⟩ | ⟨hp, _, hparts⟩
  · rcases prefixOf_cases ht with ⟨_, rfl⟩ | ⟨hn, _⟩
    · rfl
    · exact absurd (h.trans hp) hn
  · rcases prefixOf_cases ht with ⟨hn, _⟩ | ⟨_, _, hparts'⟩
    · exact absurd (h.symm.trans hn) hp
    · rw [components_of_absolute hs, components_of_absolute ht, ← hparts, ← hparts', h]

theorem prefixOf_ne_of_validateTarget {canonicalOrAncestor : List Name → List Name}
    {nonempty : Bool} (hs : source.head? = some '/') (ht : target.head? = some '/')
    (h : validateTarget canonicalOrAncestor nonempty source target = .ok ()) :
    prefixOf target ≠ prefixOf source := by
  intro heq
  unfold validateTarget at h
  rw [components_eq_of_prefixOf hs ht heq] at h
  dsimp only at h
  rw [if_pos rfl] at h
  cases h

/-- A relocation is exact if and only if no stored path is ambiguous. -/
theorem relocates_exactly_iff (canonicalOrAncestor : List Name → List Name) (nonempty : Bool)
    (hs : source.head? = some '/') (ht : target.head? = some '/')
    (h : validateTarget canonicalOrAncestor nonempty source target = .ok ()) (db : PathDb) :
    RelocatesExactly source target db ↔ ∀ s ∈ db.paths, Unambiguous source target s := by
  have hne := prefixOf_ne_of_validateTarget hs ht h
  have hpaths : (∀ s ∈ db.paths, Unambiguous source target s) ↔
      (∀ r ∈ db.sources.rows, Unambiguous source target r.2) ∧
        ∀ r ∈ db.audioOverviews.rows, Unambiguous source target r.2 := by
    rw [PathDb.paths, List.forall_mem_map, List.forall_mem_append]
  have hsources : (RowsMoved source target db.sources _ ∧ _) ↔ _ := rewrite_iff db.sources
  have haudio : (RowsMoved source target db.audioOverviews _ ∧ _) ↔ _ :=
    rewrite_iff db.audioOverviews
  simp only [moved_iff hs ht hne] at hsources haudio
  rw [hpaths, ← hsources, ← haudio, RelocatesExactly, PathDb.ext_iff]
  constructor
  · exact fun ⟨h₁, h₂, h₃, h₄⟩ => ⟨⟨h₁, h₃⟩, h₂, h₄⟩
  · exact fun ⟨⟨h₁, h₃⟩, h₂, h₄⟩ => ⟨h₁, h₂, h₃, h₄⟩

end Moves

section Instances

def oldDir : Name := "/a/data".toList

def newDir : Name := "/b".toList

/-- A stored file and an address. -/
def plainDb : PathDb where
  sources := ⟨[(['1'], "/a/data/notes.pdf".toList), (['2'], "https://example.org/a".toList)],
    by decide⟩
  audioOverviews := ⟨[], by decide⟩

theorem validateTarget_newDir : validateTarget id false oldDir newDir = .ok () := by decide

theorem plainDb_unambiguous : ∀ s ∈ plainDb.paths, Unambiguous oldDir newDir s := by
  have hfile : Unambiguous oldDir newDir "/a/data/notes.pdf".toList := by
    refine ⟨by decide, ?_, by decide⟩
    intro rest heq
    have hsplit : "/a/data/notes.pdf".toList = prefixOf oldDir ++ "/notes.pdf".toList := by decide
    rw [hsplit] at heq
    rw [← List.append_cancel_left heq]
    exact .inl rfl
  have haddress : Unambiguous oldDir newDir "https://example.org/a".toList := by
    refine ⟨by decide, ?_, by decide⟩
    intro rest heq
    exact absurd ⟨rest, heq.symm⟩ (by decide : ¬ prefixOf oldDir <+: "https://example.org/a".toList)
  intro s hs
  simp only [PathDb.paths, plainDb, List.append_nil, List.map_cons, List.map_nil, List.mem_cons,
    List.not_mem_nil, or_false] at hs
  rcases hs with rfl | rfl
  · exact hfile
  · exact haddress

theorem plainDb_relocates : RelocatesExactly oldDir newDir plainDb :=
  (relocates_exactly_iff id false rfl rfl validateTarget_newDir plainDb).mpr plainDb_unambiguous

/-- A file in a directory beside the old one. -/
def siblingDb : PathDb where
  sources := ⟨[(['1'], "/a/data2/notes.pdf".toList)], by decide⟩
  audioOverviews := ⟨[], by decide⟩

/-- The file is not below the old directory, and gets a path in a directory `/b2`. -/
theorem sibling_rewritten : validateTarget id false oldDir newDir = .ok () ∧
    ¬ Below oldDir "/a/data2/notes.pdf".toList ∧
    (rewritePaths (prefixOf oldDir) (prefixOf newDir) siblingDb).sources.rows =
      [(['1'], "/b2/notes.pdf".toList)] ∧
    ¬ RelocatesExactly oldDir newDir siblingDb := by
  refine ⟨validateTarget_newDir, by decide, by decide, ?_⟩
  intro h
  have hmoved := (List.forall₂_cons.mp h.1).1.2.1
  exact absurd (hmoved.mp (by decide)) (by decide)

end Instances

end LensLM.StoredPaths
