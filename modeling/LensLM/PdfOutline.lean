import LensLM.ExtractPdf
import LensLM.Lib.CappedWalk

/-!
# Outlines with cycles

The bookmarks of a PDF point to a first child and a next sibling, in any way a file may say. The walk
does not note where it has been. It sees the outline as a tree, in which a node stands at every place
a path leads to.
-/

namespace LensLM

open ByteText CappedWalk

set_option autoImplicit false

/-- The bookmarks of a file, with the titles and page destinations that can be read. -/
structure BookmarkGraph (N : Type) where
  title : N → Option Str
  page : N → Option Nat
  firstChild : N → Option N
  nextSibling : N → Option N

namespace BookmarkGraph

variable {N : Type} (o : BookmarkGraph N)

/-- The entry of a node at a depth. -/
def entry (place : Nat × N) : List OutlineEntry :=
  Bookmark.entry place.1 (o.title place.2) (o.page place.2)

/-! ## The walk -/

/-- The loop over the siblings of a level, with what is done to the children of each. -/
def walkSiblings (depth : Nat) (children : Option N → Walk OutlineEntry → Walk OutlineEntry)
    (siblings : Nat) (cur : Option N) (w : Walk OutlineEntry) : Walk OutlineEntry :=
  match cur with
  | none => w
  | some bm =>
    if MAX_BOOKMARK_NODES ≤ w.out.length ∨ MAX_BOOKMARK_NODES ≤ siblings then w
    else
      walkSiblings depth children (siblings + 1) (o.nextSibling bm)
        (children (o.firstChild bm) (visit o.entry w (depth, bm)))
termination_by MAX_BOOKMARK_NODES - siblings

-- the depth is a `u8`, and no level past the limit adds to it
def walkBookmarks (depth : Nat) (node : Option N) (w : Walk OutlineEntry) : Walk OutlineEntry :=
  if MAX_BOOKMARK_DEPTH < depth then w
  else o.walkSiblings depth (fun child w => walkBookmarks (depth + 1) child w) 0 node w
termination_by MAX_BOOKMARK_DEPTH + 1 - depth

def collectBookmarks (root : Option N) : Walk OutlineEntry := o.walkBookmarks 1 root start

/-! ## The outline as a tree -/

/-- The places of a level and of the levels below, in the order of the walk. -/
def siblingPlaces (depth : Nat) (children : Option N → List (Nat × N)) (siblings : Nat)
    (cur : Option N) : List (Nat × N) :=
  match cur with
  | none => []
  | some bm =>
    if MAX_BOOKMARK_NODES ≤ siblings then []
    else
      (depth, bm) :: children (o.firstChild bm) ++
        siblingPlaces depth children (siblings + 1) (o.nextSibling bm)
termination_by MAX_BOOKMARK_NODES - siblings

/-- The outline written out as a tree, with the first levels and the first siblings of each. -/
def places (depth : Nat) (node : Option N) : List (Nat × N) :=
  if MAX_BOOKMARK_DEPTH < depth then []
  else o.siblingPlaces depth (fun child => places (depth + 1) child) 0 node
termination_by MAX_BOOKMARK_DEPTH + 1 - depth

theorem walkSiblings_eq {depth : Nat}
    {children : Option N → Walk OutlineEntry → Walk OutlineEntry}
    {childPlaces : Option N → List (Nat × N)}
    (h : ∀ child w, children child w = visitAll o.entry MAX_BOOKMARK_NODES w (childPlaces child))
    (siblings : Nat) (cur : Option N) (w : Walk OutlineEntry) :
    o.walkSiblings depth children siblings cur w =
      visitAll o.entry MAX_BOOKMARK_NODES w (o.siblingPlaces depth childPlaces siblings cur) := by
  induction siblings, cur using siblingPlaces.induct o generalizing w with
  | case1 siblings =>
    rw [walkSiblings, siblingPlaces, visitAll_nil]
  | case2 siblings bm hlast =>
    rw [walkSiblings, siblingPlaces, if_pos (.inr hlast), if_pos hlast, visitAll_nil]
  | case3 siblings bm hlast ih =>
    rw [walkSiblings, siblingPlaces, if_neg hlast]
    by_cases hfull : MAX_BOOKMARK_NODES ≤ w.out.length
    · rw [if_pos (.inl hfull), visitAll_full o.entry hfull]
    · rw [if_neg (not_or.mpr ⟨hfull, hlast⟩), ih, h, List.cons_append,
        visitAll_cons o.entry hfull, visitAll_append]

/-- The walk visits the places in turn until there are enough entries. -/
theorem walkBookmarks_eq (depth : Nat) (node : Option N) (w : Walk OutlineEntry) :
    o.walkBookmarks depth node w =
      visitAll o.entry MAX_BOOKMARK_NODES w (o.places depth node) := by
  induction depth, node using places.induct generalizing w with
  | case1 depth node h => rw [walkBookmarks, places, if_pos h, if_pos h, visitAll_nil]
  | case2 depth node h ih =>
    rw [walkBookmarks, places, if_neg h, if_neg h]
    exact o.walkSiblings_eq (fun child w => ih child w) 0 node w

/-! ## Depths -/

theorem depth_of_mem_siblingPlaces {depth : Nat} {childPlaces : Option N → List (Nat × N)}
    (hdepth : depth ≤ MAX_BOOKMARK_DEPTH)
    (h : ∀ child, ∀ p ∈ childPlaces child, depth + 1 ≤ p.1 ∧ p.1 ≤ MAX_BOOKMARK_DEPTH)
    (siblings : Nat) (cur : Option N) :
    ∀ p ∈ o.siblingPlaces depth childPlaces siblings cur,
      depth ≤ p.1 ∧ p.1 ≤ MAX_BOOKMARK_DEPTH := by
  induction siblings, cur using siblingPlaces.induct o with
  | case1 siblings =>
    rw [siblingPlaces]
    exact nofun
  | case2 siblings bm hlast =>
    rw [siblingPlaces, if_pos hlast]
    exact nofun
  | case3 siblings bm hlast ih =>
    rw [siblingPlaces, if_neg hlast, List.cons_append]
    intro p hp
    rcases List.mem_cons.mp hp with rfl | hp
    · exact ⟨le_refl _, hdepth⟩
    · rcases List.mem_append.mp hp with hp | hp
      · obtain ⟨hlow, hhigh⟩ := h _ p hp
        exact ⟨by omega, hhigh⟩
      · exact ih p hp

theorem depth_of_mem_places (depth : Nat) (node : Option N) :
    ∀ p ∈ o.places depth node, depth ≤ p.1 ∧ p.1 ≤ MAX_BOOKMARK_DEPTH := by
  induction depth, node using places.induct with
  | case1 depth node h =>
    rw [places, if_pos h]
    exact nofun
  | case2 depth node h ih =>
    rw [places, if_neg h]
    exact o.depth_of_mem_siblingPlaces (not_lt.mp h) (fun child => ih child) 0 node

theorem depth_of_mem_entry {p : Nat × N} {e : OutlineEntry} (h : e ∈ o.entry p) :
    e.depth = p.1 := by
  unfold entry Bookmark.entry at h
  split at h
  · split at h
    · cases h
    · rw [List.mem_singleton.mp h]
  · cases h

theorem length_entry_le (p : Nat × N) : (o.entry p).length ≤ 1 := by
  unfold entry Bookmark.entry
  split
  · split
    · exact Nat.zero_le _
    · exact le_refl _
  · exact Nat.zero_le _

/-! ## The bound -/

structure Bounded (w : Walk OutlineEntry) : Prop where
  visited : w.visited ≤ MAX_BOOKMARK_NODES * MAX_BOOKMARK_DEPTH
  entries : w.out.length ≤ MAX_BOOKMARK_NODES
  depths : ∀ e ∈ w.out, 1 ≤ e.depth ∧ e.depth ≤ MAX_BOOKMARK_DEPTH

theorem length_collectBookmarks_le (root : Option N) :
    (o.collectBookmarks root).out.length ≤ MAX_BOOKMARK_NODES := by
  unfold collectBookmarks
  rw [walkBookmarks_eq]
  exact length_out_le o.entry _ (fun p _ => o.length_entry_le p)

theorem depth_collectBookmarks (root : Option N) :
    ∀ e ∈ (o.collectBookmarks root).out, 1 ≤ e.depth ∧ e.depth ≤ MAX_BOOKMARK_DEPTH := by
  unfold collectBookmarks
  rw [walkBookmarks_eq]
  intro e he
  obtain ⟨p, hp, hep⟩ := mem_out o.entry he
  rw [o.depth_of_mem_entry hep]
  exact o.depth_of_mem_places 1 root p hp

/-- The tree is small, or it has the entries near its start. -/
def FewPlaces (root : Option N) : Prop :=
  (o.places 1 root).length ≤ MAX_BOOKMARK_NODES * MAX_BOOKMARK_DEPTH ∨
    MAX_BOOKMARK_NODES ≤ (((o.places 1 root).take
      (MAX_BOOKMARK_NODES * MAX_BOOKMARK_DEPTH)).flatMap o.entry).length

theorem visited_collectBookmarks_le_iff (root : Option N) :
    (o.collectBookmarks root).visited ≤ MAX_BOOKMARK_NODES * MAX_BOOKMARK_DEPTH ↔
      o.FewPlaces root := by
  unfold collectBookmarks
  rw [walkBookmarks_eq]
  exact visited_le_iff o.entry _ _ _

/-- The number of entries and their depths always keep the limits. The number of nodes that are
visited keeps the limit if the tree has few places. -/
theorem collectBookmarks_bounded_iff (root : Option N) :
    Bounded (o.collectBookmarks root) ↔ o.FewPlaces root := by
  constructor
  · intro h
    exact (o.visited_collectBookmarks_le_iff root).mp h.visited
  · intro h
    exact ⟨(o.visited_collectBookmarks_le_iff root).mpr h, o.length_collectBookmarks_le root,
      o.depth_collectBookmarks root⟩

/-! ## A cycle of two nodes without titles -/

/-- Each node is the child and the sibling of the other. -/
def spinning : BookmarkGraph Bool where
  title := fun _ => none
  page := fun _ => none
  firstChild := fun node => some !node
  nextSibling := fun node => some !node

theorem length_spinning_siblings {depth below : Nat} {childPlaces : Option Bool → List (Nat × Bool)}
    (h : ∀ child, (childPlaces (some child)).length = below) (siblings : Nat) (node : Bool) :
    (spinning.siblingPlaces depth childPlaces siblings (some node)).length =
      (MAX_BOOKMARK_NODES - siblings) * (below + 1) := by
  induction hleft : MAX_BOOKMARK_NODES - siblings generalizing siblings node with
  | zero =>
    rw [siblingPlaces, if_pos (by omega), Nat.zero_mul]
    rfl
  | succ left ih =>
    rw [siblingPlaces, if_neg (by omega), List.length_append, List.length_cons]
    have hchild := h !node
    have hnext := ih (siblings + 1) (!node) (by omega)
    rw [show spinning.firstChild node = some !node from rfl, hchild,
      show spinning.nextSibling node = some !node from rfl, hnext, Nat.succ_mul, Nat.add_comm]

/-- The places on so many levels. -/
def spun : Nat → Nat
  | 0 => 0
  | levels + 1 => MAX_BOOKMARK_NODES * (spun levels + 1)

theorem length_spinning (levels depth : Nat) (h : depth + levels = MAX_BOOKMARK_DEPTH + 1)
    (node : Bool) : (spinning.places depth (some node)).length = spun levels := by
  induction levels generalizing depth node with
  | zero =>
    rw [places, if_pos (by omega)]
    rfl
  | succ levels ih =>
    rw [places, if_neg (by omega), length_spinning_siblings]
    · rfl
    · intro child
      exact ih (depth + 1) (by omega) child

theorem spinning_no_entries (ps : List (Nat × Bool)) : ps.flatMap spinning.entry = [] := by
  apply List.flatMap_eq_nil_iff.mpr
  intro p hp
  rfl

theorem spinning_unbounded : ¬Bounded (spinning.collectBookmarks (some true)) := by
  intro h
  have hfew := (spinning.visited_collectBookmarks_le_iff (some true)).mp h.visited
  unfold FewPlaces at hfew
  rw [length_spinning MAX_BOOKMARK_DEPTH 1 (by decide), spinning_no_entries] at hfew
  exact absurd hfew (by decide)

/-! ## Outlines without cycles -/

/-- The bookmarks of a tree, each with the siblings after it. -/
def ofTree : BookmarkGraph (Bookmark × List Bookmark) where
  title := fun node => match node.1 with
    | .mk title _ _ => title
  page := fun node => match node.1 with
    | .mk _ page _ => page
  firstChild := fun node => match node.1 with
    | .mk _ _ [] => none
    | .mk _ _ (child :: children) => some (child, children)
  nextSibling := fun node => match node.2 with
    | [] => none
    | next :: siblings => some (next, siblings)

def firstOf : List Bookmark → Option (Bookmark × List Bookmark)
  | [] => none
  | node :: siblings => some (node, siblings)

theorem ofTree_firstChild (title : Option Str) (page : Option Nat)
    (children siblings : List Bookmark) :
    ofTree.firstChild (.mk title page children, siblings) = firstOf children := by
  cases children with
  | nil => rfl
  | cons child children => rfl

theorem ofTree_nextSibling (node : Bookmark) (siblings : List Bookmark) :
    ofTree.nextSibling (node, siblings) = firstOf siblings := by
  cases siblings with
  | nil => rfl
  | cons next siblings => rfl

/-- A step of the walk over the siblings of a tree. -/
def treeStep (left depth : Nat) (out : List OutlineEntry) (x : Bookmark × Nat) :
    List OutlineEntry :=
  if MAX_BOOKMARK_NODES ≤ out.length ∨ MAX_BOOKMARK_NODES ≤ x.2 then out
  else
    match x.1 with
    | .mk title page children =>
      LensLM.walkBookmarks left (depth + 1) children (out ++ Bookmark.entry depth title page)

theorem walkBookmarks_tree_succ (left depth : Nat) (nodes : List Bookmark)
    (out : List OutlineEntry) : LensLM.walkBookmarks (left + 1) depth nodes out =
      nodes.zipIdx.foldl (treeStep left depth) out := rfl

/-- Nothing is added after a limit. -/
theorem foldl_treeStep_done (left depth : Nat) (nodes : List Bookmark) (siblings : Nat)
    (out : List OutlineEntry)
    (h : MAX_BOOKMARK_NODES ≤ out.length ∨ MAX_BOOKMARK_NODES ≤ siblings) :
    (nodes.zipIdx siblings).foldl (treeStep left depth) out = out := by
  induction nodes generalizing siblings with
  | nil => rfl
  | cons node nodes ih =>
    rw [List.zipIdx_cons, List.foldl_cons]
    have hstep : treeStep left depth out (node, siblings) = out := if_pos h
    rw [hstep]
    apply ih
    omega

theorem walkSiblings_ofTree {left depth : Nat}
    {children : Option (Bookmark × List Bookmark) → Walk OutlineEntry → Walk OutlineEntry}
    (h : ∀ nodes w, (children (firstOf nodes) w).out =
      LensLM.walkBookmarks left (depth + 1) nodes w.out)
    (nodes : List Bookmark) (siblings : Nat) (w : Walk OutlineEntry) :
    (ofTree.walkSiblings depth children siblings (firstOf nodes) w).out =
      (nodes.zipIdx siblings).foldl (treeStep left depth) w.out := by
  induction nodes generalizing siblings w with
  | nil =>
    unfold firstOf
    rw [walkSiblings]
    rfl
  | cons node nodes ih =>
    obtain ⟨title, page, below⟩ := node
    unfold firstOf
    rw [walkSiblings]
    split
    · next hlimit => rw [foldl_treeStep_done left depth _ siblings _ hlimit]
    · next hopen =>
      rw [ofTree_nextSibling, ih, ofTree_firstChild, h, List.zipIdx_cons, List.foldl_cons]
      congr 1
      unfold treeStep
      rw [if_neg hopen]
      rfl

/-- On a tree the walk is the one of the extractor. -/
theorem walkBookmarks_ofTree (left depth : Nat) (hleft : depth + left = MAX_BOOKMARK_DEPTH + 1)
    (nodes : List Bookmark) (w : Walk OutlineEntry) :
    (ofTree.walkBookmarks depth (firstOf nodes) w).out =
      LensLM.walkBookmarks left depth nodes w.out := by
  induction left generalizing depth nodes w with
  | zero =>
    rw [BookmarkGraph.walkBookmarks, if_pos (by omega)]
    rfl
  | succ left ih =>
    rw [BookmarkGraph.walkBookmarks, if_neg (by omega), walkBookmarks_tree_succ]
    apply walkSiblings_ofTree
    intro nodes w
    exact ih (depth + 1) (by omega) nodes w

theorem collectBookmarks_ofTree (root : List Bookmark) :
    (ofTree.collectBookmarks (firstOf root)).out = LensLM.collectBookmarks root :=
  walkBookmarks_ofTree MAX_BOOKMARK_DEPTH 1 (by decide) root start

end BookmarkGraph

end LensLM
