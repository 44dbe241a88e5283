import LensLM.Router
import Mathlib.Order.Nat

/-!
# Duplicate text in the units of the second tier

Parents and children are embedded alike, so that a parent can be retrieved beside its children.
-/

namespace LensLM

open ByteText Grouping Ranking

set_option autoImplicit false

section Rows

theorem Notebook.row_unique (nb : Notebook) {a b : ChunkRow} (ha : a ∈ nb.chunks)
    (hb : b ∈ nb.chunks) (h : a.id = b.id) : a = b :=
  List.inj_on_of_nodup_map nb.ids_nodup ha hb h

/-- A row that is some chunk's parent has no parent. -/
theorem Notebook.parent_is_root (nb : Notebook) {c r : ChunkRow} (hc : c ∈ nb.chunks)
    (hr : r ∈ nb.chunks) (h : c.parentId = some r.id) :
    r.parentId = none ∧ r.sourceId = c.sourceId := by
  obtain ⟨s, hs, hid, hsource, hroot⟩ := nb.parent_row c hc r.id h
  rw [nb.row_unique hr hs hid.symm]
  exact ⟨hroot, hsource⟩

theorem mem_liveRows {nb : Notebook} {ids : List String} {r : ChunkRow} :
    r ∈ nb.liveRows ids ↔ r ∈ nb.chunks ∧ r.id ∈ ids ∧ nb.live r.sourceId = true := by
  simp [Notebook.liveRows]

end Rows

section Hydrated

variable {κ : Type}

/-- What the hydration of the hits yields: one chunk for each live row that was hit. -/
structure Hydrated (nb : Notebook) (hits : List (RetrievalHit κ)) (rcs : List (RetrievedChunk κ)) :
    Prop where
  nodup : (rcs.map RetrievedChunk.chunkId).Nodup
  row : ∀ rc ∈ rcs, ∃ m ∈ nb.chunks, m.id = rc.chunkId ∧ m.parentId = rc.parentId ∧
    nb.live m.sourceId = true ∧ m.id ∈ hits.map RetrievalHit.chunkId
  complete : ∀ m ∈ nb.chunks, nb.live m.sourceId = true → m.id ∈ hits.map RetrievalHit.chunkId →
    ∃ rc ∈ rcs, rc.chunkId = m.id ∧ rc.parentId = m.parentId

theorem mem_hydrateLoop {graphConf : String → Option κ} {text : String → Option Str}
    {hits : List (RetrievalHit κ)} {rows : List ChunkRow} {rc : RetrievedChunk κ}
    (h : rc ∈ hydrateLoop graphConf text hits rows) :
    ∃ m ∈ rows, m.id = rc.chunkId ∧ m.parentId = rc.parentId := by
  induction hits generalizing rows with
  | nil => cases h
  | cons hit hits ih =>
    rw [hydrateLoop] at h
    split at h
    · rename_i m hm
      cases List.mem_cons.mp h with
      | inl h =>
        subst h
        have hid : m.id = hit.chunkId := by simpa using List.find?_some hm
        exact ⟨m, List.mem_of_find?_eq_some hm, hid, rfl⟩
      | inr h =>
        obtain ⟨m, hm, hid⟩ := ih h
        exact ⟨m, (List.mem_filter.mp hm).1, hid⟩
    · exact ih h

theorem nodup_hydrateLoop (graphConf : String → Option κ) (text : String → Option Str)
    (hits : List (RetrievalHit κ)) (rows : List ChunkRow) :
    ((hydrateLoop graphConf text hits rows).map RetrievedChunk.chunkId).Nodup := by
  induction hits generalizing rows with
  | nil => exact List.nodup_nil
  | cons hit hits ih =>
    rw [hydrateLoop]
    split
    · rw [List.map_cons, List.nodup_cons]
      refine ⟨?_, ih _⟩
      -- the row of the hit is no longer in the map
      intro hmem
      obtain ⟨rc, hrc, hid⟩ := List.mem_map.mp hmem
      obtain ⟨m, hm, hmid, _⟩ := mem_hydrateLoop hrc
      have hne : m.id ≠ hit.chunkId := by simpa using (List.mem_filter.mp hm).2
      exact hne (hmid.trans hid)
    · exact ih rows

theorem complete_hydrateLoop {graphConf : String → Option κ} {text : String → Option Str}
    {hits : List (RetrievalHit κ)} {rows : List ChunkRow} {m : ChunkRow} (hm : m ∈ rows)
    (hhit : m.id ∈ hits.map RetrievalHit.chunkId) :
    ∃ rc ∈ hydrateLoop graphConf text hits rows, rc.chunkId = m.id := by
  induction hits generalizing rows with
  | nil => cases hhit
  | cons hit hits ih =>
    rw [hydrateLoop]
    by_cases hid : m.id = hit.chunkId
    · have hfound : (rows.find? fun m => m.id = hit.chunkId).isSome = true := by
        rw [List.find?_isSome]
        exact ⟨m, hm, by simpa using hid⟩
      obtain ⟨n, hn⟩ := Option.isSome_iff_exists.mp hfound
      rw [hn]
      exact ⟨_, List.mem_cons_self, hid.symm⟩
    · have hrest : m.id ∈ hits.map RetrievalHit.chunkId :=
        (List.mem_cons.mp hhit).resolve_left hid
      split
      · have hkept : m ∈ rows.filter fun m => m.id ≠ hit.chunkId := by
          rw [List.mem_filter]
          exact ⟨hm, by simpa using hid⟩
        obtain ⟨rc, hrc, hrcid⟩ := ih hkept hrest
        exact ⟨rc, List.mem_cons_of_mem _ hrc, hrcid⟩
      · exact ih hm hrest

theorem hydrated_hydrateRetrieved (nb : Notebook) (hits : List (RetrievalHit κ))
    (graphConf : String → Option κ) (prehydrated : String → Option Str) :
    Hydrated nb hits (hydrateRetrieved nb hits graphConf prehydrated) := by
  unfold hydrateRetrieved
  constructor
  case nodup => exact nodup_hydrateLoop ..
  case row =>
    intro rc hrc
    obtain ⟨m, hm, hid, hparent⟩ := mem_hydrateLoop hrc
    obtain ⟨hrow, hhit, hlive⟩ := mem_liveRows.mp hm
    exact ⟨m, hrow, hid, hparent, hlive, hhit⟩
  case complete =>
    intro m hm hlive hhit
    obtain ⟨rc, hrc, hid⟩ := complete_hydrateLoop (mem_liveRows.mpr ⟨hm, hhit, hlive⟩) hhit
    obtain ⟨n, hn, hnid, hparent⟩ := mem_hydrateLoop hrc
    have hnm : n = m := nb.row_unique (mem_liveRows.mp hn).1 hm (hnid.trans hid)
    exact ⟨rc, hrc, hid, by rw [← hparent, hnm]⟩

end Hydrated

section Candidates

variable {κ : Type} {nb : Notebook} {hits : List (RetrievalHit κ)} {rcs : List (RetrievedChunk κ)}

def childrenOf (rcs : List (RetrievedChunk κ)) (pid : String) : List (RetrievedChunk κ) :=
  rcs.filter fun rc => rc.parentId = some pid

def retrievedParents (rcs : List (RetrievedChunk κ)) : List String :=
  (rcs.filterMap RetrievedChunk.parentId).eraseDups

theorem foldl_children (rcs : List (RetrievedChunk κ)) (pid : String) :
    ((rcs.filterMap fun rc => rc.parentId.map fun pid => (pid, rc)).filter
      fun x => x.1 = pid).foldl (fun children x => children ++ [x.2]) [] = childrenOf rcs pid := by
  induction rcs using List.reverseRecOn with
  | nil => rfl
  | append_singleton rcs rc ih =>
    unfold childrenOf at ih ⊢
    rw [List.filterMap_append, List.filter_append, List.foldl_append, ih, List.filter_append]
    cases hp : rc.parentId with
    | none => simp [hp]
    | some q =>
      by_cases hq : q = pid
      · simp [hp, hq]
      · simp [hp, hq]

theorem byParent_eq (rcs : List (RetrievedChunk κ)) :
    byParent rcs = (retrievedParents rcs).map fun pid => (pid, childrenOf rcs pid) := by
  have hkeys : (rcs.filterMap fun rc => rc.parentId.map fun pid => (pid, rc)).map Prod.fst =
      rcs.filterMap RetrievedChunk.parentId := by
    rw [List.map_filterMap]
    apply List.filterMap_congr
    intro rc _
    cases rc.parentId with
    | none => rfl
    | some pid => rfl
  unfold byParent retrievedParents
  rw [group_eq, hkeys]
  apply List.map_congr_left
  intro pid _
  rw [foldl_children]

theorem mem_retrievedParents {pid : String} :
    pid ∈ retrievedParents rcs ↔ ∃ rc ∈ rcs, rc.parentId = some pid := by
  simp [retrievedParents, List.mem_eraseDups]

theorem nodup_retrievedParents (rcs : List (RetrievedChunk κ)) : (retrievedParents rcs).Nodup :=
  nodup_eraseDups _

/-- The parents that take the place of their children. -/
def Merges (nb : Notebook) (rcs : List (RetrievedChunk κ)) (pid : String) : Prop :=
  shouldMerge (childrenOf rcs pid).length (parentChildCount nb pid) = true

/-- No live chunk is hit together with its parent. -/
def NoParentRetrieved (nb : Notebook) (hits : List (RetrievalHit κ)) : Prop :=
  ∀ c ∈ nb.chunks, nb.live c.sourceId = true → c.id ∈ hits.map RetrievalHit.chunkId →
    ∀ pid, c.parentId = some pid → pid ∉ hits.map RetrievalHit.chunkId

/-- No chunk id twice, and no chunk beside its parent. -/
structure TextOnce (nb : Notebook) (ids : List String) : Prop where
  nodup : ids.Nodup
  noParent : ∀ c ∈ nb.chunks, c.id ∈ ids → ∀ pid, c.parentId = some pid → pid ∉ ids

theorem TextOnce.of_subperm {ids ids' : List String} (h : TextOnce nb ids) (hs : ids'.Subperm ids) :
    TextOnce nb ids' where
  nodup := by
    obtain ⟨l, hl, hsub⟩ := hs
    exact hl.nodup_iff.mp (h.nodup.sublist hsub)
  noParent := fun c hc hid pid hp hpid => h.noParent c hc (hs.subset hid) pid hp (hs.subset hpid)

theorem not_retrieved_of_parent (hh : Hydrated nb hits rcs) (hfree : NoParentRetrieved nb hits)
    {child rc : RetrievedChunk κ} (hchild : child ∈ rcs) (hrc : rc ∈ rcs) :
    child.parentId ≠ some rc.chunkId := by
  intro hparent
  obtain ⟨m, hm, hid, hmp, hlive, hhit⟩ := hh.row child hchild
  obtain ⟨n, hn, hnid, _, _, hnhit⟩ := hh.row rc hrc
  exact hfree m hm hlive hhit rc.chunkId (hmp.trans hparent) (hnid ▸ hnhit)

theorem noParentRetrieved_of_rows (hh : Hydrated nb hits rcs)
    (h : ∀ child ∈ rcs, ∀ parent ∈ rcs, child.parentId ≠ some parent.chunkId) :
    NoParentRetrieved nb hits := by
  intro c hc hlive hhit pid hp hpid
  obtain ⟨r, hr, hrid, hsource, _⟩ := nb.parent_row c hc pid hp
  obtain ⟨child, hchild, _, hcp⟩ := hh.complete c hc hlive hhit
  obtain ⟨parent, hparent, hpid', _⟩ := hh.complete r hr (by rw [hsource]; exact hlive)
    (by rw [hrid]; exact hpid)
  refine h child hchild parent hparent ?_
  rw [hcp, hp, hpid', hrid]

variable [LinearOrder κ] [OrderBot κ] {order : IterationOrder}

/-- The candidates of one group, all of them retrieved children or the one parent row. -/
theorem mem_groupCandidates {mergeIds : List String} {pid : String} {c : Candidate κ}
    (h : c ∈ groupCandidates nb mergeIds (pid, childrenOf rcs pid)) :
    (Merges nb rcs pid ∧ c.chunkId = pid ∧ c.parentId = some pid ∧
      ∃ r ∈ nb.chunks, r.id = pid) ∨
    (¬ Merges nb rcs pid ∧ ∃ rc ∈ rcs, rc.parentId = some pid ∧ c = Candidate.ofRetrieved rc) := by
  unfold groupCandidates at h
  split at h
  · rename_i hmerge
    split at h
    · rename_i parent hparent
      rw [List.mem_singleton] at h
      subst h
      have hid : parent.id = pid := by simpa using List.find?_some hparent
      exact .inl ⟨hmerge, hid, rfl, parent,
        (mem_liveRows.mp (List.mem_of_find?_eq_some hparent)).1, hid⟩
    · cases h
  · rename_i hmerge
    obtain ⟨rc, hrc, rfl⟩ := List.mem_map.mp h
    obtain ⟨hrc, hparent⟩ := List.mem_filter.mp hrc
    exact .inr ⟨hmerge, rc, hrc, of_decide_eq_true hparent, rfl⟩

theorem nodup_groupCandidates (hh : Hydrated nb hits rcs) (mergeIds : List String) (pid : String) :
    ((groupCandidates nb mergeIds (pid, childrenOf rcs pid)).map Candidate.chunkId).Nodup := by
  unfold groupCandidates
  split
  · split
    · exact List.nodup_singleton _
    · exact List.nodup_nil
  · rw [List.map_map]
    exact hh.nodup.sublist (List.filter_sublist.map _)

/-- A candidate with the id of a row is that retrieved chunk, or the row merged. -/
theorem mem_buildCandidates {c : Candidate κ}
    (h : c ∈ buildCandidates order nb (byParent rcs) (rcs.filter fun rc => rc.parentId.isNone)) :
    (∃ rc ∈ rcs, rc.parentId = none ∧ c = Candidate.ofRetrieved rc) ∨
    (∃ rc ∈ rcs, ∃ pid, rc.parentId = some pid ∧ ¬ Merges nb rcs pid ∧
      c = Candidate.ofRetrieved rc) ∨
    (∃ rc ∈ rcs, ∃ pid, rc.parentId = some pid ∧ Merges nb rcs pid ∧ c.chunkId = pid ∧
      ∃ r ∈ nb.chunks, r.id = pid) := by
  unfold buildCandidates at h
  cases List.mem_append.mp h with
  | inr h =>
    obtain ⟨rc, hrc, rfl⟩ := List.mem_map.mp h
    obtain ⟨hrc, hroot⟩ := List.mem_filter.mp hrc
    exact .inl ⟨rc, hrc, Option.isNone_iff_eq_none.mp hroot, rfl⟩
  | inl h =>
    obtain ⟨g, hg, hc⟩ := List.mem_flatMap.mp h
    rw [(order.perm _).mem_iff, byParent_eq] at hg
    obtain ⟨pid, hpid, rfl⟩ := List.mem_map.mp hg
    cases mem_groupCandidates hc with
    | inl hc =>
      obtain ⟨rc, hrc, hparent⟩ := mem_retrievedParents.mp hpid
      exact .inr (.inr ⟨rc, hrc, pid, hparent, hc.1, hc.2.1, hc.2.2.2⟩)
    | inr hc =>
      obtain ⟨hmerge, rc, hrc, hparent, rfl⟩ := hc
      exact .inr (.inl ⟨rc, hrc, pid, hparent, hmerge, rfl⟩)

theorem nodup_buildCandidates (hh : Hydrated nb hits rcs) (hfree : NoParentRetrieved nb hits) :
    ((buildCandidates order nb (byParent rcs) (rcs.filter fun rc => rc.parentId.isNone)).map
      Candidate.chunkId).Nodup := by
  have hkeys : ((byParent rcs).map Prod.fst).Nodup := by
    rw [byParent_eq, List.map_map]
    simpa [Function.comp_def] using nodup_retrievedParents rcs
  unfold buildCandidates
  generalize ((byParent rcs).filter _).map Prod.fst = mergeIds
  have horder := ((order.perm (byParent rcs)).flatMap_right (groupCandidates nb mergeIds)).map
    Candidate.chunkId
  rw [List.map_append, ((horder.append_right _).nodup_iff), List.nodup_append]
  -- where the id of a candidate of a group comes from
  have hgroup : ∀ g ∈ byParent rcs, ∀ id ∈ (groupCandidates nb mergeIds g).map Candidate.chunkId,
      ∃ child ∈ rcs, child.parentId = some g.1 ∧ (id = g.1 ∨ id = child.chunkId) := by
    intro g hg id hid
    rw [byParent_eq] at hg
    obtain ⟨pid, hpid, rfl⟩ := List.mem_map.mp hg
    obtain ⟨c, hc, rfl⟩ := List.mem_map.mp hid
    cases mem_groupCandidates hc with
    | inl hc =>
      obtain ⟨rc, hrc, hparent⟩ := mem_retrievedParents.mp hpid
      exact ⟨rc, hrc, hparent, .inl hc.2.1⟩
    | inr hc =>
      obtain ⟨_, rc, hrc, hparent, rfl⟩ := hc
      exact ⟨rc, hrc, hparent, .inr rfl⟩
  have hsame : ∀ a ∈ rcs, ∀ b ∈ rcs, a.chunkId = b.chunkId → a = b :=
    fun a ha b hb h => List.inj_on_of_nodup_map hh.nodup ha hb h
  refine ⟨?_, ?_, ?_⟩
  · rw [List.map_flatMap, List.nodup_flatMap]
    constructor
    · intro g hg
      rw [byParent_eq] at hg
      obtain ⟨pid, _, rfl⟩ := List.mem_map.mp hg
      exact nodup_groupCandidates hh mergeIds pid
    · refine (List.pairwise_map.mp hkeys).imp_of_mem ?_
      intro g g' hg hg' hne id hid hid'
      obtain ⟨a, ha, hap, hida⟩ := hgroup g hg id hid
      obtain ⟨b, hb, hbp, hidb⟩ := hgroup g' hg' id hid'
      rcases hida with rfl | rfl
      · rcases hidb with hidb | hidb
        · exact hne hidb
        · exact not_retrieved_of_parent hh hfree ha hb (hidb ▸ hap)
      · rcases hidb with hidb | hidb
        · exact not_retrieved_of_parent hh hfree hb ha (hidb ▸ hbp)
        · rw [hsame a ha b hb hidb, hbp] at hap
          exact hne (Option.some.inj hap).symm
  · rw [List.map_map]
    exact hh.nodup.sublist (List.filter_sublist.map _)
  · intro id hid id' hid' heq
    subst heq
    rw [List.map_flatMap] at hid
    obtain ⟨g, hg, hid⟩ := List.mem_flatMap.mp hid
    obtain ⟨a, ha, hap, hida⟩ := hgroup g hg id hid
    rw [List.map_map] at hid'
    obtain ⟨b, hb, rfl⟩ := List.mem_map.mp hid'
    obtain ⟨hb, hroot⟩ := List.mem_filter.mp hb
    rcases hida with hida | hida
    · exact not_retrieved_of_parent hh hfree ha hb (hap.trans (congrArg some hida.symm))
    · rw [← hsame b hb a ha hida] at hap
      rw [hap] at hroot
      cases hroot

theorem textOnce_buildCandidates (hh : Hydrated nb hits rcs) (hfree : NoParentRetrieved nb hits) :
    TextOnce nb ((buildCandidates order nb (byParent rcs)
      (rcs.filter fun rc => rc.parentId.isNone)).map Candidate.chunkId) := by
  refine ⟨nodup_buildCandidates hh hfree, ?_⟩
  intro m hm hid pid hp hpid
  obtain ⟨u, hu, huid⟩ := List.mem_map.mp hid
  obtain ⟨v, hv, hvid⟩ := List.mem_map.mp hpid
  -- the chunk with a parent is a retrieved child whose group is not merged
  have hchild : ∃ rc ∈ rcs, rc.parentId = some pid ∧ ¬ Merges nb rcs pid := by
    have hrow : ∀ rc ∈ rcs, u = Candidate.ofRetrieved rc → rc.parentId = some pid := by
      rintro rc hrc rfl
      obtain ⟨n, hn, hnid, hnp, _⟩ := hh.row rc hrc
      have hnm : n = m := nb.row_unique hn hm (hnid.trans huid)
      rw [← hnp, hnm, hp]
    rcases mem_buildCandidates hu with ⟨rc, hrc, hroot, hrcu⟩ | ⟨rc, hrc, q, hq, hmerge, hrcu⟩ |
      ⟨rc, hrc, q, hq, _, huq, r, hr, hrid⟩
    · rw [hrow rc hrc hrcu] at hroot
      cases hroot
    · have hpq := hrow rc hrc hrcu
      rw [hpq] at hq
      cases hq
      exact ⟨rc, hrc, hpq, hmerge⟩
    · obtain ⟨n, hn, hnid, hnp, _⟩ := hh.row rc hrc
      have hroot := (nb.parent_is_root hn hr (hnp.trans (hq.trans (congrArg some hrid.symm)))).1
      rw [nb.row_unique hm hr (by rw [← huid, huq, hrid]), hroot] at hp
      cases hp
  obtain ⟨child, hchild, hcp, hmerge⟩ := hchild
  rcases mem_buildCandidates hv with ⟨rc, hrc, _, rfl⟩ | ⟨rc, hrc, _, _, _, rfl⟩ |
    ⟨rc, hrc, q, _, hmerged, hvq, _⟩
  · exact not_retrieved_of_parent hh hfree hchild hrc (hcp.trans (congrArg some hvid.symm))
  · exact not_retrieved_of_parent hh hfree hchild hrc (hcp.trans (congrArg some hvid.symm))
  · rw [← hvid, hvq] at hmerge
    exact hmerge hmerged

end Candidates

section Units

variable {κ : Type}

theorem takeBudget_eq (cap : Nat) (l : List (Candidate κ)) (running : Nat)
    (chosen : List (Candidate κ)) :
    ∃ taken, takeBudget cap l running chosen = chosen ++ taken ∧ taken.Sublist l := by
  induction l generalizing running chosen with
  | nil => exact ⟨[], (List.append_nil _).symm, List.Sublist.refl _⟩
  | cons c rest ih =>
    rw [takeBudget]
    split
    · exact ⟨[], (List.append_nil _).symm, List.nil_sublist _⟩
    · obtain ⟨taken, htaken, hsub⟩ := ih (running + estimateTokens c.text) (chosen ++ [c])
      refine ⟨c :: taken, ?_, hsub.cons_cons c⟩
      rw [htaken, List.append_assoc, List.singleton_append]

theorem map_chunkId_units (key : Candidate κ → DocOrderKey) (survivors : List (Candidate κ)) :
    (((sortByKey key survivors).zipIdx.map fun x => toUnit x.1 x.2).map
      ContextUnit.chunkId).Perm (survivors.map Candidate.chunkId) := by
  have hids : (ContextUnit.chunkId ∘ fun x : Candidate κ × Nat => toUnit x.1 x.2) =
      Candidate.chunkId ∘ Prod.fst := rfl
  rw [List.map_map, hids, ← List.map_map, List.zipIdx_map_fst]
  exact (sortByKey_perm key survivors).map _

variable [LinearOrder κ]

theorem trimAndOrder_subperm (candidates : List (Candidate κ)) (sourceRank : String → Option Nat)
    (cap : Nat) : ((trimAndOrder candidates sourceRank cap).map ContextUnit.chunkId).Subperm
      (candidates.map Candidate.chunkId) := by
  unfold trimAndOrder
  refine (map_chunkId_units _ _).subperm.trans ?_
  split
  · exact List.Subperm.refl _
  · obtain ⟨taken, htaken, hsub⟩ := takeBudget_eq cap (sortByKey (fun c =>
      toLex (OrderDual.toDual c.score, docOrderKey sourceRank c)) candidates) 0 []
    rw [htaken, List.nil_append]
    exact (hsub.map _).subperm.trans ((sortByKey_perm _ candidates).map _).subperm

theorem trimAndOrder_perm {candidates : List (Candidate κ)} (sourceRank : String → Option Nat)
    {cap : Nat} (h : totalTokens candidates ≤ cap) :
    ((trimAndOrder candidates sourceRank cap).map ContextUnit.chunkId).Perm
      (candidates.map Candidate.chunkId) := by
  unfold trimAndOrder
  dsimp only
  rw [if_pos h]
  exact map_chunkId_units _ _

variable [OrderBot κ] {nb : Notebook} {hits : List (RetrievalHit κ)} {rcs : List (RetrievedChunk κ)}
  {order : IterationOrder}

/-- A retrieved parent is a candidate beside its child or beside itself. -/
theorem not_textOnce_of_parent (hh : Hydrated nb hits rcs) {child parent : RetrievedChunk κ}
    (hchild : child ∈ rcs) (hparent : parent ∈ rcs) (h : child.parentId = some parent.chunkId) :
    ¬ TextOnce nb ((buildCandidates order nb (byParent rcs)
      (rcs.filter fun rc => rc.parentId.isNone)).map Candidate.chunkId) := by
  intro honce
  obtain ⟨m, hm, hmid, hmp, hlive, _⟩ := hh.row child hchild
  obtain ⟨n, hn, hnid, hnp, hnlive, _⟩ := hh.row parent hparent
  have hroot := (nb.parent_is_root hm hn (hmp.trans (h.trans (congrArg some hnid.symm)))).1
  have horphan : Candidate.ofRetrieved parent ∈
      (rcs.filter fun rc => rc.parentId.isNone).map Candidate.ofRetrieved := by
    apply List.mem_map_of_mem
    rw [List.mem_filter, ← hnp, hroot]
    exact ⟨hparent, rfl⟩
  have hgroup : (parent.chunkId, childrenOf rcs parent.chunkId) ∈ order.arrange (byParent rcs) := by
    rw [(order.perm _).mem_iff, byParent_eq]
    exact List.mem_map_of_mem (mem_retrievedParents.mpr ⟨child, hchild, h⟩)
  have hmember : child ∈ childrenOf rcs parent.chunkId :=
    List.mem_filter.mpr ⟨hchild, decide_eq_true h⟩
  by_cases hmerge : Merges nb rcs parent.chunkId
  · -- the merged parent and the parent itself are two candidates of one id
    have hnodup := honce.nodup
    unfold buildCandidates at hnodup
    rw [List.map_append, List.nodup_append] at hnodup
    refine hnodup.2.2 parent.chunkId ?_ parent.chunkId (List.mem_map_of_mem horphan) rfl
    rw [List.map_flatMap]
    refine List.mem_flatMap.mpr ⟨_, hgroup, ?_⟩
    unfold Merges at hmerge
    unfold groupCandidates
    rw [if_pos hmerge]
    have hloaded : n ∈ nb.liveRows (((byParent rcs).filter fun g =>
        shouldMerge g.2.length (parentChildCount nb g.1)).map Prod.fst) := by
      refine mem_liveRows.mpr ⟨hn, ?_, hnlive⟩
      rw [hnid]
      refine List.mem_map.mpr ⟨_, List.mem_filter.mpr ⟨(order.perm _).mem_iff.mp hgroup, ?_⟩, rfl⟩
      exact hmerge
    have hfound : ((nb.liveRows (((byParent rcs).filter fun g =>
        shouldMerge g.2.length (parentChildCount nb g.1)).map Prod.fst)).find? fun r =>
          r.id = parent.chunkId).isSome = true := by
      rw [List.find?_isSome]
      exact ⟨n, hloaded, decide_eq_true hnid⟩
    obtain ⟨r, hr⟩ := Option.isSome_iff_exists.mp hfound
    have hrid : r.id = parent.chunkId := by simpa using List.find?_some hr
    rw [hr]
    exact List.mem_singleton.mpr hrid.symm
  · have hc : Candidate.ofRetrieved child ∈ buildCandidates order nb (byParent rcs)
        (rcs.filter fun rc => rc.parentId.isNone) := by
      unfold buildCandidates
      refine List.mem_append_left _ (List.mem_flatMap.mpr ⟨_, hgroup, ?_⟩)
      unfold Merges at hmerge
      unfold groupCandidates
      rw [if_neg hmerge]
      exact List.mem_map_of_mem hmember
    have hp : Candidate.ofRetrieved parent ∈ buildCandidates order nb (byParent rcs)
        (rcs.filter fun rc => rc.parentId.isNone) := List.mem_append_right _ horphan
    have hcid : m.id ∈ (buildCandidates order nb (byParent rcs)
        (rcs.filter fun rc => rc.parentId.isNone)).map Candidate.chunkId :=
      hmid ▸ List.mem_map_of_mem hc
    exact honce.noParent m hm hcid parent.chunkId (hmp.trans h) (List.mem_map_of_mem hp)

/-- Within every budget the units hold no text twice exactly when no live chunk is hit
together with its parent. -/
theorem assembleTier2_textOnce_iff (order : IterationOrder) (nb : Notebook)
    (hits : List (RetrievalHit κ)) (graphConf : String → Option κ)
    (prehydrated : String → Option Str) (sourceRank : String → Option Nat) :
    (∀ cap, TextOnce nb ((assembleTier2 order nb hits graphConf sourceRank cap prehydrated).map
      ContextUnit.chunkId)) ↔ NoParentRetrieved nb hits := by
  have hh := hydrated_hydrateRetrieved nb hits graphConf prehydrated
  unfold assembleTier2 assembleCandidates
  dsimp only
  generalize hydrateRetrieved nb hits graphConf prehydrated = rcs at hh
  constructor
  · intro h
    apply noParentRetrieved_of_rows hh
    intro child hchild parent hparent hp
    have hall := h (totalTokens (buildCandidates order nb (byParent rcs)
      (rcs.filter fun rc => rc.parentId.isNone)))
    exact not_textOnce_of_parent hh hchild hparent hp
      (hall.of_subperm (trimAndOrder_perm sourceRank (le_refl _)).symm.subperm)
  · intro hfree cap
    exact (textOnce_buildCandidates hh hfree).of_subperm (trimAndOrder_subperm _ _ _)

/-- One source with a parent of two children. -/
def familyNotebook : Notebook where
  chunks := [⟨"p", "s", none, "one two".toList, none, [], 0, 0⟩,
    ⟨"a", "s", some "p", "one".toList, none, [], 1, 0⟩,
    ⟨"b", "s", some "p", "two".toList, none, [], 1, 1⟩]
  sources := [⟨"s", none, true⟩]
  ids_nodup := by decide
  parent_row := by decide

/-- The parent and one of its two children are hit: the child is merged into a second copy of
the parent. -/
theorem assembleTier2_repeats_parent : ¬ TextOnce familyNotebook
    ((assembleTier2 ⟨id, fun _ => .refl _⟩ familyNotebook
      [⟨"p", 2, .dense⟩, ⟨"a", 1, .dense⟩] (fun _ => none) (fun _ => some 0) 100
      (fun _ => none)).map (ContextUnit.chunkId (κ := Nat))) := by
  intro h
  have hunits : (assembleTier2 ⟨id, fun _ => .refl _⟩ familyNotebook
      [⟨"p", 2, .dense⟩, ⟨"a", 1, .dense⟩] (fun _ => none) (fun _ => some 0) 100
      (fun _ => none)).map (ContextUnit.chunkId (κ := Nat)) = ["p", "p"] := by
    decide +kernel
  rw [hunits] at h
  exact absurd h.nodup (by decide)

end Units

end LensLM
