import LensLM.Error
import LensLM.VectorStore
import LensLM.Lib.Grouping
import LensLM.Lib.Outcome
import LensLM.Lib.Ranking

/-!
# Dense search narrowed to sources

The source filter goes to the vector store in batches, whose hits are merged by distance.
-/

namespace LensLM

open ByteText Grouping Outcome Ranking

set_option autoImplicit false

structure Hit (δ : Type) where
  chunkId : String
  distance : δ
deriving DecidableEq, Repr

structure VectorRow where
  chunkId : String
  sourceId : String
  notebookId : Str
deriving DecidableEq, Repr

/-- The active table as one query sees it: the store answers with the `k` nearest rows that
pass the filter, in no particular order. -/
structure VectorQuery (δ : Type) [LinearOrder δ] where
  rows : List VectorRow
  distance : VectorRow → δ
  chunks_nodup : (rows.map VectorRow.chunkId).Nodup
  distances_nodup : (rows.map distance).Nodup
  answer : (VectorRow → Bool) → Nat → List (Hit δ)
  answer_perm : ∀ p k, (answer p k).Perm
    (((sortByKey distance (rows.filter p)).take k).map fun r => ⟨r.chunkId, distance r⟩)

section Collect

variable {δ : Type}

/-- The ids of the merged hits, each once, until there are enough. -/
def collectDistinct (overfetch : Nat) : List (Hit δ) → List String → List String
  | [], ids => ids
  | h :: rest, ids =>
    if ids.any fun id => id = h.chunkId then collectDistinct overfetch rest ids
    else if overfetch ≤ (ids ++ [h.chunkId]).length then ids ++ [h.chunkId]
    else collectDistinct overfetch rest (ids ++ [h.chunkId])

theorem collectDistinct_eq {overfetch : Nat} (hits : List (Hit δ)) {ids : List String}
    (h : ids.length < overfetch) : collectDistinct overfetch hits ids =
      ((hits.map Hit.chunkId).foldl (pushNew id) ids).take overfetch := by
  induction hits generalizing ids with
  | nil => exact (List.take_of_length_le (le_of_lt h)).symm
  | cons x hits ih =>
    rw [collectDistinct, List.map_cons, List.foldl_cons]
    by_cases hx : (ids.any fun id => id = x.chunkId) = true
    · have hpush : pushNew id ids x.chunkId = ids := if_pos hx
      rw [if_pos hx, hpush, ih h]
    · have hpush : pushNew id ids x.chunkId = ids ++ [x.chunkId] := if_neg hx
      rw [if_neg hx, hpush]
      split
      · rename_i hfull
        have hlen : (ids ++ [x.chunkId]).length = overfetch := by
          rw [List.length_append, List.length_singleton] at hfull ⊢
          omega
        obtain ⟨more, hmore⟩ := prefix_foldl_pushNew id (ids ++ [x.chunkId]) (hits.map Hit.chunkId)
        rw [← hmore, List.take_left' hlen]
      · rename_i hfull
        exact ih (by omega)

end Collect

section Search

variable {δ : Type} [LinearOrder δ]

/-- The hits of a query, sorted and cut. -/
def queryHits (table : Option (VectorQuery δ)) (coord : Coordinate) (queryLen : Nat) (k : Nat)
    (filter : VectorRow → Bool) : Except LensError (List (Hit δ)) :=
  if queryLen ≠ coord.dim then
    .error (.vector s!"query vector length {queryLen} != expected dim {coord.dim}")
  else match table with
    | none => .ok []
    | some t => .ok ((sortByKey Hit.distance (t.answer filter k)).take k)

def search (table : Option (VectorQuery δ)) (coord : Coordinate) (queryLen : Nat) (k : Nat) :
    Except LensError (List (Hit δ)) :=
  queryHits table coord queryLen k fun r => r.notebookId == coord.notebook

def searchFiltered (table : Option (VectorQuery δ)) (coord : Coordinate) (queryLen : Nat) (k : Nat)
    (sourceIds : List String) : Except LensError (List (Hit δ)) :=
  if sourceIds.isEmpty then search table coord queryLen k
  else queryHits table coord queryLen k fun r =>
    r.notebookId == coord.notebook && sourceIds.contains r.sourceId

def MAX_PREFILTER_IDS : Nat := 512

def denseSearchPrefiltered (table : Option (VectorQuery δ)) (coord : Coordinate) (queryLen : Nat)
    (overfetch : Nat) (sourceIds : List String) : Except LensError (List String) :=
  if sourceIds.length ≤ MAX_PREFILTER_IDS then do
    let hits ← searchFiltered table coord queryLen overfetch sourceIds
    pure (hits.map Hit.chunkId)
  else do
    let merged ← (batches (MAX_PREFILTER_IDS - 1) sourceIds).foldlM (fun merged batch => do
      let hits ← searchFiltered table coord queryLen overfetch batch
      pure (merged ++ hits)) []
    pure (collectDistinct overfetch (sortByKey Hit.distance merged) [])

/-- The rows of a query from the nearest on. -/
def VectorQuery.ranked (t : VectorQuery δ) (p : VectorRow → Bool) : List VectorRow :=
  sortByKey t.distance (t.rows.filter p)

def VectorQuery.hit (t : VectorQuery δ) (r : VectorRow) : Hit δ := ⟨r.chunkId, t.distance r⟩

section Ranked

variable (t : VectorQuery δ)

theorem nodup_distances_filter (p : VectorRow → Bool) :
    ((t.rows.filter p).map t.distance).Nodup :=
  t.distances_nodup.sublist (List.filter_sublist.map _)

theorem ranked_strict (p : VectorRow → Bool) :
    (t.ranked p).Pairwise fun a b => t.distance a < t.distance b :=
  sortByKey_strict (nodup_distances_filter t p)

theorem mem_ranked {p : VectorRow → Bool} {r : VectorRow} :
    r ∈ t.ranked p ↔ r ∈ t.rows ∧ p r = true := by
  simp [VectorQuery.ranked]

theorem ranked_and (p q : VectorRow → Bool) :
    t.ranked (fun r => p r && q r) = (t.ranked p).filter q := by
  unfold VectorQuery.ranked
  rw [← sortByKey_filter (nodup_distances_filter t p), List.filter_filter]
  simp only [Bool.and_comm]

/-- The answer of the store, whatever its order, is sorted to the nearest rows. -/
theorem sort_answer (p : VectorRow → Bool) (k : Nat) :
    (sortByKey Hit.distance (t.answer p k)).take k = ((t.ranked p).take k).map t.hit := by
  have hstrict : (((t.ranked p).take k).map t.hit).Pairwise fun a b => a.distance < b.distance :=
    List.pairwise_map.mpr ((ranked_strict t p).take)
  rw [sortByKey_of_perm_strict hstrict (t.answer_perm p k), ← List.map_take, List.take_take, min_self]

end Ranked

section Refused

variable {table : Option (VectorQuery δ)} {coord : Coordinate} {queryLen k : Nat}

theorem searchFiltered_dim_ne (h : queryLen ≠ coord.dim) (sourceIds : List String) :
    searchFiltered table coord queryLen k sourceIds =
      .error (.vector s!"query vector length {queryLen} != expected dim {coord.dim}") := by
  unfold searchFiltered search queryHits
  simp only [if_pos h, ite_self]

theorem searchFiltered_none (h : queryLen = coord.dim) (sourceIds : List String) :
    searchFiltered (none : Option (VectorQuery δ)) coord queryLen k sourceIds = .ok [] := by
  unfold searchFiltered search queryHits
  simp only [if_neg (not_not.mpr h), ite_self]

end Refused

section Merge

variable (t : VectorQuery δ) (coord : Coordinate)

/-- The rows that a search over a list of sources ranks. -/
def sourceFilter (sourceIds : List String) (r : VectorRow) : Bool :=
  r.notebookId == coord.notebook && sourceIds.contains r.sourceId

theorem searchFiltered_eq {queryLen k : Nat} {sourceIds : List String} (hne : sourceIds ≠ []) :
    searchFiltered (some t) coord queryLen k sourceIds =
      if queryLen ≠ coord.dim then
        .error (.vector s!"query vector length {queryLen} != expected dim {coord.dim}")
      else .ok (((t.ranked (sourceFilter coord sourceIds)).take k).map t.hit) := by
  unfold searchFiltered queryHits
  rw [if_neg (by simpa using hne)]
  simp only [sort_answer]
  rfl

/-- The rows that the batches of a list of sources yield. -/
def batchRows (k : Nat) (bs : List (List String)) : List VectorRow :=
  bs.flatMap fun b => (t.ranked (sourceFilter coord b)).take k

variable {coord}

theorem foldlM_batches {queryLen k : Nat} (hdim : queryLen = coord.dim) {bs : List (List String)}
    (hbs : ∀ b ∈ bs, b ≠ []) (merged : List (Hit δ)) :
    bs.foldlM (fun merged batch => do
      let hits ← searchFiltered (some t) coord queryLen k batch
      pure (merged ++ hits)) merged = .ok (merged ++ (batchRows t coord k bs).map t.hit) := by
  induction bs generalizing merged with
  | nil => simp [batchRows, pure, Except.pure]
  | cons b bs ih =>
    have hb : searchFiltered (some t) coord queryLen k b = _ :=
      searchFiltered_eq t coord (hbs b List.mem_cons_self)
    rw [if_neg (not_not.mpr hdim)] at hb
    rw [List.foldlM_cons, hb]
    have hrest := ih (fun b' hb' => hbs b' (List.mem_cons_of_mem _ hb'))
      (merged ++ ((t.ranked (sourceFilter coord b)).take k).map t.hit)
    refine hrest.trans ?_
    simp [batchRows]

/-- The batches together hold the nearest rows, and no others than the whole list allows. -/
theorem batchRows_spec {k : Nat} {sourceIds : List String} {bs : List (List String)}
    (hbs : ∀ x, x ∈ sourceIds ↔ ∃ b ∈ bs, x ∈ b) :
    (∀ r ∈ batchRows t coord k bs, r ∈ t.ranked (sourceFilter coord sourceIds)) ∧
    ∀ r ∈ (t.ranked (sourceFilter coord sourceIds)).take k, r ∈ batchRows t coord k bs := by
  constructor
  · intro r hr
    obtain ⟨b, hb, hr⟩ := List.mem_flatMap.mp hr
    obtain ⟨hrow, hp⟩ := (mem_ranked t).mp (List.mem_of_mem_take hr)
    simp only [sourceFilter, Bool.and_eq_true, List.contains_iff_mem] at hp
    refine (mem_ranked t).mpr ⟨hrow, ?_⟩
    simp only [sourceFilter, Bool.and_eq_true, List.contains_iff_mem]
    exact ⟨hp.1, (hbs _).mpr ⟨b, hb, hp.2⟩⟩
  · intro r hr
    obtain ⟨_, hp⟩ := (mem_ranked t).mp (List.mem_of_mem_take hr)
    simp only [sourceFilter, Bool.and_eq_true, List.contains_iff_mem] at hp
    obtain ⟨b, hb, hrb⟩ := (hbs _).mp hp.2
    refine List.mem_flatMap.mpr ⟨b, hb, ?_⟩
    -- the batch of the row ranks a part of the whole list
    have hpart : t.ranked (sourceFilter coord b) =
        (t.ranked (sourceFilter coord sourceIds)).filter fun r => b.contains r.sourceId := by
      rw [← ranked_and]
      congr 1
      funext r
      simp only [sourceFilter, Bool.and_assoc]
      congr 1
      rw [Bool.eq_iff_iff, Bool.and_eq_true, List.contains_iff_mem, List.contains_iff_mem]
      exact ⟨fun h => ⟨(hbs _).mpr ⟨b, hb, h⟩, h⟩, And.right⟩
    rw [hpart]
    exact mem_take_filter hr (List.contains_iff_mem.mpr hrb)

/-- The merged rows, each once, begin with the nearest rows of the whole list. -/
theorem take_distinct {k : Nat} {p : VectorRow → Bool} {rows : List VectorRow}
    (hsub : ∀ r ∈ rows, r ∈ t.ranked p) (htake : ∀ r ∈ (t.ranked p).take k, r ∈ rows) :
    ((sortByKey t.distance rows).foldl (pushNew VectorRow.chunkId) []).take k =
      (t.ranked p).take k := by
  have hrow : ∀ r ∈ sortByKey t.distance rows, r ∈ t.rows := by
    intro r hr
    exact ((mem_ranked t).mp (hsub r ((mem_sortByKey t.distance).mp hr))).1
  have hchunk : ∀ r ∈ t.rows, ∀ s ∈ t.rows, r.chunkId = s.chunkId → r = s :=
    fun r hr s hs h => List.inj_on_of_nodup_map t.chunks_nodup hr hs h
  have hdist : ∀ r ∈ t.rows, ∀ s ∈ t.rows, t.distance r = t.distance s → r = s :=
    fun r hr s hs h => List.inj_on_of_nodup_map t.distances_nodup hr hs h
  have hlist := foldl_pushNew_sublist VectorRow.chunkId (sortByKey t.distance rows)
  have hkeys := map_foldl_pushNew VectorRow.chunkId (sortByKey t.distance rows)
  generalize (sortByKey t.distance rows).foldl (pushNew VectorRow.chunkId) [] = distinct
    at hlist hkeys ⊢
  have hnodup : distinct.Nodup := by
    apply List.Nodup.of_map VectorRow.chunkId
    rw [hkeys]
    exact nodup_eraseDups _
  have hmem : ∀ r, r ∈ distinct ↔ r ∈ rows := by
    intro r
    constructor
    · exact fun hr => (mem_sortByKey t.distance).mp (hlist.subset hr)
    · intro hr
      have hr := (mem_sortByKey t.distance (x := r)).mpr hr
      have hkey : r.chunkId ∈ distinct.map VectorRow.chunkId := by
        rw [hkeys, List.mem_eraseDups]
        exact List.mem_map_of_mem hr
      obtain ⟨s, hs, hsr⟩ := List.mem_map.mp hkey
      rw [← hchunk s (hrow s (hlist.subset hs)) r (hrow r hr) hsr]
      exact hs
  have hstrict : distinct.Pairwise fun a b => t.distance a < t.distance b := by
    apply strict_of_nodup ((pairwise_sortByKey t.distance rows).sublist hlist)
    apply hnodup.map_on
    intro r hr s hs
    exact hdist r (hrow r (hlist.subset hr)) s (hrow s (hlist.subset hs))
  have heq : distinct = (t.ranked p).filter fun r => r ∈ rows := by
    apply eq_of_strict hstrict ((ranked_strict t p).filter _)
    intro r
    rw [hmem, List.mem_filter, decide_eq_true_eq]
    exact ⟨fun hr => ⟨hsub r hr, hr⟩, And.right⟩
  rw [heq]
  exact take_filter_of_forall fun r hr => decide_eq_true (htake r hr)

theorem collect_batchRows {k : Nat} {sourceIds : List String} {bs : List (List String)}
    (hbs : ∀ x, x ∈ sourceIds ↔ ∃ b ∈ bs, x ∈ b) :
    collectDistinct k (sortByKey Hit.distance ((batchRows t coord k bs).map t.hit)) [] =
      ((t.ranked (sourceFilter coord sourceIds)).take k).map VectorRow.chunkId := by
  cases k with
  | zero =>
    have hnil : batchRows t coord 0 bs = [] := by simp [batchRows]
    rw [hnil]
    rfl
  | succ k =>
    have hspec : _ ∧ ∀ r ∈ (t.ranked (sourceFilter coord sourceIds)).take (k + 1), _ :=
      batchRows_spec t hbs
    generalize batchRows t coord (k + 1) bs = rows at hspec ⊢
    have hsort : sortByKey Hit.distance (rows.map t.hit) = (sortByKey t.distance rows).map t.hit :=
      (List.map_insertionSort _ _ t.hit rows fun _ _ _ _ => Iff.rfl).symm
    have hids := map_foldl_pushNew VectorRow.chunkId (sortByKey t.distance rows)
    have hid := map_foldl_pushNew id ((sortByKey t.distance rows).map VectorRow.chunkId)
    rw [List.map_id, List.map_id] at hid
    rw [collectDistinct_eq _ (Nat.succ_pos k), hsort, List.map_map,
      ← take_distinct t hspec.1 hspec.2, List.map_take, hids, ← hid]
    rfl

end Merge

/-- The batched prefilter returns the ranked list of one search over all the sources. -/
theorem denseSearchPrefiltered_eq (table : Option (VectorQuery δ)) (coord : Coordinate)
    (queryLen overfetch : Nat) (sourceIds : List String) :
    denseSearchPrefiltered table coord queryLen overfetch sourceIds =
      (searchFiltered table coord queryLen overfetch sourceIds).map fun hits =>
        hits.map Hit.chunkId := by
  unfold denseSearchPrefiltered
  split
  · cases searchFiltered table coord queryLen overfetch sourceIds with
    | ok hits => rfl
    | error e => rfl
  · rename_i hlong
    have hne : sourceIds ≠ [] := by
      rintro rfl
      exact hlong (Nat.zero_le _)
    obtain ⟨b, bs, hbs⟩ : ∃ b bs, batches (MAX_PREFILTER_IDS - 1) sourceIds = b :: bs := by
      apply List.exists_cons_of_ne_nil
      intro hnil
      have hflat := flatten_batches (MAX_PREFILTER_IDS - 1) sourceIds
      rw [hnil] at hflat
      exact hne hflat.symm
    have hbatch : ∀ b' ∈ b :: bs, b' ≠ [] := by
      intro b' hb'
      rw [← hbs] at hb'
      exact ne_nil_of_mem_batches hb'
    have hmem : ∀ x, x ∈ sourceIds ↔ ∃ b' ∈ b :: bs, x ∈ b' := by
      intro x
      rw [← hbs]
      exact mem_iff_mem_batch
    rw [hbs]
    by_cases hdim : queryLen = coord.dim
    · cases table with
      | none =>
        have hnone : ∀ bs : List (List String), bs.foldlM (fun merged batch => do
            let hits ← searchFiltered (none : Option (VectorQuery δ)) coord queryLen overfetch batch
            pure (merged ++ hits)) [] = .ok [] := by
          intro bs
          induction bs with
          | nil => rfl
          | cons b bs ih =>
            rw [List.foldlM_cons, searchFiltered_none hdim]
            exact ih
        rw [hnone, searchFiltered_none hdim]
        rfl
      | some t =>
        rw [foldlM_batches t hdim hbatch, List.nil_append, searchFiltered_eq t coord hne,
          if_neg (not_not.mpr hdim)]
        refine congrArg Except.ok ?_
        rw [collect_batchRows t hmem]
        simp only [List.map_map]
        rfl
    · rw [List.foldlM_cons, searchFiltered_dim_ne hdim, searchFiltered_dim_ne hdim]
      rfl

end Search

/-- A store that answers in order. -/
def VectorQuery.exact {δ : Type} [LinearOrder δ] (rows : List VectorRow)
    (distance : VectorRow → δ) (hc : (rows.map VectorRow.chunkId).Nodup)
    (hd : (rows.map distance).Nodup) : VectorQuery δ where
  rows := rows
  distance := distance
  chunks_nodup := hc
  distances_nodup := hd
  answer := fun p k =>
    ((sortByKey distance (rows.filter p)).take k).map fun r => ⟨r.chunkId, distance r⟩
  answer_perm := fun _ _ => .refl _

example : denseSearchPrefiltered
    (some (VectorQuery.exact [⟨"a11", "a", []⟩, ⟨"b1", "b", []⟩, ⟨"a", "a", []⟩]
      (fun r => r.chunkId.length) (by decide) (by decide)))
    ⟨[], .fastembed, [], 3⟩ 3 1 ["a"] = .ok ["a"] := by
  decide +kernel

end LensLM
