import LensLM.TieredSearch

/-!
# Where the units of a search come from

Whatever is written between the reads of a search, its units come from rows that a read delivered
together with the flags of a live and selected source.
-/

namespace LensLM

open ByteText Grouping Outcome Ranking

set_option autoImplicit false

section Statement

/-- The reads that join the rows with their sources, and deliver the rows of the units. -/
def SearchRead.Delivers : SearchRead → Prop
  | .sectionParents _ | .parentRows _ | .chunkMeta _ | .parents _ => True
  | _ => False

def ChunkRow.locator (r : ChunkRow) : Option Str := some (r.sourceAnchor.getD r.sectionPath)

/-- The chunk was read under a live and selected source, and the text is one of the chunk. -/
structure ReadLive (db : Readings) (chunkId sourceId : String) (locator : Option Str)
    (text : Str) : Prop where
  row : ∃ read : SearchRead, read.Delivers ∧ ∃ r ∈ (db read).chunks, r.id = chunkId ∧
    r.sourceId = sourceId ∧ r.locator = locator ∧ (db read).live sourceId = true
  words : text = [] ∨ ∃ read, ∃ r ∈ (db read).chunks, r.id = chunkId ∧ r.text = text

/-- Numbered units within a budget, each from a row that was read. -/
structure Delivered {κ : Type} (db : Readings) (cost : Str → Nat) (cap : Nat)
    (units : List (ContextUnit κ)) : Prop where
  grounded : ∀ u ∈ units, ReadLive db u.chunkId u.sourceId u.locator u.text
  numbered : units.map ContextUnit.orderIndex = List.range units.length
  fits : (units.map fun u => cost u.text).sum ≤ cap ∨ units.length = 1

def Tier.cost (tokenizer : Option (Str → Except LensError Nat)) : Tier → Str → Nat
  | .tier1 => textCost tokenizer
  | _ => estimateTokens

def TierCap.of (caps : TierCap) : Tier → Nat
  | .tier1 => caps.tier1Cap
  | _ => caps.tier2Cap

/-- What is around the search can make it fail. -/
inductive SearchFailure {δ : Type} [LinearOrder δ] (e : SearchSurroundings δ) (args : SearchArgs) :
    LensError → Prop
  | dimension (h : args.queryLen ≠ args.coord.dim) : SearchFailure e args
      (.vector s!"query vector length {args.queryLen} != expected dim {args.coord.dim}")
  | lexical {err : LensError} (n : Nat) (h : e.bm25Search n = .error err) :
      SearchFailure e args err
  | seeds {g : GraphArm} {err : LensError} (hg : e.graph = some g) (h : g.resolution = .error err) :
      SearchFailure e args err
  | graph {g : GraphArm} {err : LensError} (hg : e.graph = some g)
      (seeds : List (Str × EntityKind)) (n : Nat) (h : g.compose seeds n = .error err) :
      SearchFailure e args err
  | tokenizer {tk : Str → Except LensError Nat} {err : LensError} (htk : e.tokenizer = some tk)
      (text : Str) (h : tk text = .error err) : SearchFailure e args err

end Statement

section Taken

variable {α : Type}

theorem takeWithin_eq (cost : α → Nat) (cap : Nat) (l : List α) (running : Nat)
    (chosen : List α) : ∃ taken, takeWithin cost cap l running chosen = chosen ++ taken ∧
      taken <+: l ∧ (chosen ≠ [] → taken = [] ∨ running + (taken.map cost).sum ≤ cap) := by
  induction l generalizing running chosen with
  | nil => exact ⟨[], (List.append_nil _).symm, List.nil_prefix, fun _ => .inl rfl⟩
  | cons x rest ih =>
    rw [takeWithin]
    split
    · exact ⟨[], (List.append_nil _).symm, List.nil_prefix, fun _ => .inl rfl⟩
    · rename_i hroom
      obtain ⟨taken, htaken, hpre, hfits⟩ := ih (running + cost x) (chosen ++ [x])
      refine ⟨x :: taken, ?_, List.cons_prefix_cons.mpr ⟨rfl, hpre⟩, fun hne => .inr ?_⟩
      · rw [htaken, List.append_assoc, List.singleton_append]
      · have hx : running + cost x ≤ cap := Nat.le_of_not_lt fun hover => hroom ⟨hover, hne⟩
        rw [List.map_cons, List.sum_cons]
        rcases hfits (List.concat_ne_nil x chosen) with rfl | hsum
        · simpa using hx
        · omega

theorem takeWithin_spec (cost : α → Nat) (cap : Nat) (l : List α) :
    takeWithin cost cap l 0 [] <+: l ∧ (((takeWithin cost cap l 0 []).map cost).sum ≤ cap ∨
      (takeWithin cost cap l 0 []).length = 1) := by
  cases l with
  | nil => exact ⟨List.nil_prefix, .inl (Nat.zero_le cap)⟩
  | cons x rest =>
    have hfirst : takeWithin cost cap (x :: rest) 0 [] =
        takeWithin cost cap rest (0 + cost x) ([] ++ [x]) := by
      rw [takeWithin, if_neg fun h => h.2 rfl]
    obtain ⟨taken, htaken, hpre, hfits⟩ := takeWithin_eq cost cap rest (0 + cost x) ([] ++ [x])
    rw [hfirst, htaken, List.nil_append, List.singleton_append]
    refine ⟨List.cons_prefix_cons.mpr ⟨rfl, hpre⟩, ?_⟩
    rcases hfits (List.concat_ne_nil x []) with rfl | hsum
    · exact .inr rfl
    · left
      rw [List.map_cons, List.sum_cons]
      omega

end Taken

section Fetched

variable {α : Type} {db : Readings} {read : Nat → SearchRead} {ids : List String}

theorem mem_fetchBatched {rowsFor : Corpus → List String → List α} {x : α}
    (h : x ∈ fetchBatched db read rowsFor ids) : ∃ n batch, x ∈ rowsFor (db (read n)) batch := by
  obtain ⟨b, _, hx⟩ := List.mem_flatMap.mp h
  exact ⟨b.2, b.1, hx⟩

/-- The texts are those of rows. -/
def TextsRead (db : Readings) (texts : String → Option Str) : Prop :=
  ∀ id t, texts id = some t → ∃ read, ∃ r ∈ (db read).chunks, r.id = id ∧ r.text = t

theorem textsRead_fetchTexts (db : Readings) (read : Nat → SearchRead) (ids : List String) :
    TextsRead db (fetchTexts db read ids) := by
  intro id t h
  obtain ⟨p, hp, rfl⟩ := Option.map_eq_some_iff.mp h
  obtain ⟨n, batch, hrow⟩ := mem_fetchBatched (List.mem_of_find?_eq_some hp)
  obtain ⟨r, hr, rfl⟩ := List.mem_map.mp hrow
  exact ⟨read n, r, (List.mem_filter.mp hr).1, by simpa using List.find?_some hp, rfl⟩

theorem TextsRead.or {texts more : String → Option Str} (h : TextsRead db texts)
    (hmore : TextsRead db more) : TextsRead db fun id => (texts id).or (more id) := by
  intro id t ht
  cases hid : texts id with
  | none =>
    simp only [hid, Option.none_or] at ht
    exact hmore id t ht
  | some u =>
    simp only [hid, Option.some_or] at ht
    exact h id t (hid.trans ht)

/-- A row that was fetched under the condition on its source. -/
theorem mem_fetched_live {r : ChunkRow}
    (h : r ∈ fetchBatched db read (fun c => c.liveRows) ids) :
    ∃ n, r ∈ (db (read n)).chunks ∧ (db (read n)).live r.sourceId = true := by
  obtain ⟨n, batch, hr⟩ := mem_fetchBatched h
  obtain ⟨hmem, _, hlive⟩ := mem_liveRows.mp hr
  exact ⟨n, hmem, hlive⟩

end Fetched

section Injected

variable {κ : Type} {db : Readings} {cost : Str → Nat} {cap : Nat}

theorem grounded_row (read : SearchRead) (hread : read.Delivers) {r : ChunkRow}
    (hr : r ∈ (db read).chunks) (hlive : (db read).live r.sourceId = true) :
    ReadLive db r.id r.sourceId r.locator r.text where
  row := ⟨read, hread, r, hr, rfl, rfl, rfl, hlive⟩
  words := .inr ⟨read, r, hr, rfl, rfl⟩

theorem delivered_injectWithin {rows : List ChunkRow}
    (h : ∀ r ∈ rows, ReadLive db r.id r.sourceId r.locator r.text) :
    Delivered db cost cap (injectWithin cost cap rows : List (ContextUnit κ)) := by
  obtain ⟨hpre, hfits⟩ := takeWithin_spec (fun r : ChunkRow => cost r.text) cap rows
  unfold injectWithin
  generalize takeWithin (fun r : ChunkRow => cost r.text) cap rows 0 [] = taken at hpre hfits
  constructor
  case grounded =>
    intro u hu
    obtain ⟨x, hx, rfl⟩ := List.mem_map.mp hu
    exact h x.1 (hpre.subset (List.fst_mem_of_mem_zipIdx hx))
  case numbered =>
    rw [List.map_map, List.length_map, List.length_zipIdx]
    exact (List.zipIdx_map_snd 0 taken).trans List.range_eq_range'.symm
  case fits =>
    rw [List.map_map, List.length_map, List.length_zipIdx]
    have hcosts : (taken.zipIdx.map ((fun u : ContextUnit κ => cost u.text) ∘
        fun x => injectedUnit x.1 x.2)) = taken.map fun r => cost r.text := by
      conv_rhs => rw [← List.zipIdx_map_fst 0 taken, List.map_map]
      rfl
    rw [hcosts]
    exact hfits

theorem delivered_assembleTier1 (sourceIds : List String)
    (tokenizer : Option (Str → Except LensError Nat)) :
    Delivered db (textCost tokenizer) cap
      (assembleTier1 db sourceIds cap tokenizer : List (ContextUnit κ)) := by
  refine delivered_injectWithin fun r hr => ?_
  obtain ⟨sourceId, _, hr⟩ := List.mem_flatMap.mp hr
  obtain ⟨hmem, hlive⟩ := List.mem_filter.mp ((mem_sortByKey _).mp hr)
  exact grounded_row (.parentRows sourceId) trivial (List.mem_filter.mp hmem).1 hlive

/-- The parents of the tier come from the sources that were resolved. -/
theorem source_mem_assembleTier1 {sourceIds : List String}
    {tokenizer : Option (Str → Except LensError Nat)} {u : ContextUnit κ}
    (hu : u ∈ assembleTier1 db sourceIds cap tokenizer) : u.sourceId ∈ sourceIds := by
  obtain ⟨x, hx, rfl⟩ := List.mem_map.mp hu
  have hrow := (takeWithin_spec _ cap _).1.subset (List.fst_mem_of_mem_zipIdx hx)
  obtain ⟨sourceId, hsource, hr⟩ := List.mem_flatMap.mp hrow
  have hparent := (List.mem_filter.mp ((mem_sortByKey _).mp hr)).1
  have hof := (List.mem_filter.mp hparent).2
  simp only [Bool.and_eq_true, decide_eq_true_eq] at hof
  show x.1.sourceId ∈ sourceIds
  rw [hof.1]
  exact hsource

end Injected

section Structural

variable {κ : Type} {db : Readings} {isAlphanumeric : Char → Bool} {sourceIds : List String}
  {sourceRank : String → Option Nat} {target : StructuralTarget} {cap : Nat}

theorem mem_sectionParents {c : Corpus} {sourceId : String} {span : SectionSpan} {r : ChunkRow}
    (h : r ∈ sectionParents c sourceId span) :
    r ∈ c.chunks ∧ r.sourceId = sourceId ∧ c.live r.sourceId = true := by
  obtain ⟨hparent, hkept⟩ := List.mem_filter.mp ((mem_sortByKey _).mp h)
  obtain ⟨hmem, hof⟩ := List.mem_filter.mp hparent
  simp only [Bool.and_eq_true, decide_eq_true_eq] at hkept hof
  exact ⟨hmem, hof.1, hkept.2⟩

/-- The rows that a resolved target yields, before the budget. -/
theorem resolveStructural_rows {units : List (ContextUnit κ)}
    (h : resolveStructural db isAlphanumeric sourceIds sourceRank target cap = some units) :
    ∃ rows, units = injectWithin estimateTokens cap rows ∧ ∀ r ∈ rows,
      r.sourceId ∈ sourceIds ∧ ReadLive db r.id r.sourceId r.locator r.text := by
  unfold resolveStructural at h
  dsimp only at h
  split at h
  · cases h
  · split at h
    · cases h
    · refine ⟨_, (Option.some.inj h).symm, fun r hr => ?_⟩
      obtain ⟨x, hx, rfl⟩ := List.mem_map.mp hr
      obtain ⟨s, hs, hx⟩ := List.mem_flatMap.mp ((mem_sortByKey _).mp hx)
      obtain ⟨sourceId, hsource, hspan⟩ := List.mem_filterMap.mp hs
      obtain ⟨span, -, rfl⟩ := Option.map_eq_some_iff.mp hspan
      obtain ⟨row, hrow, rfl⟩ := List.mem_map.mp hx
      obtain ⟨hmem, hof, hlive⟩ := mem_sectionParents hrow
      refine ⟨?_, grounded_row (.sectionParents sourceId) trivial hmem hlive⟩
      rw [hof]
      exact hsource

end Structural

section Fused

variable {db : Readings}

theorem textsRead_fuseAndRerank (db : Readings) (order : IterationOrder) (enabled : Bool)
    (answer : List Str → Option (List (Nat × ℚ))) (denseIds bm25Ids graphIds : List String)
    (pool : Nat) :
    TextsRead db (fuseAndRerank db order enabled answer denseIds bm25Ids graphIds pool).2 := by
  unfold fuseAndRerank
  dsimp only
  split
  · intro id t h
    cases h
  · exact textsRead_fetchTexts db _ _

variable {κ : Type} {hits : List (RetrievalHit κ)} {graphConf : String → Option κ}

/-- A chunk of the loop is put together from a hit and the row of its id. -/
theorem hydrateLoop_row {text : String → Option Str} {rows : List ChunkRow}
    {rc : RetrievedChunk κ} (h : rc ∈ hydrateLoop graphConf text hits rows) :
    ∃ hit, ∃ m ∈ rows, m.id = hit.chunkId ∧ rc = retrievedChunk graphConf text hit m := by
  induction hits generalizing rows with
  | nil => cases h
  | cons hit hits ih =>
    rw [hydrateLoop] at h
    split at h
    · rename_i m hm
      cases List.mem_cons.mp h with
      | inl h => exact ⟨hit, m, List.mem_of_find?_eq_some hm, by simpa using List.find?_some hm, h⟩
      | inr h =>
        obtain ⟨hit', m, hm, hrest⟩ := ih h
        exact ⟨hit', m, (List.mem_filter.mp hm).1, hrest⟩
    · exact ih h

theorem grounded_hydrateReads {prehydrated : String → Option Str}
    (hpre : TextsRead db prehydrated) {rc : RetrievedChunk κ}
    (h : rc ∈ hydrateReads db hits graphConf prehydrated) :
    ReadLive db rc.chunkId rc.sourceId rc.locator rc.text := by
  unfold hydrateReads at h
  dsimp only at h
  have htexts := hpre.or (textsRead_fetchTexts db .texts
    ((hits.map RetrievalHit.chunkId).filter fun id =>
      ((fetchBatched db .chunkMeta (fun c => c.liveRows) (hits.map RetrievalHit.chunkId)).any
        fun m => m.id = id) && (prehydrated id).isNone))
  generalize (fun id => Option.or _ _ : String → Option Str) = text at h htexts
  obtain ⟨hit, m, hm, hid, rfl⟩ := hydrateLoop_row h
  obtain ⟨n, hmem, hlive⟩ := mem_fetched_live hm
  refine ⟨⟨.chunkMeta n, trivial, m, hmem, hid, rfl, rfl, hlive⟩, ?_⟩
  cases ht : text hit.chunkId with
  | none => exact .inl (by rw [retrievedChunk, ht]; rfl)
  | some t =>
    obtain ⟨read, r, hr, hrid, hrt⟩ := htexts hit.chunkId t ht
    exact .inr ⟨read, r, hr, hrid, by rw [hrt, retrievedChunk, ht]; rfl⟩

variable [LinearOrder κ]

theorem delivered_trimAndOrder {candidates : List (Candidate κ)}
    (h : ∀ c ∈ candidates, ReadLive db c.chunkId c.sourceId c.locator c.text)
    (sourceRank : String → Option Nat) (cap : Nat) :
    Delivered db estimateTokens cap (trimAndOrder candidates sourceRank cap) := by
  obtain ⟨kept, dropped, hrank, hperm, haffords⟩ := survivors_affords candidates sourceRank cap
  have hkept : (presented candidates sourceRank cap).Perm kept := presented_perm.trans hperm
  rw [trimAndOrder_eq]
  constructor
  case grounded =>
    intro u hu
    obtain ⟨x, hx, rfl⟩ := List.mem_map.mp hu
    have hmem : x.1 ∈ ranking candidates sourceRank := by
      rw [hrank]
      exact List.mem_append_left _ (hkept.subset (List.fst_mem_of_mem_zipIdx hx))
    exact h x.1 (ranking_perm.subset hmem)
  case numbered =>
    rw [map_orderIndex, List.length_map, List.length_zipIdx]
  case fits =>
    have hcosts : ((presented candidates sourceRank cap).zipIdx.map
        ((fun u : ContextUnit κ => estimateTokens u.text) ∘ fun x => toUnit x.1 x.2)).sum =
          totalTokens (presented candidates sourceRank cap) := by
      unfold totalTokens
      conv_rhs => rw [← List.zipIdx_map_fst 0 (presented candidates sourceRank cap), List.map_map]
      rfl
    rw [List.map_map, hcosts, List.length_map, List.length_zipIdx, totalTokens_perm hkept,
      hkept.length_eq]
    exact haffords.fits

variable [OrderBot κ] {order : IterationOrder}

theorem grounded_candidateReads {retrieved : List (RetrievedChunk κ)}
    (h : ∀ rc ∈ retrieved, ReadLive db rc.chunkId rc.sourceId rc.locator rc.text)
    {c : Candidate κ} (hc : c ∈ candidateReads db order retrieved) :
    ReadLive db c.chunkId c.sourceId c.locator c.text := by
  unfold candidateReads at hc
  cases List.mem_append.mp hc with
  | inr hc =>
    obtain ⟨rc, hrc, rfl⟩ := List.mem_map.mp hc
    exact h rc (List.mem_filter.mp hrc).1
  | inl hc =>
    obtain ⟨g, hg, hc⟩ := List.mem_flatMap.mp hc
    unfold groupOf at hc
    split at hc
    · split at hc
      · rename_i parent hparent
        rw [List.mem_singleton] at hc
        subst hc
        obtain ⟨n, hmem, hlive⟩ := mem_fetched_live (List.mem_of_find?_eq_some hparent)
        exact grounded_row (.parents n) trivial hmem hlive
      · cases hc
    · obtain ⟨rc, hrc, rfl⟩ := List.mem_map.mp hc
      rw [(order.perm _).mem_iff, byParent_eq] at hg
      obtain ⟨pid, -, rfl⟩ := List.mem_map.mp hg
      exact h rc (List.mem_filter.mp hrc).1

end Fused

section Unchanged

/-- Two lists of the same entries, of which one at most is looked for. -/
theorem find?_congr_of_unique {α : Type} {l m : List α} {p : α → Bool}
    (hmem : ∀ x, p x = true → (x ∈ l ↔ x ∈ m))
    (hunique : ∀ x ∈ l, ∀ y ∈ l, p x = true → p y = true → x = y) : l.find? p = m.find? p := by
  cases hl : l.find? p with
  | none =>
    rw [eq_comm, List.find?_eq_none]
    intro x hx hp
    exact List.find?_eq_none.mp hl x ((hmem x hp).mpr hx) hp
  | some x =>
    have hp := List.find?_some hl
    have hx := List.mem_of_find?_eq_some hl
    obtain ⟨y, hy⟩ := Option.isSome_iff_exists.mp
      (List.find?_isSome.mpr ⟨x, (hmem x hp).mp hx, hp⟩)
    have hpy := List.find?_some hy
    rw [hy, hunique x hx y ((hmem y hpy).mpr (List.mem_of_find?_eq_some hy)) hp hpy]

variable {c : Corpus} {read : Nat → SearchRead} {ids : List String}

theorem fetchBatched_const {α : Type} (rowsFor : Corpus → List String → List α) :
    fetchBatched (fun _ => c) read rowsFor ids =
      (batches (BIND_BATCH - 1) ids).flatMap (rowsFor c) := by
  unfold fetchBatched
  conv_rhs => rw [← List.zipIdx_map_fst 0 (batches (BIND_BATCH - 1) ids), List.flatMap_map]

/-- A row is fetched in the batch of its id. -/
theorem find?_fetched (ids : List String) (p : ChunkRow → Bool) (id : String) :
    ((batches (BIND_BATCH - 1) ids).flatMap fun b =>
      c.chunks.filter fun r => b.contains r.id && p r).find? (fun r => r.id = id) =
      (c.chunks.filter fun r => ids.contains r.id && p r).find? fun r => r.id = id := by
  refine find?_congr_of_unique (fun r _ => ?_) fun r hr s hs hrid hsid => ?_
  · rw [List.mem_flatMap]
    simp only [List.mem_filter, Bool.and_eq_true, List.contains_iff_mem]
    constructor
    · rintro ⟨b, hb, hr, hid, hp⟩
      exact ⟨hr, mem_iff_mem_batch.mpr ⟨b, hb, hid⟩, hp⟩
    · rintro ⟨hr, hid, hp⟩
      obtain ⟨b, hb, hid⟩ := mem_iff_mem_batch.mp hid
      exact ⟨b, hb, hr, hid, hp⟩
  · obtain ⟨b, -, hr⟩ := List.mem_flatMap.mp hr
    obtain ⟨b', -, hs⟩ := List.mem_flatMap.mp hs
    refine c.row_unique (List.mem_filter.mp hr).1 (List.mem_filter.mp hs).1 ?_
    rw [of_decide_eq_true hrid, of_decide_eq_true hsid]

theorem find?_liveRows_fetched (id : String) :
    (fetchBatched (fun _ => c) read (fun c => c.liveRows) ids).find? (fun r => r.id = id) =
      (c.liveRows ids).find? fun r => r.id = id := by
  rw [fetchBatched_const]
  exact find?_fetched ids (fun r => c.live r.sourceId) id

theorem fetchTexts_const (id : String) :
    fetchTexts (fun _ => c) read ids id = hydrateTextsMap c.toNotebook ids id := by
  have hfound := find?_fetched (c := c) ids (fun _ => true) id
  simp only [Bool.and_true] at hfound
  unfold fetchTexts hydrateTextsMap
  rw [fetchBatched_const]
  unfold Corpus.textRows
  rw [← List.map_flatMap, List.find?_map, Option.map_map]
  refine (congrArg (Option.map ChunkRow.text) hfound).trans ?_
  rw [List.find?_filter]
  congr 2
  funext r
  simp [Bool.and_comm]

variable {κ : Type} {graphConf : String → Option κ}

/-- The loop only looks up rows by their ids. -/
theorem hydrateLoop_congr {text : String → Option Str} {hits : List (RetrievalHit κ)}
    {rows rows' : List ChunkRow}
    (h : ∀ id, rows.find? (fun r => r.id = id) = rows'.find? fun r => r.id = id) :
    hydrateLoop graphConf text hits rows = hydrateLoop graphConf text hits rows' := by
  induction hits generalizing rows rows' with
  | nil => rfl
  | cons hit hits ih =>
    rw [hydrateLoop, hydrateLoop, h hit.chunkId]
    have hrest : hydrateLoop graphConf text hits (rows.filter fun m => m.id ≠ hit.chunkId) =
        hydrateLoop graphConf text hits (rows'.filter fun m => m.id ≠ hit.chunkId) := by
      refine ih fun id => ?_
      by_cases hid : id = hit.chunkId
      · have hnone : ∀ l : List ChunkRow,
            (l.filter fun m => m.id ≠ hit.chunkId).find? (fun r => r.id = id) = none := by
          intro l
          rw [List.find?_eq_none]
          intro r hr hrid
          have hne := (List.mem_filter.mp hr).2
          rw [of_decide_eq_true hrid, hid] at hne
          exact absurd hne (by simp)
        rw [hnone, hnone]
      · have hsame : ∀ l : List ChunkRow,
            (l.filter fun m => m.id ≠ hit.chunkId).find? (fun r => r.id = id) =
              l.find? fun r => r.id = id := by
          intro l
          rw [List.find?_filter]
          congr 1
          funext r
          by_cases hr : r.id = id
          · simp [hr, hid]
          · simp [hr]
        rw [hsame, hsame, h id]
    cases rows'.find? fun m => m.id = hit.chunkId with
    | none => exact ih h
    | some m => exact congrArg (_ :: ·) hrest

theorem hydrateReads_const (hits : List (RetrievalHit κ)) (prehydrated : String → Option Str) :
    hydrateReads (fun _ => c) hits graphConf prehydrated =
      hydrateRetrieved c.toNotebook hits graphConf prehydrated := by
  have hany : ∀ id, ((fetchBatched (fun _ => c) .chunkMeta (fun c => c.liveRows)
      (hits.map RetrievalHit.chunkId)).any fun m => m.id = id) =
        (c.liveRows (hits.map RetrievalHit.chunkId)).any fun m => m.id = id := by
    intro id
    rw [← List.isSome_find?, ← List.isSome_find?, find?_liveRows_fetched]
  unfold hydrateReads hydrateRetrieved
  simp only [hany, fetchTexts_const]
  exact hydrateLoop_congr find?_liveRows_fetched

variable [LinearOrder κ] [OrderBot κ] {order : IterationOrder}

theorem parentChildCounts_const {pid : String} (h : pid ∈ ids) :
    parentChildCounts (fun _ => c) ids pid = parentChildCount c.toNotebook pid := by
  unfold parentChildCounts
  rw [fetchBatched_const, List.flatMap_def, ← List.map_flatten, flatten_batches, List.find?_map,
    Option.map_map]
  obtain ⟨found, hfound⟩ := Option.isSome_iff_exists.mp (List.find?_isSome.mpr
    ⟨pid, h, decide_eq_true (p := pid = pid) rfl⟩ : (ids.find? fun q => q = pid).isSome)
  have hsome : ids.find? ((fun p : String × Nat => decide (p.1 = pid)) ∘
      fun pid => (pid, parentChildCount c.toNotebook pid)) = some found := hfound
  have hid : found = pid := by simpa using List.find?_some hfound
  rw [hsome, hid]
  rfl

/-- Where nothing is written between the reads, they yield what one look at the rows does. -/
theorem candidateReads_const (retrieved : List (RetrievedChunk κ)) :
    candidateReads (fun _ => c) order retrieved = buildCandidates order c.toNotebook
      (byParent retrieved) (retrieved.filter fun rc => rc.parentId.isNone) := by
  unfold candidateReads buildCandidates
  dsimp only
  congr 1
  generalize byParent retrieved = groups
  have hcount : ∀ g ∈ order.arrange groups, parentChildCounts (fun _ => c)
      ((order.arrange groups).map Prod.fst) g.1 = parentChildCount c.toNotebook g.1 := fun g hg =>
    parentChildCounts_const (List.mem_map_of_mem hg)
  refine List.flatMap_congr fun g hg => ?_
  have hmerge : (order.arrange groups).filter (fun g => shouldMerge g.2.length
      (parentChildCounts (fun _ => c) ((order.arrange groups).map Prod.fst) g.1)) =
        (order.arrange groups).filter fun g =>
          shouldMerge g.2.length (parentChildCount c.toNotebook g.1) :=
    List.filter_congr fun g hg => by rw [hcount g hg]
  unfold groupOf groupCandidates loadParents
  rw [hcount g hg, hmerge, find?_liveRows_fetched]
  -- the parents that are merged are listed in another order
  rewrite [find?_congr_of_unique (m := c.liveRows ((groups.filter fun g =>
    shouldMerge g.2.length (parentChildCount c.toNotebook g.1)).map Prod.fst))]
  · rfl
  · intro r _
    rw [mem_liveRows, mem_liveRows, (((order.perm groups).filter _).map Prod.fst).mem_iff]
  · intro r hr s hs hrid hsid
    refine c.row_unique (mem_liveRows.mp hr).1 (mem_liveRows.mp hs).1 ?_
    rw [of_decide_eq_true hrid, of_decide_eq_true hsid]

theorem assembleReads_const (hits : List (RetrievalHit κ)) (sourceRank : String → Option Nat)
    (tier2Cap : Nat) (prehydrated : String → Option Str) :
    assembleReads (fun _ => c) order hits graphConf sourceRank tier2Cap prehydrated =
      assembleTier2 order c.toNotebook hits graphConf sourceRank tier2Cap prehydrated := by
  unfold assembleReads
  rw [hydrateReads_const, candidateReads_const]
  rfl

end Unchanged

section Search

variable {δ : Type} [LinearOrder δ] {e : SearchSurroundings δ} {args : SearchArgs} {db : Readings}

theorem meets_searchFiltered {table : Option (VectorQuery δ)} (k : Nat) (sourceIds : List String) :
    Meets (searchFiltered table args.coord args.queryLen k sourceIds) (fun _ => True)
      (SearchFailure e args) := by
  by_cases hdim : args.queryLen ≠ args.coord.dim
  · rw [searchFiltered_dim_ne hdim]
    exact .dimension hdim
  · unfold searchFiltered search queryHits
    simp only [if_neg hdim]
    cases table with
    | none => split <;> exact trivial
    | some t => split <;> exact trivial

theorem meets_denseSearchPrefiltered {table : Option (VectorQuery δ)} (overfetch : Nat)
    (sourceIds : List String) :
    Meets (denseSearchPrefiltered table args.coord args.queryLen overfetch sourceIds)
      (fun _ => True) (SearchFailure e args) := by
  unfold denseSearchPrefiltered
  split
  · exact (meets_searchFiltered _ _).bind fun _ _ _ => trivial
  · refine (meets_foldlM (I := fun _ _ _ => True) _ trivial fun _ _ _ _ _ _ _ => ?_).bind
      fun _ _ _ => trivial
    exact (meets_searchFiltered _ _).bind fun _ _ _ => trivial

theorem meets_graphPairs (overfetch : Nat) :
    Meets (graphPairs e args overfetch) (fun _ => True) (SearchFailure e args) := by
  unfold graphPairs
  split
  · exact trivial
  · rename_i g hg
    cases hr : g.resolution with
    | error err => exact .seeds hg hr
    | ok resolution =>
      show Meets (if _ then _ else _) _ _
      split
      · cases hc : g.compose resolution.seeds overfetch with
        | error err => exact .graph hg _ _ hc
        | ok found => exact trivial
      · exact trivial

theorem meets_lexicalIds (overfetch : Nat) :
    Meets (lexicalIds e args overfetch) (fun _ => True) (SearchFailure e args) := by
  unfold lexicalIds
  split
  · cases hb : e.bm25Search overfetch with
    | error err => exact .lexical _ hb
    | ok ids => exact trivial
  · exact trivial

/-- What the units of a search are. -/
structure SearchedWell (e : SearchSurroundings δ) (args : SearchArgs) (db : Readings)
    (out : RouterOutput (WithBot ℚ)) : Prop where
  delivered : Delivered db (out.tier.cost e.tokenizer) ((tierCaps e args).of out.tier) out.units
  total : out.totalTokens = (out.units.map fun u => estimateTokens u.text).sum
  scope : out.tier ≠ .tier2 → ∀ u ∈ out.units, u.sourceId ∈
    (resolveSelectedSources (db .selectedSources) args.coord.notebook).map Prod.fst

theorem meets_searchTier2 (sourceIds : List String) (sourceRank : String → Option Nat) :
    Meets (searchTier2 e args db sourceIds sourceRank (tierCaps e args).tier2Cap)
      (SearchedWell e args db) (SearchFailure e args) := by
  unfold searchTier2
  refine (meets_denseSearchPrefiltered _ _).bind fun denseIds _ _ => ?_
  refine (meets_lexicalIds _).bind fun bm25Ids _ _ => ?_
  refine (meets_graphPairs _).bind fun pairs _ _ => ?_
  refine ⟨delivered_trimAndOrder (fun c hc => ?_) _ _, rfl, fun hne => absurd rfl hne⟩
  have hpre := textsRead_fuseAndRerank db e.order args.rerankerEnabled e.rerank
    (liveChunkIds (db .denseLive) denseIds) bm25Ids
    (liveChunkIds (db .graphLive) (pairs.map Prod.fst)) args.pool
  exact grounded_candidateReads (fun rc hrc => grounded_hydrateReads hpre hrc) hc

theorem meets_tier1Confirmed (sourceIds : List String) (totalSum tier1Cap : Nat) :
    Meets (tier1Confirmed e db sourceIds totalSum tier1Cap) (fun _ => True)
      (SearchFailure e args) := by
  unfold tier1Confirmed
  generalize estimateWithinMargin totalSum tier1Cap = near
  cases near with
  | false => exact trivial
  | true =>
    cases htk : e.tokenizer with
    | none => exact trivial
    | some tk =>
      have hsum : Meets (exactTier1Sum db tk sourceIds) (fun _ => True) (SearchFailure e args) := by
        refine meets_foldlM (I := fun _ _ _ => True) _ trivial fun _ sourceId _ _ _ _ _ => ?_
        cases ht : tk ((db (.exactText sourceId)).parentText sourceId) with
        | error err => exact .tokenizer htk _ ht
        | ok n => exact trivial
      exact hsum.bind fun _ _ _ => trivial

theorem meets_corpusFits (caps : TierCap) (sources : List (String × Option Int)) :
    Meets (corpusFits e db caps sources) (fun _ => True) (SearchFailure e args) := by
  unfold corpusFits
  generalize anyOversized caps.tier1Cap sources = oversized
  dsimp only
  split
  · exact meets_tier1Confirmed (sources.map Prod.fst) (tier1Sum db sources) caps.tier1Cap
  · exact trivial

end Search

end LensLM
