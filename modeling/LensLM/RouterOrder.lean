import LensLM.RouterUnits

/-!
# The units of the second tier and their order

The best units are kept while the budget lasts, and what is kept is sorted anew by the place in its
source.
-/

namespace LensLM

open ByteText Ranking

set_option autoImplicit false

variable {κ : Type}

section Budget

@[simp] theorem totalTokens_nil : totalTokens ([] : List (Candidate κ)) = 0 := rfl

@[simp] theorem totalTokens_cons (c : Candidate κ) (cs : List (Candidate κ)) :
    totalTokens (c :: cs) = estimateTokens c.text + totalTokens cs := by
  simp [totalTokens]

@[simp] theorem totalTokens_append (cs ds : List (Candidate κ)) :
    totalTokens (cs ++ ds) = totalTokens cs + totalTokens ds := by
  simp [totalTokens]

theorem totalTokens_perm {cs ds : List (Candidate κ)} (h : cs.Perm ds) :
    totalTokens cs = totalTokens ds := (h.map _).sum_nat

/-- The part of a ranking that the budget takes: as much as fits, but one unit at least. -/
structure Affords (cap : Nat) (kept dropped : List (Candidate κ)) : Prop where
  fits : totalTokens kept ≤ cap ∨ kept.length = 1
  full : ∀ d ∈ dropped.head?, kept ≠ [] ∧ cap < totalTokens kept + estimateTokens d.text

/-- Once something is chosen, the loop goes on while the next candidate fits. -/
theorem takeBudget_chosen (cap : Nat) (l : List (Candidate κ)) (running : Nat)
    {chosen : List (Candidate κ)} (hchosen : chosen ≠ []) :
    ∃ taken dropped, l = taken ++ dropped ∧ takeBudget cap l running chosen = chosen ++ taken ∧
      (taken = [] ∨ running + totalTokens taken ≤ cap) ∧
      ∀ d ∈ dropped.head?, cap < running + totalTokens taken + estimateTokens d.text := by
  induction l generalizing running chosen with
  | nil => exact ⟨[], [], rfl, (List.append_nil _).symm, .inl rfl, fun d hd => by cases hd⟩
  | cons c rest ih =>
    rw [takeBudget]
    by_cases hover : cap < running + estimateTokens c.text
    · rw [if_pos ⟨hover, hchosen⟩]
      refine ⟨[], c :: rest, rfl, (List.append_nil _).symm, .inl rfl, ?_⟩
      intro d hd
      cases hd
      exact hover
    · rw [if_neg fun h => hover h.1]
      obtain ⟨taken, dropped, hrest, htaken, hfits, hfull⟩ :=
        ih (running + estimateTokens c.text) (List.concat_ne_nil c chosen)
      refine ⟨c :: taken, dropped, congrArg (c :: ·) hrest, ?_, .inr ?_, ?_⟩
      · rw [htaken, List.append_assoc]
        rfl
      · rw [totalTokens_cons]
        rcases hfits with rfl | hfits
        · rw [totalTokens_nil]
          omega
        · omega
      · intro d hd
        have := hfull d hd
        rw [totalTokens_cons]
        omega

theorem takeBudget_affords (cap : Nat) (l : List (Candidate κ)) :
    ∃ dropped, l = takeBudget cap l 0 [] ++ dropped ∧ Affords cap (takeBudget cap l 0 []) dropped := by
  cases l with
  | nil => exact ⟨[], rfl, .inl (Nat.zero_le cap), fun d hd => by cases hd⟩
  | cons c rest =>
    have hfirst : takeBudget cap (c :: rest) 0 [] =
        takeBudget cap rest (0 + estimateTokens c.text) ([] ++ [c]) := by
      rw [takeBudget, if_neg fun h => h.2 rfl]
    obtain ⟨taken, dropped, hrest, htaken, hfits, hfull⟩ :=
      takeBudget_chosen cap rest (0 + estimateTokens c.text) (List.concat_ne_nil c [])
    rw [hfirst, htaken]
    refine ⟨dropped, congrArg (c :: ·) hrest, ?_, ?_⟩
    · rcases hfits with rfl | hfits
      · exact .inr rfl
      · left
        rw [totalTokens_append, List.nil_append, totalTokens_cons, totalTokens_nil]
        omega
    · intro d hd
      have := hfull d hd
      refine ⟨List.cons_ne_nil c taken, ?_⟩
      rw [totalTokens_append, List.nil_append, totalTokens_cons, totalTokens_nil]
      omega

theorem map_orderIndex (cs : List (Candidate κ)) :
    (cs.zipIdx.map fun x => toUnit x.1 x.2).map ContextUnit.orderIndex = List.range cs.length := by
  rw [List.map_map]
  exact (List.zipIdx_map_snd 0 cs).trans List.range_eq_range'.symm

end Budget

variable {candidates : List (Candidate κ)} {sourceRank : String → Option Nat} {cap : Nat}

section Places

/-- The units of one source come in nondecreasing order of their first tokens. -/
def InReadingOrder (cs : List (Candidate κ)) : Prop :=
  cs.Pairwise fun c d => c.sourceId = d.sourceId → c.tokenStart ≤ d.tokenStart

theorem docOrderKey_lt {c d : Candidate κ} (hsource : c.sourceId = d.sourceId)
    (hlevel : c.level < d.level) : docOrderKey sourceRank c < docOrderKey sourceRank d := by
  unfold docOrderKey
  rw [hsource]
  exact Prod.Lex.toLex_lt_toLex.mpr (.inr ⟨rfl, Prod.Lex.toLex_lt_toLex.mpr (.inl hlevel)⟩)

theorem docOrderKey_le {c d : Candidate κ} (hsource : c.sourceId = d.sourceId)
    (h : docOrderKey sourceRank c ≤ docOrderKey sourceRank d) :
    c.level < d.level ∨ (c.level = d.level ∧ c.tokenStart ≤ d.tokenStart) := by
  unfold docOrderKey at h
  rw [hsource] at h
  rcases Prod.Lex.toLex_le_toLex.mp h with hlt | ⟨_, hle⟩
  · exact absurd hlt (lt_irrefl _)
  · exact Prod.Lex.toLex_le_toLex.mp hle

end Places

variable [LinearOrder κ]

section Survivors

abbrev RankKey (κ : Type) := κᵒᵈ ×ₗ DocOrderKey

/-- A higher score ranks first, and of equal scores the earlier place. -/
def rankKey (sourceRank : String → Option Nat) (c : Candidate κ) : RankKey κ :=
  toLex (OrderDual.toDual c.score, docOrderKey sourceRank c)

def ranking (candidates : List (Candidate κ)) (sourceRank : String → Option Nat) :
    List (Candidate κ) := sortByKey (rankKey sourceRank) candidates

def survivors (candidates : List (Candidate κ)) (sourceRank : String → Option Nat) (cap : Nat) :
    List (Candidate κ) :=
  if totalTokens candidates ≤ cap then candidates
  else takeBudget cap (ranking candidates sourceRank) 0 []

/-- The candidates of the units, in the order of the units. -/
def presented (candidates : List (Candidate κ)) (sourceRank : String → Option Nat) (cap : Nat) :
    List (Candidate κ) :=
  sortByKey (docOrderKey sourceRank) (survivors candidates sourceRank cap)

theorem trimAndOrder_eq (candidates : List (Candidate κ)) (sourceRank : String → Option Nat)
    (cap : Nat) : trimAndOrder candidates sourceRank cap =
      (presented candidates sourceRank cap).zipIdx.map fun x => toUnit x.1 x.2 := rfl

theorem ranking_perm : (ranking candidates sourceRank).Perm candidates := sortByKey_perm _ _

/-- What survives is the part of the ranking that the budget takes. -/
theorem survivors_affords (candidates : List (Candidate κ)) (sourceRank : String → Option Nat)
    (cap : Nat) : ∃ kept dropped, ranking candidates sourceRank = kept ++ dropped ∧
      (survivors candidates sourceRank cap).Perm kept ∧ Affords cap kept dropped := by
  unfold survivors
  split
  · rename_i hfits
    refine ⟨ranking candidates sourceRank, [], (List.append_nil _).symm, ranking_perm.symm,
      .inl ?_, fun d hd => by cases hd⟩
    rw [totalTokens_perm ranking_perm]
    exact hfits
  · obtain ⟨dropped, hrank, haffords⟩ := takeBudget_affords cap (ranking candidates sourceRank)
    exact ⟨_, dropped, hrank, .refl _, haffords⟩

theorem presented_perm : (presented candidates sourceRank cap).Perm
    (survivors candidates sourceRank cap) := sortByKey_perm _ _

/-- The order of the candidates is lost in either sort. -/
theorem trimAndOrder_of_perm {other : List (Candidate κ)} (h : candidates.Perm other)
    (hdistinct : (candidates.map (docOrderKey sourceRank)).Nodup ∨
      (cap < totalTokens candidates ∧ (candidates.map (rankKey sourceRank)).Nodup)) :
    trimAndOrder other sourceRank cap = trimAndOrder candidates sourceRank cap := by
  have htotal : totalTokens other = totalTokens candidates := totalTokens_perm h.symm
  have hpresented : presented other sourceRank cap = presented candidates sourceRank cap := by
    have hrank : (candidates.map (rankKey sourceRank)).Nodup →
        ranking other sourceRank = ranking candidates sourceRank := fun hnodup =>
      (sortByKey_eq_of_perm h hnodup).symm
    unfold presented survivors
    rw [htotal]
    rcases hdistinct with hkeys | ⟨hover, hnodup⟩
    · split
      · exact (sortByKey_eq_of_perm h hkeys).symm
      · rw [hrank]
        apply List.Nodup.of_map fun k : RankKey κ => (ofLex k).2
        rw [List.map_map]
        exact hkeys
    · rw [if_neg (Nat.not_le_of_lt hover), if_neg (Nat.not_le_of_lt hover), hrank hnodup]
  rw [trimAndOrder_eq, trimAndOrder_eq, hpresented]

end Survivors

section Greedy

/-- The kept units are those that rank first while the budget lasts, numbered in order; the order
of the candidates does not matter where their places differ, or where the budget is exceeded and
their ranks differ. -/
theorem trimAndOrder_greedy (candidates : List (Candidate κ)) (sourceRank : String → Option Nat)
    (cap : Nat) :
    (∃ kept dropped, ranking candidates sourceRank = kept ++ dropped ∧
      (presented candidates sourceRank cap).Perm kept ∧
      (totalTokens kept ≤ cap ∨ kept.length = 1) ∧
      (∀ d ∈ dropped.head?, kept ≠ [] ∧ cap < totalTokens kept + estimateTokens d.text) ∧
      ∀ c ∈ kept, ∀ d ∈ dropped, rankKey sourceRank c ≤ rankKey sourceRank d) ∧
    trimAndOrder candidates sourceRank cap =
      (presented candidates sourceRank cap).zipIdx.map (fun x => toUnit x.1 x.2) ∧
    (trimAndOrder candidates sourceRank cap).map ContextUnit.orderIndex =
      List.range (presented candidates sourceRank cap).length ∧
    ∀ other, candidates.Perm other →
      (candidates.map (docOrderKey sourceRank)).Nodup ∨
        (cap < totalTokens candidates ∧ (candidates.map (rankKey sourceRank)).Nodup) →
      trimAndOrder other sourceRank cap = trimAndOrder candidates sourceRank cap := by
  refine ⟨?_, trimAndOrder_eq .., map_orderIndex _, fun other => trimAndOrder_of_perm⟩
  obtain ⟨kept, dropped, hrank, hperm, haffords⟩ := survivors_affords candidates sourceRank cap
  refine ⟨kept, dropped, hrank, presented_perm.trans hperm, haffords.fits, haffords.full, ?_⟩
  have hsorted : (kept ++ dropped).Pairwise fun c d => rankKey sourceRank c ≤ rankKey sourceRank d := by
    rw [← hrank]
    exact pairwise_sortByKey _ _
  exact (List.pairwise_append.mp hsorted).2.2

def twinUnit (chunkId : String) (score : Nat) : Candidate Nat where
  chunkId := chunkId
  sourceId := "s"
  parentId := none
  text := "text".toList
  locator := none
  provenance := { source := .dense, graphConfidence := none }
  score := score
  level := 1
  tokenStart := 0

/-- Two units of one place within the budget come in the order in which they were listed. -/
theorem twinUnits_keep_their_order :
    ([twinUnit "a" 2, twinUnit "b" 1].map (rankKey fun _ => some 0)).Nodup ∧
    trimAndOrder [twinUnit "b" 1, twinUnit "a" 2] (fun _ => some 0) 100 ≠
      trimAndOrder [twinUnit "a" 2, twinUnit "b" 1] (fun _ => some 0) 100 := by
  decide +kernel

end Greedy

section Reading

/-- The unit fits the budget with all that rank before it, or ranks first. -/
def Kept (candidates : List (Candidate κ)) (sourceRank : String → Option Nat) (cap : Nat)
    (c : Candidate κ) : Prop :=
  ∃ n, c ∈ (ranking candidates sourceRank).take n ∧
    (n = 1 ∨ totalTokens ((ranking candidates sourceRank).take n) ≤ cap)

theorem kept_iff {kept dropped : List (Candidate κ)} {c : Candidate κ}
    (hrank : ranking candidates sourceRank = kept ++ dropped) (h : Affords cap kept dropped) :
    Kept candidates sourceRank cap c ↔ c ∈ kept := by
  unfold Kept
  rw [hrank]
  constructor
  · rintro ⟨n, hmem, hn⟩
    by_cases hle : n ≤ kept.length
    · rw [List.take_append_of_le_length hle] at hmem
      exact List.mem_of_mem_take hmem
    · cases dropped with
      | nil =>
        rw [List.append_nil] at hmem
        exact List.mem_of_mem_take hmem
      | cons d dropped =>
        -- the first unit that was dropped would have to fit as well
        exfalso
        obtain ⟨hne, hover⟩ := h.full d rfl
        have hpos := List.length_pos_iff.mpr hne
        obtain ⟨m, hm⟩ : ∃ m, n = kept.length + (m + 1) := ⟨n - kept.length - 1, by omega⟩
        have htake : (kept ++ d :: dropped).take n = kept ++ d :: dropped.take m := by
          rw [hm, List.take_length_add_append, List.take_succ_cons]
        rw [htake, totalTokens_append, totalTokens_cons] at hn
        omega
  · intro hc
    refine ⟨kept.length, ?_, ?_⟩
    · rw [List.take_left]
      exact hc
    · rw [List.take_left]
      exact h.fits.symm

/-- The units of each source are in reading order exactly if no unit is kept of a lower level
that starts after a kept one of a higher level. -/
theorem trimAndOrder_reading_iff (candidates : List (Candidate κ))
    (sourceRank : String → Option Nat) (cap : Nat) :
    trimAndOrder candidates sourceRank cap =
      (presented candidates sourceRank cap).zipIdx.map (fun x => toUnit x.1 x.2) ∧
    (InReadingOrder (presented candidates sourceRank cap) ↔
      ∀ c d, Kept candidates sourceRank cap c → Kept candidates sourceRank cap d →
        c.sourceId = d.sourceId → c.level < d.level → c.tokenStart ≤ d.tokenStart) := by
  obtain ⟨kept, dropped, hrank, hperm, haffords⟩ := survivors_affords candidates sourceRank cap
  have hmem : ∀ c, Kept candidates sourceRank cap c ↔ c ∈ presented candidates sourceRank cap := by
    intro c
    rw [kept_iff hrank haffords, (presented_perm.trans hperm).mem_iff]
  have hsorted : (presented candidates sourceRank cap).Pairwise fun c d =>
      docOrderKey sourceRank c ≤ docOrderKey sourceRank d := pairwise_sortByKey _ _
  refine ⟨trimAndOrder_eq .., ?_, ?_⟩
  · intro hreading c d hc hd hsource hlevel
    have hne : c ≠ d := by
      rintro rfl
      exact lt_irrefl _ hlevel
    obtain ⟨i, hi, rfl⟩ := List.mem_iff_getElem.mp ((hmem c).mp hc)
    obtain ⟨j, hj, rfl⟩ := List.mem_iff_getElem.mp ((hmem d).mp hd)
    rcases Nat.lt_trichotomy i j with hij | rfl | hji
    · exact List.pairwise_iff_getElem.mp hreading i j hi hj hij hsource
    · exact absurd rfl hne
    · -- the key of the later unit would be the smaller one
      have hle := List.pairwise_iff_getElem.mp hsorted j i hj hi hji
      exact absurd hle (not_le_of_gt (docOrderKey_lt hsource hlevel))
  · intro hlevels
    apply List.Pairwise.imp_of_mem _ hsorted
    intro c d hc hd hkey hsource
    rcases docOrderKey_le hsource hkey with hlevel | ⟨_, hstart⟩
    · exact hlevels c d ((hmem c).mpr hc) ((hmem d).mpr hd) hsource hlevel
    · exact hstart

def leveledUnit (chunkId : String) (level tokenStart : Int) : Candidate Nat where
  chunkId := chunkId
  sourceId := "s"
  parentId := none
  text := "text".toList
  locator := none
  provenance := { source := .dense, graphConfidence := none }
  score := 1
  level := level
  tokenStart := tokenStart

/-- A merged parent late in the source comes before a child from its beginning. -/
theorem lateParent_comes_first : ¬ InReadingOrder
    (presented [leveledUnit "parent" 0 900, leveledUnit "child" 1 0] (fun _ => some 0) 100) := by
  intro h
  have hpresented : presented [leveledUnit "parent" 0 900, leveledUnit "child" 1 0]
      (fun _ => some 0) 100 = [leveledUnit "parent" 0 900, leveledUnit "child" 1 0] := by
    decide +kernel
  rw [hpresented] at h
  have hle := List.rel_of_pairwise_cons h List.mem_cons_self rfl
  exact absurd hle (by decide)

end Reading

end LensLM
