import LensLM.EntityGraph
import LensLM.Lib.Slots
import Mathlib.Data.List.Nodup
import Mathlib.Data.String.Basic
import Mathlib.Tactic.SplitIfs

/-!
# The rows of the entity graph are well formed

Every name has one node, every mention and edge ends at a node, and an edge counts the chunks
in which both of its nodes occur.
-/

namespace LensLM

open ByteText Grouping

set_option autoImplicit false

section Names

variable {host : TextHost} {scope : RowScope}

/-- The ids of a source tell its lower-cased names apart. -/
def NodeIdsInjective (host : TextHost) (sourceId : String) : Prop :=
  ∀ a b k l, nodeId host sourceId a k = nodeId host sourceId b l → a = b

theorem asStr_no_zero (kind : EntityKind) : Char.ofNat 0 ∉ kind.asStr := by
  cases kind <;> decide +kernel

/-- The hashed text tells the names apart, so that a hash without collisions does too. -/
theorem nodeIdsInjective_of_digest (h : Function.Injective host.digest) (sourceId : String) :
    NodeIdsInjective host sourceId := by
  intro a b k l heq
  have htext := List.append_cancel_left (h heq)
  rw [List.cons.injEq] at htext
  -- the kind is what follows the last zero
  rcases List.append_eq_append_iff.mp htext.2 with ⟨c, hb, hc⟩ | ⟨c, ha, hc⟩
  · cases c with
    | nil => rw [hb, List.append_nil]
    | cons z c =>
      rw [List.cons_append, List.cons.injEq] at hc
      exact absurd (hc.2 ▸ List.mem_append_right c List.mem_cons_self) (asStr_no_zero k)
  · cases c with
    | nil => rw [ha, List.append_nil]
    | cons z c =>
      rw [List.cons_append, List.cons.injEq] at hc
      exact absurd (hc.2 ▸ List.mem_append_right c List.mem_cons_self) (asStr_no_zero l)

theorem NodeTable.nodup_names (t : NodeTable host scope) :
    (t.nodes.map fun node => host.toLowercase node.name).Nodup := by
  rw [List.nodup_iff_getElem?_ne_getElem?]
  intro i j hij hj heq
  rw [List.length_map] at hj
  have hi : i < t.nodes.length := by omega
  rw [List.getElem?_map, List.getElem?_map, List.getElem?_eq_getElem hi,
    List.getElem?_eq_getElem hj, Option.map_some, Option.map_some, Option.some.injEq] at heq
  -- the index finds one position for a name
  have hfi := (t.found _ i).mpr ⟨_, List.getElem?_eq_getElem hi, heq⟩
  have hfj := (t.found _ j).mpr ⟨_, List.getElem?_eq_getElem hj, rfl⟩
  rw [hfi, Option.some.injEq] at hfj
  omega

theorem NodeTable.nodup_ids (t : NodeTable host scope)
    (hinj : NodeIdsInjective host scope.sourceId) :
    (t.nodes.map fun node => node.id).Nodup := by
  have hnames := t.nodup_names
  apply (List.Nodup.of_map _ hnames).map_on
  intro x hx y hy hid
  rw [t.ids x hx, t.ids y hy] at hid
  exact List.inj_on_of_nodup_map hnames hx hy (hinj _ _ _ _ hid)

theorem NodeTable.mem_of_find {t : NodeTable host scope} {key : Str} {node : EntityNodeRow}
    (h : t.find key = some node) : node ∈ t.nodes ∧ host.toLowercase node.name = key := by
  unfold NodeTable.find at h
  obtain ⟨i, hi, hnode⟩ := Option.bind_eq_some_iff.mp h
  obtain ⟨node', hnode', hname⟩ := (t.found key i).mp hi
  rw [hnode, Option.some.injEq] at hnode'
  subst hnode'
  exact ⟨List.mem_of_getElem? hnode, hname⟩

theorem NodeTable.find_iff {t : NodeTable host scope} {key : Str} {node : EntityNodeRow} :
    t.find key = some node ↔ node ∈ t.nodes ∧ host.toLowercase node.name = key := by
  constructor
  · exact NodeTable.mem_of_find
  · rintro ⟨hmem, hname⟩
    obtain ⟨i, hi⟩ := List.mem_iff_getElem?.mp hmem
    have hfound := (t.found key i).mpr ⟨node, hi, hname⟩
    unfold NodeTable.find
    rw [hfound]
    exact hi

end Names

section Occurrences

variable {isAlphanumeric : Char → Bool} {chars needle : Str}

/-- The lower-cased name stands somewhere in the lower-cased text as a word. -/
def occursIn (host : TextHost) (chunk : EnrichmentChunk) (node : EntityNodeRow) : Bool :=
  let chars := host.toLowercase chunk.text
  let needle := host.toLowercase node.name
  !needle.isEmpty && (List.range (chars.length + 1)).any fun j =>
    decide (j + needle.length ≤ chars.length) && wordAt host.isAlphanumeric chars needle j

/-- The scan finds an occurrence from `i` on, exactly when there is one. -/
theorem wordOccurrences_ne_nil_iff (hneedle : needle ≠ []) (i : Nat) :
    wordOccurrences isAlphanumeric chars needle hneedle i ≠ [] ↔
      ∃ j, i ≤ j ∧ j + needle.length ≤ chars.length ∧ wordAt isAlphanumeric chars needle j := by
  fun_induction wordOccurrences isAlphanumeric chars needle hneedle i with
  | case1 i hfit hword _ => simp; exact ⟨i, le_refl i, hfit, hword⟩
  | case2 i hfit hword ih =>
    rw [ih]
    constructor
    · rintro ⟨j, hij, hj⟩
      exact ⟨j, by omega, hj⟩
    · rintro ⟨j, hij, hj, hwordj⟩
      have hne : i ≠ j := by
        rintro rfl
        exact hword hwordj
      exact ⟨j, by omega, hj, hwordj⟩
  | case3 i hfit =>
    simp only [ne_eq, not_true_eq_false, false_iff]
    rintro ⟨j, hij, hj, _⟩
    omega

theorem occursIn_iff {host : TextHost} (chunk : EnrichmentChunk) {node : EntityNodeRow}
    (hname : host.toLowercase node.name ≠ []) : occursIn host chunk node = true ↔
      findWordBoundaryOccurrences host.isAlphanumeric (host.toLowercase chunk.text)
        (host.toLowercase node.name) ≠ [] := by
  unfold findWordBoundaryOccurrences
  rw [dif_neg hname, wordOccurrences_ne_nil_iff]
  simp only [occursIn, Bool.and_eq_true, Bool.not_eq_true', List.isEmpty_eq_false_iff,
    List.any_eq_true, List.mem_range, decide_eq_true_eq]
  constructor
  · rintro ⟨_, j, _, hfit, hword⟩
    exact ⟨j, Nat.zero_le j, hfit, hword⟩
  · rintro ⟨j, _, hfit, hword⟩
    exact ⟨hname, j, by omega, hfit, hword⟩

end Occurrences

section Pairs

theorem pairsOf_map {α β : Type} (f : α → β) (l : List α) :
    pairsOf (l.map f) = (pairsOf l).map fun p => (f p.1, f p.2) := by
  induction l with
  | nil => rfl
  | cons x l ih => simp [pairsOf, ih]

theorem canonicalPair_eq_iff {x y a b : String} (h : x ≠ y) :
    canonicalPair x y = (a, b) ↔ a < b ∧ ((x = a ∧ y = b) ∨ (x = b ∧ y = a)) := by
  unfold canonicalPair
  split
  · rename_i hle
    have hlt : x < y := lt_of_le_of_ne hle h
    rw [Prod.mk.injEq]
    constructor
    · rintro ⟨rfl, rfl⟩
      exact ⟨hlt, .inl ⟨rfl, rfl⟩⟩
    · rintro ⟨hab, h | ⟨rfl, rfl⟩⟩
      · exact h
      · exact absurd hlt (lt_asymm hab)
  · rename_i hle
    have hlt : y < x := not_le.mp hle
    rw [Prod.mk.injEq]
    constructor
    · rintro ⟨rfl, rfl⟩
      exact ⟨hlt, .inr ⟨rfl, rfl⟩⟩
    · rintro ⟨hab, ⟨rfl, rfl⟩ | ⟨rfl, rfl⟩⟩
      · exact absurd hlt (lt_asymm hab)
      · exact ⟨rfl, rfl⟩

theorem countP_eq_of_nodup {l : List String} (h : l.Nodup) (b : String) :
    l.countP (fun y => y = b) = if b ∈ l then 1 else 0 := by
  have hcount : l.countP (fun y => y = b) = l.count b := by
    unfold List.count
    apply List.countP_congr
    intro y _
    simp
  rw [hcount]
  exact h.count

/-- Among distinct ids an ordered pair is met once. -/
theorem countP_pairsOf {l : List String} (h : l.Nodup) (a b : String) :
    (pairsOf l).countP (fun p => canonicalPair p.1 p.2 = (a, b)) =
      if a < b ∧ a ∈ l ∧ b ∈ l then 1 else 0 := by
  induction l with
  | nil => simp [pairsOf]
  | cons x l ih =>
    obtain ⟨hx, hl⟩ := List.nodup_cons.mp h
    rw [pairsOf, List.countP_append, List.countP_map, ih hl]
    have hrow : ∀ y ∈ l, canonicalPair x y = (a, b) ↔
        a < b ∧ ((x = a ∧ y = b) ∨ (x = b ∧ y = a)) := by
      intro y hy
      exact canonicalPair_eq_iff fun h => hx (h ▸ hy)
    -- the pairs of the first id count the other end of the pair
    have hfirst : ∀ z, (∀ y ∈ l, canonicalPair x y = (a, b) ↔ y = z) →
        l.countP ((fun p : String × String => decide (canonicalPair p.1 p.2 = (a, b))) ∘ (x, ·)) =
          if z ∈ l then 1 else 0 := by
      intro z hz
      rw [← countP_eq_of_nodup hl z]
      apply List.countP_congr
      intro y hy
      simpa using hz y hy
    by_cases hab : a < b
    · have hne : a ≠ b := ne_of_lt hab
      by_cases hxa : x = a
      · subst hxa
        rw [hfirst b (by intro y hy; rw [hrow y hy]; simp [hab, hne])]
        simp [hab, hx, Ne.symm hne]
      · by_cases hxb : x = b
        · subst hxb
          rw [hfirst a (by intro y hy; rw [hrow y hy]; simp [hab, hxa])]
          simp [hab, hx, hne]
        · have hnone : l.countP
              ((fun p : String × String => decide (canonicalPair p.1 p.2 = (a, b))) ∘ (x, ·)) = 0 := by
            rw [List.countP_eq_zero]
            intro y hy
            simp [hrow y hy, hxa, hxb]
          rw [hnone]
          simp [hab, Ne.symm hxa, Ne.symm hxb]
    · have hnone : l.countP
          ((fun p : String × String => decide (canonicalPair p.1 p.2 = (a, b))) ∘ (x, ·)) = 0 := by
        rw [List.countP_eq_zero]
        intro y hy
        simp [hrow y hy, hab]
      rw [hnone, if_neg (fun h => hab h.1), if_neg (fun h => hab h.1)]

end Pairs

section Pass

variable {host : TextHost} {scope : RowScope} (ids : Nat → String)

/-- The nodes of a chunk, before and after the cap. -/
def presence (host : TextHost) (nodes : List EntityNodeRow) (chunk : EnrichmentChunk) :
    List EntityNodeRow :=
  nodes.filter (occursIn host chunk)

def cappedPresence (host : TextHost) (nodes : List EntityNodeRow) (maxEntitiesPerChunk : Nat)
    (chunk : EnrichmentChunk) : List EntityNodeRow :=
  (presence host nodes chunk).take maxEntitiesPerChunk

/-- Every mention is of one of the nodes. -/
def MentionsOf (nodes : List EntityNodeRow) (ms : List EntityMention) : Prop :=
  ∀ m ∈ ms, ∃ node ∈ nodes, m.entityNodeId = node.id

theorem MentionsOf.pushMention {nodes : List EntityNodeRow} {ms : List EntityMention}
    (h : MentionsOf nodes ms) {node : EntityNodeRow} (hnode : node ∈ nodes)
    (chunk : EnrichmentChunk) (charStart charEnd : Nat) :
    MentionsOf nodes (pushMention scope ids chunk node charStart charEnd ms) := by
  exact Slots.forall_mem_push h ⟨node, hnode, rfl⟩

theorem MentionsOf.scanNode {nodes : List EntityNodeRow} {chunk : EnrichmentChunk}
    {st : List EntityNodeRow × List EntityMention} (h : MentionsOf nodes st.2)
    {node : EntityNodeRow} (hnode : node ∈ nodes) :
    MentionsOf nodes (scanNode host scope ids chunk st node).2 := by
  unfold LensLM.scanNode
  dsimp only
  split
  · exact h
  · apply List.foldlRecOn (motive := MentionsOf nodes) _ _ h
    intro ms hms o _
    exact hms.pushMention ids hnode chunk o.1 o.2

/-- Scanning all nodes collects those that occur in the chunk. -/
theorem foldl_scanNode_fst (chunk : EnrichmentChunk) (nodes : List EntityNodeRow)
    (ms : List EntityMention) :
    (nodes.foldl (scanNode host scope ids chunk) ([], ms)).1 = presence host nodes chunk := by
  have hstep : ∀ st node, (scanNode host scope ids chunk st node).1 =
      st.1 ++ if occursIn host chunk node then [node] else [] := by
    intro st node
    unfold scanNode
    dsimp only
    by_cases hname : host.toLowercase node.name = []
    · rw [if_pos (by simpa using hname)]
      simp [occursIn, hname]
    · have hiff := occursIn_iff chunk hname
      rw [if_neg (by simpa using hname)]
      by_cases hocc : occursIn host chunk node = true
      · rw [if_neg (by simpa using hiff.mp hocc), if_pos hocc]
      · rw [if_pos (by simpa using fun h => hocc (hiff.mpr h)), if_neg hocc, List.append_nil]
  unfold presence
  induction nodes using List.reverseRecOn with
  | nil => rfl
  | append_singleton nodes node ih =>
    rw [List.foldl_concat, hstep, ih, List.filter_append]
    by_cases hocc : occursIn host chunk node = true
    · rw [if_pos hocc, List.filter_cons_of_pos hocc, List.filter_nil]
    · rw [if_neg hocc, List.filter_cons_of_neg hocc, List.filter_nil]

/-- The pairs of nodes of a chunk, with its id. -/
def chunkPairs (host : TextHost) (nodes : List EntityNodeRow) (maxEntitiesPerChunk : Nat)
    (chunk : EnrichmentChunk) : List (String × (EntityNodeRow × EntityNodeRow)) :=
  (pairsOf (cappedPresence host nodes maxEntitiesPerChunk chunk)).map (chunk.id, ·)

def pairKey (p : String × (EntityNodeRow × EntityNodeRow)) : String × String :=
  canonicalPair p.2.1.id p.2.2.id

/-- What the pass has accumulated after some chunks. -/
structure ChunkPass.Sound (t : NodeTable host scope) (maxEntitiesPerChunk : Nat)
    (seen : List EnrichmentChunk) (acc : ChunkPass) : Prop where
  mentions : MentionsOf t.nodes acc.mentions
  pairs : acc.pairs = tally pairKey Prod.fst
    ((seen.filter eligible).flatMap (chunkPairs host t.nodes maxEntitiesPerChunk))
  dropped : acc.dropped = ((seen.filter eligible).map fun chunk =>
    ((presence host t.nodes chunk).drop maxEntitiesPerChunk).length).sum

theorem ChunkPass.Sound.scanChunk {t : NodeTable host scope} {maxEntitiesPerChunk : Nat}
    {seen : List EnrichmentChunk} {acc : ChunkPass} (h : acc.Sound t maxEntitiesPerChunk seen)
    (corefSubs : Nat → Option (List CorefSub)) (chunk : EnrichmentChunk) (i : Nat) :
    (scanChunk host scope ids t corefSubs maxEntitiesPerChunk acc (chunk, i)).Sound t
      maxEntitiesPerChunk (seen ++ [chunk]) := by
  unfold LensLM.scanChunk
  dsimp only
  by_cases helig : eligible chunk = true
  · rw [if_neg (by simp [helig])]
    have hmore : (seen ++ [chunk]).filter eligible = seen.filter eligible ++ [chunk] := by
      rw [List.filter_append, List.filter_cons_of_pos helig, List.filter_nil]
    constructor
    case mentions =>
      have hscan : MentionsOf t.nodes
          (t.nodes.foldl (scanNode host scope ids chunk) ([], acc.mentions)).2 := by
        apply List.foldlRecOn
          (motive := fun st : List EntityNodeRow × List EntityMention => MentionsOf t.nodes st.2)
          _ _ h.mentions
        intro st hst node hnode
        exact hst.scanNode ids hnode
      dsimp only
      split
      · apply List.foldlRecOn (motive := MentionsOf t.nodes) _ _ hscan
        intro ms hms sub _
        unfold corefMention
        split
        · rename_i node hfind
          exact hms.pushMention ids (NodeTable.mem_of_find hfind).1 chunk _ _
        · exact hms
      · exact hscan
    case pairs =>
      dsimp only
      rw [foldl_scanNode_fst, h.pairs, hmore, List.flatMap_append, List.flatMap_singleton]
      unfold tally
      rw [List.foldl_append]
      unfold chunkPairs
      rw [List.foldl_map]
      rfl
    case dropped =>
      dsimp only
      rw [foldl_scanNode_fst, h.dropped, hmore, List.map_append, List.sum_append]
      simp only [List.map_singleton, List.sum_singleton, List.length_drop]
      split
      · rfl
      · omega
  · rw [if_pos (by simpa using helig)]
    have hsame : (seen ++ [chunk]).filter eligible = seen.filter eligible := by
      simp [List.filter_append, helig]
    constructor
    case mentions => exact h.mentions
    case pairs => rw [hsame]; exact h.pairs
    case dropped => rw [hsame]; exact h.dropped

theorem chunkPass_sound (t : NodeTable host scope) (corefSubs : Nat → Option (List CorefSub))
    (maxEntitiesPerChunk : Nat) (chunks : List EnrichmentChunk) :
    (chunks.zipIdx.foldl (scanChunk host scope ids t corefSubs maxEntitiesPerChunk)
      { mentions := [], pairs := [], dropped := 0 }).Sound t maxEntitiesPerChunk chunks := by
  induction chunks using List.reverseRecOn with
  | nil => exact ⟨by simp [MentionsOf], rfl, rfl⟩
  | append_singleton chunks chunk ih =>
    rw [List.zipIdx_append, List.foldl_append]
    exact ih.scanChunk ids corefSubs chunk _

/-- Both nodes are in the capped presence of the chunk. -/
def cooccurIn (host : TextHost) (nodes : List EntityNodeRow) (maxEntitiesPerChunk : Nat)
    (a b : String) (chunk : EnrichmentChunk) : Bool :=
  let ids := (cappedPresence host nodes maxEntitiesPerChunk chunk).map fun node => node.id
  eligible chunk && decide (a ∈ ids) && decide (b ∈ ids)

/-- An ordered pair is counted once for each chunk with both nodes. -/
theorem countP_chunkPairs {t : NodeTable host scope} (hinj : NodeIdsInjective host scope.sourceId)
    (maxEntitiesPerChunk : Nat) (chunks : List EnrichmentChunk) (a b : String) :
    ((chunks.filter eligible).flatMap (chunkPairs host t.nodes maxEntitiesPerChunk)).countP
        (fun p => pairKey p = (a, b)) =
      if a < b then (chunks.filter (cooccurIn host t.nodes maxEntitiesPerChunk a b)).length
      else 0 := by
  have hchunk : ∀ chunk, (chunkPairs host t.nodes maxEntitiesPerChunk chunk).countP
      (fun p => pairKey p = (a, b)) = if a < b ∧
        a ∈ (cappedPresence host t.nodes maxEntitiesPerChunk chunk).map (fun node => node.id) ∧
        b ∈ (cappedPresence host t.nodes maxEntitiesPerChunk chunk).map (fun node => node.id)
        then 1 else 0 := by
    intro chunk
    have hsub : (cappedPresence host t.nodes maxEntitiesPerChunk chunk).Sublist t.nodes :=
      (List.take_sublist _ _).trans List.filter_sublist
    have hnodup := (t.nodup_ids hinj).sublist (hsub.map fun node => node.id)
    rw [← countP_pairsOf hnodup a b, pairsOf_map, List.countP_map]
    unfold chunkPairs
    rw [List.countP_map]
    rfl
  induction chunks with
  | nil => simp
  | cons chunk chunks ih =>
    by_cases helig : eligible chunk = true
    · rw [List.filter_cons_of_pos helig, List.flatMap_cons, List.countP_append, ih, hchunk]
      by_cases hab : a < b
      · rw [if_pos hab, if_pos hab]
        by_cases hboth : cooccurIn host t.nodes maxEntitiesPerChunk a b chunk = true
        · rw [List.filter_cons_of_pos hboth, List.length_cons, if_pos]
          · omega
          · simp only [cooccurIn, Bool.and_eq_true, decide_eq_true_eq] at hboth
            exact ⟨hab, hboth.1.2, hboth.2⟩
        · rw [List.filter_cons_of_neg hboth, if_neg]
          · omega
          · rintro ⟨_, ha, hb⟩
            apply hboth
            simp only [cooccurIn, Bool.and_eq_true, decide_eq_true_eq]
            exact ⟨⟨helig, ha⟩, hb⟩
      · rw [if_neg hab, if_neg hab, if_neg fun h => hab h.1]
    · have hboth : ¬ cooccurIn host t.nodes maxEntitiesPerChunk a b chunk = true := by
        simp [cooccurIn, helig]
      rw [List.filter_cons_of_neg helig, List.filter_cons_of_neg hboth, ih]

/-- The entries of the map are the ordered pairs that occur together, with their counts. -/
theorem ChunkPass.Sound.keys_iff {t : NodeTable host scope} {maxEntitiesPerChunk : Nat}
    {chunks : List EnrichmentChunk} {acc : ChunkPass} (h : acc.Sound t maxEntitiesPerChunk chunks)
    (hinj : NodeIdsInjective host scope.sourceId) (a b : String) :
    (a, b) ∈ acc.pairs.map Prod.fst ↔ a < b ∧
      0 < (chunks.filter (cooccurIn host t.nodes maxEntitiesPerChunk a b)).length := by
  have hcount := countP_chunkPairs hinj maxEntitiesPerChunk chunks a b (t := t)
  have hkeys : (a, b) ∈ acc.pairs.map Prod.fst ↔
      0 < ((chunks.filter eligible).flatMap (chunkPairs host t.nodes maxEntitiesPerChunk)).countP
        (fun p => pairKey p = (a, b)) := by
    rw [h.pairs, mem_keys_tally, List.countP_pos_iff]
    simp only [decide_eq_true_eq]
  rw [hkeys, hcount]
  by_cases hab : a < b
  · rw [if_pos hab]
    simp only [hab, true_and]
  · rw [if_neg hab]
    simp only [hab, false_and, lt_irrefl]

theorem ChunkPass.Sound.count_eq {t : NodeTable host scope} {maxEntitiesPerChunk : Nat}
    {chunks : List EnrichmentChunk} {acc : ChunkPass} (h : acc.Sound t maxEntitiesPerChunk chunks)
    (hinj : NodeIdsInjective host scope.sourceId) {a b : String} {v : Nat × String}
    (hmem : ((a, b), v) ∈ acc.pairs) :
    v.1 = (chunks.filter (cooccurIn host t.nodes maxEntitiesPerChunk a b)).length := by
  have hab := ((h.keys_iff hinj a b).mp (List.mem_map.mpr ⟨_, hmem, rfl⟩)).1
  rw [h.pairs] at hmem
  rw [count_of_mem_tally hmem, countP_chunkPairs hinj, if_pos hab]

theorem mem_of_cooccurIn {nodes : List EntityNodeRow} {maxEntitiesPerChunk : Nat} {a b : String}
    {chunk : EnrichmentChunk} (h : cooccurIn host nodes maxEntitiesPerChunk a b chunk = true) :
    (∃ node ∈ nodes, a = node.id) ∧ ∃ node ∈ nodes, b = node.id := by
  simp only [cooccurIn, Bool.and_eq_true, decide_eq_true_eq] at h
  have hnode : ∀ c, c ∈ (cappedPresence host nodes maxEntitiesPerChunk chunk).map
      (fun node => node.id) → ∃ node ∈ nodes, c = node.id := by
    intro c hc
    obtain ⟨node, hmem, rfl⟩ := List.mem_map.mp hc
    exact ⟨node, List.mem_of_mem_filter (List.mem_of_mem_take hmem), rfl⟩
  exact ⟨hnode a h.1.2, hnode b h.2⟩

end Pass

section WellFormed

variable (host : TextHost)

/-- What the rows of a source promise. -/
structure EntityGraphRows.WellFormed (rows : EntityGraphRows) (chunks : List EnrichmentChunk)
    (maxEntitiesPerChunk : Nat) : Prop where
  names : (rows.nodes.map fun node => host.toLowercase node.name).Nodup
  mentions : ∀ m ∈ rows.mentions, ∃ node ∈ rows.nodes, m.entityNodeId = node.id
  endpoints : ∀ e ∈ rows.edges, (∃ node ∈ rows.nodes, e.fromNode = node.id) ∧
    ∃ node ∈ rows.nodes, e.toNode = node.id
  canonical : ∀ e ∈ rows.edges, e.fromNode < e.toNode
  noLoops : ∀ e ∈ rows.edges, e.fromNode ≠ e.toNode
  unique : (rows.edges.map fun e => (e.fromNode, e.toNode)).Nodup
  weight : ∀ e ∈ rows.edges, e.weight = some (.ofRat (chunks.filter
    (cooccurIn host rows.nodes maxEntitiesPerChunk e.fromNode e.toNode)).length)
  complete : ∀ chunk ∈ chunks, ∀ a b, a < b →
    cooccurIn host rows.nodes maxEntitiesPerChunk a b chunk = true →
      ∃ e ∈ rows.edges, e.fromNode = a ∧ e.toNode = b
  dropped : rows.droppedCooccurrence = ((chunks.filter eligible).map fun chunk =>
    ((presence host rows.nodes chunk).drop maxEntitiesPerChunk).length).sum

variable {host} {scope : RowScope}

theorem mem_mapIdx_newEdge {ids : Nat → String} {drawn : Nat} {pairs : PairCounts}
    {e : EntityEdge} (h : e ∈ (pairs.mergeSort pairLe).mapIdx (newEdge scope ids drawn)) :
    ∃ k entry, entry ∈ pairs ∧ e = newEdge scope ids drawn k entry := by
  obtain ⟨k, hk, rfl⟩ := List.mem_mapIdx.mp h
  exact ⟨k, _, (List.mergeSort_perm pairs pairLe).mem_iff.mp (List.getElem_mem hk), rfl⟩

theorem map_mapIdx_newEdge (scope : RowScope) (ids : Nat → String) (drawn : Nat) (pairs : PairCounts) :
    ((pairs.mergeSort pairLe).mapIdx (newEdge scope ids drawn)).map
      (fun e => (e.fromNode, e.toNode)) = (pairs.mergeSort pairLe).map Prod.fst := by
  apply List.ext_getElem
  · simp
  · intro k _ _
    simp [newEdge]

theorem buildEntityGraphRows_wellFormed (hinj : NodeIdsInjective host scope.sourceId)
    (ids : Nat → String) (chunks : List EnrichmentChunk) (entities : List Str)
    (definitions : List Definition) (dates : List Str)
    (corefSubs : Nat → Option (List CorefSub)) (maxEntitiesPerChunk : Nat) :
    (buildEntityGraphRows host scope ids chunks entities definitions dates corefSubs
      maxEntitiesPerChunk).WellFormed host chunks maxEntitiesPerChunk := by
  unfold buildEntityGraphRows
  dsimp only
  generalize buildNodes host scope entities definitions dates = t
  have hsound := chunkPass_sound ids t corefSubs maxEntitiesPerChunk chunks
  generalize chunks.zipIdx.foldl (scanChunk host scope ids t corefSubs maxEntitiesPerChunk)
    { mentions := [], pairs := [], dropped := 0 } = pass at hsound ⊢
  have hperm := (List.mergeSort_perm pass.pairs pairLe).map Prod.fst
  -- an edge stands for an entry, and so for an ordered pair that occurs together
  have hkey : ∀ e ∈ (pass.pairs.mergeSort pairLe).mapIdx (newEdge scope ids pass.mentions.length),
      e.fromNode < e.toNode ∧ 0 < (chunks.filter
        (cooccurIn host t.nodes maxEntitiesPerChunk e.fromNode e.toNode)).length := by
    intro e he
    obtain ⟨k, entry, hmem, rfl⟩ := mem_mapIdx_newEdge he
    exact (hsound.keys_iff hinj _ _).mp (List.mem_map.mpr ⟨entry, hmem, rfl⟩)
  constructor
  case names => exact t.nodup_names
  case mentions => exact hsound.mentions
  case endpoints =>
    intro e he
    obtain ⟨chunk, hchunk⟩ := List.exists_mem_of_length_pos (hkey e he).2
    exact mem_of_cooccurIn (List.mem_filter.mp hchunk).2
  case canonical => exact fun e he => (hkey e he).1
  case noLoops => exact fun e he => ne_of_lt (hkey e he).1
  case unique =>
    dsimp only
    rw [map_mapIdx_newEdge, hperm.nodup_iff, hsound.pairs]
    exact nodup_tally _ _ _
  case weight =>
    intro e he
    obtain ⟨k, entry, hmem, rfl⟩ := mem_mapIdx_newEdge he
    simp only [newEdge, Option.some.injEq]
    rw [hsound.count_eq hinj hmem]
  case complete =>
    intro chunk hchunk a b hab hboth
    have hsome : 0 < (chunks.filter (cooccurIn host t.nodes maxEntitiesPerChunk a b)).length :=
      List.length_pos_of_mem (List.mem_filter.mpr ⟨hchunk, hboth⟩)
    have hmem := hperm.mem_iff.mpr ((hsound.keys_iff hinj a b).mpr ⟨hab, hsome⟩)
    rw [← map_mapIdx_newEdge scope ids pass.mentions.length] at hmem
    obtain ⟨e, he, heq⟩ := List.mem_map.mp hmem
    rw [Prod.mk.injEq] at heq
    exact ⟨e, he, heq⟩
  case dropped => exact hsound.dropped

/-- The true digests of two texts, and a mark of its own on every other text. -/
def twoNodeHost : TextHost where
  toLowercase := fun s => s.map Char.toLower
  isAlphanumeric := Char.isAlphanum
  digest := fun s =>
    if s = "src-1".toList ++ Char.ofNat 0 :: ("ford".toList ++ Char.ofNat 0 :: "concept".toList)
    then "5c3e5db991f818ee0ca1b9d5aa3b104f02854a0d1bc020cedbc78c2c5cef6516"
    else if s =
      "src-1".toList ++ Char.ofNat 0 :: ("detroit".toList ++ Char.ofNat 0 :: "concept".toList)
    then "e7792e7dbe759334c492b626054a43382aaa4e2cfbb8a8013d3a28466c1e5da2"
    else String.ofList ('x' :: s)

theorem twoNodeHost_injective : Function.Injective twoNodeHost.digest := by
  intro s t h
  have hmark : ∀ (d : String) (u : Str), d.toList.head? ≠ some 'x' → d ≠ String.ofList ('x' :: u) := by
    rintro d u hd rfl
    simp at hd
  have hford := fun u =>
    hmark "5c3e5db991f818ee0ca1b9d5aa3b104f02854a0d1bc020cedbc78c2c5cef6516" u (by decide +kernel)
  have hdetroit := fun u =>
    hmark "e7792e7dbe759334c492b626054a43382aaa4e2cfbb8a8013d3a28466c1e5da2" u (by decide +kernel)
  have hother : ∀ u v : Str, String.ofList ('x' :: u) = String.ofList ('x' :: v) → u = v := by
    intro u v huv
    exact (List.cons.inj (String.ofList_injective huv)).2
  unfold twoNodeHost at h
  dsimp only at h
  split_ifs at h with hs ht ht' hs' ht ht' ht ht'
  · rw [hs, ht]
  · exact absurd h (by decide +kernel)
  · exact absurd h (hford t)
  · exact absurd h (by decide +kernel)
  · rw [hs', ht']
  · exact absurd h (hdetroit t)
  · exact absurd h.symm (hford s)
  · exact absurd h.symm (hdetroit s)
  · exact hother s t h

theorem buildEntityGraphRows_wellFormed_two :
    (buildEntityGraphRows twoNodeHost ⟨"nb-1", "src-1", "2026-01-01T00:00:00Z"⟩ (fun _ => "id")
      [⟨"c-1", none, 1, [], "Ford was founded in Detroit.".toList, none⟩] ["Ford".toList, "Detroit".toList]
      [] [] (fun _ => none) 25).WellFormed twoNodeHost
        [⟨"c-1", none, 1, [], "Ford was founded in Detroit.".toList, none⟩] 25 :=
  buildEntityGraphRows_wellFormed (nodeIdsInjective_of_digest twoNodeHost_injective _) _ _ _ _ _ _ _

end WellFormed

end LensLM
