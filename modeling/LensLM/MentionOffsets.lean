import LensLM.EntityGraph
import LensLM.Lib.CaseMapping
import Mathlib.Data.List.Infix
import Mathlib.Tactic.SplitIfs

/-!
# The offsets of mentions

Names are looked for in a lower-cased copy of a chunk, and the offsets found there are stored for
the chunk itself. They agree where lower-casing keeps every character in its place.
-/

namespace LensLM

open ByteText CaseMapping

set_option autoImplicit false

section Scan

variable (isAlphanumeric : Char → Bool) {chars needle : Str}

/-- The needle as a word at the place between two parts. -/
theorem wordAt_append (a b c : Str) (hlen : b.length = needle.length) :
    wordAt isAlphanumeric (a ++ (b ++ c)) needle a.length = true ↔
      b = needle ∧ Stops isAlphanumeric a.reverse ∧ Stops isAlphanumeric c := by
  have htake : ((a ++ (b ++ c)).drop a.length).take needle.length = b := by
    rw [List.drop_left, ← hlen, List.take_left]
  have hbefore : (a.length = 0 ∨ ((a ++ (b ++ c))[a.length - 1]?.any isAlphanumeric) = false) ↔
      Stops isAlphanumeric a.reverse := by
    cases a using List.reverseRecOn with
    | nil => simp [Stops]
    | append_singleton a d => simp [Stops]
  have hafter : (a.length + needle.length = (a ++ (b ++ c)).length ∨
      ((a ++ (b ++ c))[a.length + needle.length]?.any isAlphanumeric) = false) ↔
      Stops isAlphanumeric c := by
    cases c with
    | nil => simp [Stops, hlen]
    | cons d c => simp [Stops, ← hlen]
  unfold wordAt
  simp only [htake, Bool.and_eq_true, Bool.or_eq_true, decide_eq_true_eq, Bool.not_eq_true',
    hbefore, hafter, and_assoc]

variable {isAlphanumeric}

theorem mem_wordOccurrences {hneedle : needle ≠ []} {i : Nat} {o : Nat × Nat}
    (h : o ∈ wordOccurrences isAlphanumeric chars needle hneedle i) :
    o.2 = o.1 + needle.length ∧ o.2 ≤ chars.length ∧
      wordAt isAlphanumeric chars needle o.1 = true := by
  fun_induction wordOccurrences isAlphanumeric chars needle hneedle i with
  | case1 i hfit hword ih =>
    cases List.mem_cons.mp h with
    | inl h =>
      rw [h]
      exact ⟨rfl, hfit, hword⟩
    | inr h => exact ih h
  | case2 i _ _ ih => exact ih h
  | case3 => cases h

/-- Words of letters do not run into each other. -/
theorem wordAt_apart (hletters : ∀ c ∈ needle, isAlphanumeric c = true) {i j : Nat}
    (hi : wordAt isAlphanumeric chars needle i = true)
    (hj : wordAt isAlphanumeric chars needle j = true) (hlt : i < j) : i + needle.length ≤ j := by
  by_contra hover
  have htake : (chars.drop i).take needle.length = needle := by
    simp only [wordAt, Bool.and_eq_true, decide_eq_true_eq] at hi
    exact hi.1.1
  have hbefore : chars[j - 1]?.any isAlphanumeric = false := by
    simp only [wordAt, Bool.and_eq_true, Bool.or_eq_true, decide_eq_true_eq,
      Bool.not_eq_true'] at hj
    exact hj.1.2.resolve_left (by omega)
  have hk : j - 1 - i < needle.length := by omega
  have hget : chars[j - 1]? = some needle[j - 1 - i] := by
    have hsame : ((chars.drop i).take needle.length)[j - 1 - i]? = chars[j - 1]? := by
      rw [List.getElem?_take_of_lt hk, List.getElem?_drop]
      congr 1
      omega
    rw [← hsame, htake, List.getElem?_eq_getElem hk]
  rw [hget, Option.any_some, hletters _ (List.getElem_mem hk)] at hbefore
  cases hbefore

theorem wordOccurrences_of_letters (hneedle : needle ≠ [])
    (hletters : ∀ c ∈ needle, isAlphanumeric c = true) {i j : Nat} (hij : i ≤ j)
    (hfit : j + needle.length ≤ chars.length)
    (hj : wordAt isAlphanumeric chars needle j = true) :
    (j, j + needle.length) ∈ wordOccurrences isAlphanumeric chars needle hneedle i := by
  fun_induction wordOccurrences isAlphanumeric chars needle hneedle i with
  | case1 i _ hword ih =>
    by_cases heq : j = i
    · rw [heq]
      exact List.mem_cons_self
    · apply List.mem_cons_of_mem
      apply ih
      exact wordAt_apart hletters hword hj (by omega)
  | case2 i _ hword ih =>
    apply ih
    have hne : i ≠ j := by
      intro heq
      exact hword (heq ▸ hj)
    omega
  | case3 i hnofit => exact absurd (show i + needle.length ≤ chars.length by omega) hnofit

/-- A word of letters is found wherever it stands, and any needle is found at the beginning. -/
theorem mem_findWordBoundaryOccurrences (hneedle : needle ≠ []) {j : Nat}
    (hfit : j + needle.length ≤ chars.length)
    (hj : wordAt isAlphanumeric chars needle j = true)
    (hplace : j = 0 ∨ ∀ c ∈ needle, isAlphanumeric c = true) :
    (j, j + needle.length) ∈ findWordBoundaryOccurrences isAlphanumeric chars needle := by
  unfold findWordBoundaryOccurrences
  rw [dif_neg hneedle]
  rcases hplace with rfl | hletters
  · rw [wordOccurrences, if_pos hfit, if_pos hj]
    exact List.mem_cons_self
  · exact wordOccurrences_of_letters hneedle hletters (Nat.zero_le j) hfit hj

end Scan

section Offsets

/-- The tables that a build reads: both small sigmas are letters. -/
structure UnicodeTables extends CaseTable where
  isAlphanumeric : Char → Bool
  sigma_alphanumeric : isAlphanumeric 'σ' = true
  finalSigma_alphanumeric : isAlphanumeric 'ς' = true

def UnicodeTables.host (u : UnicodeTables) (digest : Str → String) : TextHost where
  toLowercase := u.toLowercase
  isAlphanumeric := u.isAlphanumeric
  digest := digest

/-- The range lies in the text, and what stands there is the name but for its case. -/
def PointsAt (toLowercase : Str → Str) (text name : Str) (o : Nat × Nat) : Prop :=
  o.1 ≤ o.2 ∧ o.2 ≤ text.length ∧
    toLowercase ((text.drop o.1).take (o.2 - o.1)) = toLowercase name

variable {u : UnicodeTables}

/-- A character that becomes a letter or digit. -/
def UnicodeTables.letter (u : UnicodeTables) (c : Char) : Bool := (u.toLower c).all u.isAlphanumeric

/-- Lower-casing keeps every character of the text in its place, and the words do not need their
surroundings for it. -/
def UnicodeTables.KeepsPlaces (u : UnicodeTables) (text : Str) : Prop :=
  u.Aligned text ∧ u.SigmasSettled u.letter text

theorem all_lowerOne (before : Str) (c : Char) (after : Str) :
    (u.lowerOne before c after).all u.isAlphanumeric = u.letter c := by
  unfold CaseTable.lowerOne UnicodeTables.letter
  split
  · next h =>
    rw [h, u.capitalSigma]
    split
    · simp [u.sigma_alphanumeric, u.finalSigma_alphanumeric]
    · rfl
  · rfl

theorem all_lowerWithin {s : Str} (h : ∀ c ∈ s, u.letter c = true) (before after : Str) :
    ∀ d ∈ u.lowerWithin before s after, u.isAlphanumeric d = true := by
  intro d hd
  obtain ⟨c, hc, b, a, hd⟩ := CaseTable.exists_of_mem_lowerWithin hd
  exact List.all_eq_true.mp ((all_lowerOne b c a).trans (h c hc)) d hd

theorem letter_sigma : u.letter 'Σ' = true := by
  rw [UnicodeTables.letter, u.capitalSigma]
  simp [u.sigma_alphanumeric]

theorem lowerOne_aligned {c : Char} (h : (u.toLower c).length = 1) (before after : Str) :
    ∃ d, u.lowerOne before c after = [d] ∧ u.isAlphanumeric d = u.letter c := by
  obtain ⟨d, hd⟩ := List.length_eq_one_iff.mp ((CaseTable.lowerOne_length before c after).trans h)
  refine ⟨d, hd, ?_⟩
  rw [← all_lowerOne before c after, hd]
  simp

/-- Words stop in the lower-cased copy where they stop in the text. -/
theorem stops_lowerWithin {s : Str} (h : u.Aligned s) (before after : Str) :
    Stops u.isAlphanumeric (u.lowerWithin before s after) ↔ Stops u.letter s := by
  cases s with
  | nil => simp [Stops, CaseTable.lowerWithin]
  | cons c s =>
    obtain ⟨d, hd, hletter⟩ := lowerOne_aligned (h c List.mem_cons_self) before (s ++ after)
    rw [CaseTable.lowerWithin, hd]
    simp [Stops, hletter]

theorem stops_reverse_lowerWithin {s : Str} (h : u.Aligned s) (before after : Str) :
    Stops u.isAlphanumeric (u.lowerWithin before s after).reverse ↔ Stops u.letter s.reverse := by
  cases s using List.reverseRecOn with
  | nil => simp [Stops, CaseTable.lowerWithin]
  | append_singleton s c =>
    obtain ⟨d, hd, hletter⟩ := lowerOne_aligned (h c (by simp)) (s.reverse ++ before) after
    rw [CaseTable.lowerWithin_append]
    simp [CaseTable.lowerWithin, hd, Stops, hletter]

/-- A place in the lower-cased copy of an aligned text and the same place in the text. -/
theorem wordAt_toLowercase {p m q : Str} (h : u.Aligned (p ++ (m ++ q))) {needle : Str}
    (hlen : m.length = needle.length) :
    wordAt u.isAlphanumeric (u.toLowercase (p ++ (m ++ q))) needle p.length = true ↔
      u.lowerWithin p.reverse m q = needle ∧ Stops u.letter p.reverse ∧ Stops u.letter q := by
  have hp : u.Aligned p := fun c hc => h c (by simp [hc])
  have hm : u.Aligned m := fun c hc => h c (by simp [hc])
  have hq : u.Aligned q := fun c hc => h c (by simp [hc])
  have hword := wordAt_append u.isAlphanumeric
    (u.lowerWithin [] p (m ++ q)) (u.lowerWithin p.reverse m q)
    (u.lowerWithin (m.reverse ++ p.reverse) q []) ((hm.length _ _).trans hlen)
  rw [hp.length] at hword
  rw [CaseTable.toLowercase_split, hword, stops_reverse_lowerWithin hp, stops_lowerWithin hq]

theorem exists_parts {text : Str} {i n : Nat} (h : i + n ≤ text.length) :
    ∃ p m q, text = p ++ (m ++ q) ∧ p.length = i ∧ m.length = n := by
  refine ⟨text.take i, (text.drop i).take n, (text.drop i).drop n, ?_, ?_, ?_⟩
  · rw [List.take_append_drop, List.take_append_drop]
  · exact List.length_take_of_le (by omega)
  · apply List.length_take_of_le
    rw [List.length_drop]
    omega

/-- Where places are kept, every range that is found points at the name. -/
theorem pointsAt_of_keepsPlaces {text : Str} (h : u.KeepsPlaces text) (name : Str) {o : Nat × Nat}
    (ho : o ∈ findWordBoundaryOccurrences u.isAlphanumeric (u.toLowercase text)
      (u.toLowercase name)) : PointsAt u.toLowercase text name o := by
  obtain ⟨halign, hsettled⟩ := h
  unfold findWordBoundaryOccurrences at ho
  split at ho
  · cases ho
  · obtain ⟨hstop, hfit, hword⟩ := mem_wordOccurrences ho
    have hlen : (u.toLowercase text).length = text.length := halign.length [] []
    obtain ⟨p, m, q, rfl, hp, hm⟩ : ∃ p m q, text = p ++ (m ++ q) ∧ p.length = o.1 ∧
        m.length = (u.toLowercase name).length := exists_parts (by omega)
    rw [← hp] at hword
    obtain ⟨hname, hbefore, hafter⟩ := (wordAt_toLowercase halign hm).mp hword
    refine ⟨by omega, by omega, ?_⟩
    have hsub : o.2 - o.1 = m.length := by omega
    rw [hsub, ← hp, List.drop_left, List.take_left, ← hname]
    exact (hsettled.alone hbefore hafter).symm

/-- The whole text as a name is found from the beginning to the end of the copy. -/
theorem aligned_of_pointsAt {text : Str} (h : ∀ o ∈ findWordBoundaryOccurrences
    u.isAlphanumeric (u.toLowercase text) (u.toLowercase text),
      PointsAt u.toLowercase text text o) : u.Aligned text := by
  by_cases hnil : text = []
  · rw [hnil]
    exact nofun
  · have hpos : 0 < text.length := List.length_pos_iff.mpr hnil
    have hle : text.length ≤ (u.toLowercase text).length :=
      CaseTable.length_le_lowerWithin [] text []
    have hne : u.toLowercase text ≠ [] := List.ne_nil_of_length_pos (by omega)
    have hword : wordAt u.isAlphanumeric (u.toLowercase text) (u.toLowercase text) 0 = true := by
      have hwhole := (wordAt_append u.isAlphanumeric [] (u.toLowercase text) [] rfl).mpr
        ⟨rfl, nofun, nofun⟩
      rwa [List.nil_append, List.append_nil] at hwhole
    have hfound := mem_findWordBoundaryOccurrences hne (by omega) hword (.inl rfl)
    obtain ⟨-, hlen, -⟩ := h _ hfound
    have hshort : (u.lowerWithin [] text []).length ≤ text.length := by
      rwa [Nat.zero_add] at hlen
    exact CaseTable.aligned_of_length_le hshort

/-- Where every range that is found points at its name, places are kept. -/
theorem keepsPlaces_of_pointsAt {text : Str} (h : ∀ name, ∀ o ∈ findWordBoundaryOccurrences
    u.isAlphanumeric (u.toLowercase text) (u.toLowercase name),
      PointsAt u.toLowercase text name o) : u.KeepsPlaces text := by
  have halign : u.Aligned text := aligned_of_pointsAt (h text)
  refine ⟨halign, ?_⟩
  apply CaseTable.SigmasSettled.of_alone letter_sigma halign
  intro p m q htext hm hbefore hafter hplace
  have halign' := htext ▸ halign
  have hmalign : u.Aligned m := fun c hc => halign' c (by simp [hc])
  -- the part as it stands in the copy is a name, and is found there
  let name := u.lowerWithin p.reverse m q
  have hname : u.toLowercase name = name := CaseTable.toLowercase_lowerWithin _ _ _
  have hlen : m.length = name.length := (hmalign.length _ _).symm
  have hne : name ≠ [] := by
    apply List.ne_nil_of_length_pos
    rw [← hlen]
    exact List.length_pos_iff.mpr hm
  have hword := (wordAt_toLowercase halign' hlen).mpr ⟨rfl, hbefore, hafter⟩
  have hfit : p.length + name.length ≤ (u.toLowercase (p ++ (m ++ q))).length := by
    have hall : (u.toLowercase (p ++ (m ++ q))).length = _ := halign'.length [] []
    rw [hall, ← hlen]
    simp only [List.length_append]
    omega
  have hletters : p.length = 0 ∨ ∀ d ∈ name, u.isAlphanumeric d = true := by
    cases hplace with
    | inl hp => exact .inl (by rw [hp, List.length_nil])
    | inr hm => exact .inr (all_lowerWithin hm p.reverse q)
  have hfound := mem_findWordBoundaryOccurrences hne hfit hword hletters
  rw [← htext, ← hname] at hfound
  obtain ⟨-, -, hpoint⟩ := h name _ hfound
  rw [hname, Nat.add_sub_cancel_left, ← hlen, htext, List.drop_left, List.take_left] at hpoint
  exact hpoint.symm

end Offsets

section Origins

variable (host : TextHost) {scope : RowScope}

inductive MentionOrigin where
  | stringMatch
  | coref
deriving DecidableEq

/-- A mention before it is a row: what it was found in, for which node and how. -/
structure FoundMention where
  chunk : EnrichmentChunk
  node : EntityNodeRow
  range : Nat × Nat
  origin : MentionOrigin
deriving DecidableEq

def FoundMention.row (scope : RowScope) (ids : Nat → String) (k : Nat) (f : FoundMention) :
    EntityMention where
  id := ids k
  notebookId := scope.notebookId
  entityNodeId := f.node.id
  chunkId := f.chunk.id
  charStart := f.range.1
  charEnd := f.range.2
  createdAt := scope.createdAt

def stringMatches (chunk : EnrichmentChunk) (node : EntityNodeRow) : List FoundMention :=
  (findWordBoundaryOccurrences host.isAlphanumeric (host.toLowercase chunk.text)
    (host.toLowercase node.name)).map fun o => ⟨chunk, node, o, .stringMatch⟩

def corefMatch (t : NodeTable host scope) (chunk : EnrichmentChunk) (sub : CorefSub) :
    Option FoundMention :=
  (t.find (host.toLowercase sub.antecedent)).map fun node =>
    ⟨chunk, node, (sub.charStart, sub.charEnd), .coref⟩

def chunkMatches (t : NodeTable host scope) (corefSubs : Nat → Option (List CorefSub))
    (indexed : EnrichmentChunk × Nat) : List FoundMention :=
  if eligible indexed.1 then
    t.nodes.flatMap (stringMatches host indexed.1) ++
      ((corefSubs indexed.2).getD []).filterMap (corefMatch host t indexed.1)
  else []

/-- All mentions of a build, in order. -/
def foundMentions (t : NodeTable host scope) (corefSubs : Nat → Option (List CorefSub))
    (chunks : List EnrichmentChunk) : List FoundMention :=
  chunks.zipIdx.flatMap (chunkMatches host t corefSubs)

variable {host} (ids : Nat → String)

/-- The rows of the mentions. -/
def rowsOf (scope : RowScope) (found : List FoundMention) : List EntityMention :=
  found.mapIdx (FoundMention.row scope ids)

variable (scope)

theorem pushMention_rowsOf (found : List FoundMention) (f : FoundMention) :
    pushMention scope ids f.chunk f.node f.range.1 f.range.2 (rowsOf ids scope found) =
      rowsOf ids scope (found ++ [f]) := by
  unfold pushMention rowsOf
  rw [List.mapIdx_append, List.length_mapIdx]
  simp [FoundMention.row]

theorem foldl_pushMention (chunk : EnrichmentChunk) (node : EntityNodeRow)
    (occurrences : List (Nat × Nat)) (found : List FoundMention) :
    occurrences.foldl (fun ms o => pushMention scope ids chunk node o.1 o.2 ms)
        (rowsOf ids scope found) =
      rowsOf ids scope (found ++ occurrences.map fun o => ⟨chunk, node, o, .stringMatch⟩) := by
  induction occurrences generalizing found with
  | nil => rw [List.foldl_nil, List.map_nil, List.append_nil]
  | cons o occurrences ih =>
    rw [List.foldl_cons]
    have hpush := pushMention_rowsOf scope ids found ⟨chunk, node, o, .stringMatch⟩
    rw [hpush, ih, List.append_assoc]
    rfl

variable (host)

theorem scanNode_rowsOf (chunk : EnrichmentChunk) (present : List EntityNodeRow)
    (found : List FoundMention) (node : EntityNodeRow) :
    (scanNode host scope ids chunk (present, rowsOf ids scope found) node).2 =
      rowsOf ids scope (found ++ stringMatches host chunk node) := by
  unfold scanNode stringMatches
  dsimp only
  split
  · next hempty =>
    rw [List.isEmpty_iff.mp hempty]
    simp [findWordBoundaryOccurrences]
  · exact foldl_pushMention scope ids chunk node _ found

theorem foldl_scanNode_rowsOf (chunk : EnrichmentChunk) (nodes : List EntityNodeRow)
    (present : List EntityNodeRow) (found : List FoundMention) :
    (nodes.foldl (scanNode host scope ids chunk) (present, rowsOf ids scope found)).2 =
      rowsOf ids scope (found ++ nodes.flatMap (stringMatches host chunk)) := by
  induction nodes generalizing present found with
  | nil => rw [List.foldl_nil, List.flatMap_nil, List.append_nil]
  | cons node nodes ih =>
    have hnode := scanNode_rowsOf host scope ids chunk present found node
    rw [List.foldl_cons, ← Prod.mk.eta (p := scanNode host scope ids chunk _ node), hnode, ih,
      List.flatMap_cons, List.append_assoc]

variable {host scope}

theorem foldl_corefMention_rowsOf (t : NodeTable host scope) (chunk : EnrichmentChunk)
    (subs : List CorefSub) (found : List FoundMention) :
    subs.foldl (corefMention host scope ids t chunk) (rowsOf ids scope found) =
      rowsOf ids scope (found ++ subs.filterMap (corefMatch host t chunk)) := by
  induction subs generalizing found with
  | nil => rw [List.foldl_nil, List.filterMap_nil, List.append_nil]
  | cons sub subs ih =>
    rw [List.foldl_cons, List.filterMap_cons]
    unfold corefMention corefMatch
    cases hfind : t.find (host.toLowercase sub.antecedent) with
    | none => exact ih found
    | some node =>
      have hpush := pushMention_rowsOf scope ids found
        ⟨chunk, node, (sub.charStart, sub.charEnd), .coref⟩
      dsimp only [Option.map_some]
      rw [hpush]
      exact (ih _).trans (by rw [List.append_assoc]; rfl)

theorem scanChunk_rowsOf (t : NodeTable host scope) (corefSubs : Nat → Option (List CorefSub))
    (maxEntitiesPerChunk : Nat) (acc : ChunkPass) (indexed : EnrichmentChunk × Nat)
    {found : List FoundMention} (hacc : acc.mentions = rowsOf ids scope found) :
    (scanChunk host scope ids t corefSubs maxEntitiesPerChunk acc indexed).mentions =
      rowsOf ids scope (found ++ chunkMatches host t corefSubs indexed) := by
  obtain ⟨chunk, i⟩ := indexed
  unfold scanChunk chunkMatches
  dsimp only
  by_cases helig : eligible chunk = true
  · have hscan := foldl_scanNode_rowsOf host scope ids chunk t.nodes [] found
    rw [if_neg (by simp [helig]), if_pos helig]
    dsimp only
    rw [hacc, hscan]
    cases corefSubs i with
    | none => simp
    | some subs =>
      dsimp only [Option.getD_some]
      rw [foldl_corefMention_rowsOf, List.append_assoc]
  · rw [if_pos (by simpa using helig), if_neg helig, List.append_nil, hacc]

theorem foldl_scanChunk_rowsOf (t : NodeTable host scope)
    (corefSubs : Nat → Option (List CorefSub)) (maxEntitiesPerChunk : Nat)
    (indexed : List (EnrichmentChunk × Nat)) {acc : ChunkPass} {found : List FoundMention}
    (hacc : acc.mentions = rowsOf ids scope found) :
    (indexed.foldl (scanChunk host scope ids t corefSubs maxEntitiesPerChunk) acc).mentions =
      rowsOf ids scope (found ++ indexed.flatMap (chunkMatches host t corefSubs)) := by
  induction indexed generalizing acc found with
  | nil => rw [List.foldl_nil, List.flatMap_nil, List.append_nil, hacc]
  | cons c indexed ih =>
    rw [List.foldl_cons, List.flatMap_cons, ← List.append_assoc]
    exact ih (scanChunk_rowsOf ids t corefSubs maxEntitiesPerChunk acc c hacc)

/-- The mentions of a build are what its passes find. -/
theorem buildEntityGraphRows_mentions (host : TextHost) (scope : RowScope) (ids : Nat → String)
    (chunks : List EnrichmentChunk) (entities : List Str) (definitions : List Definition)
    (dates : List Str) (corefSubs : Nat → Option (List CorefSub)) (maxEntitiesPerChunk : Nat) :
    (buildEntityGraphRows host scope ids chunks entities definitions dates corefSubs
      maxEntitiesPerChunk).mentions =
    rowsOf ids scope (foundMentions host (buildNodes host scope entities definitions dates)
      corefSubs chunks) := by
  have hnone : (ChunkPass.mk [] [] 0).mentions = rowsOf ids scope [] := rfl
  exact foldl_scanChunk_rowsOf ids (buildNodes host scope entities definitions dates) corefSubs
    maxEntitiesPerChunk chunks.zipIdx hnone

end Origins

section Claim

variable (host : TextHost) (scope : RowScope) (ids : Nat → String)

/-- The mentions are those that were found, and those that were found by name point at the name. -/
def StringMentionsPoint (chunks : List EnrichmentChunk) (entities : List Str)
    (definitions : List Definition) (dates : List Str)
    (corefSubs : Nat → Option (List CorefSub)) (maxEntitiesPerChunk : Nat) : Prop :=
  let rows := buildEntityGraphRows host scope ids chunks entities definitions dates corefSubs
    maxEntitiesPerChunk
  let found := foundMentions host (buildNodes host scope entities definitions dates) corefSubs
    chunks
  rows.mentions = rowsOf ids scope found ∧
    ∀ f ∈ found, f.origin = .stringMatch →
      PointsAt host.toLowercase f.chunk.text f.node.name f.range

variable {host scope}

theorem mem_foundMentions {t : NodeTable host scope} {corefSubs : Nat → Option (List CorefSub)}
    {chunks : List EnrichmentChunk} {f : FoundMention} :
    f ∈ foundMentions host t corefSubs chunks ∧ f.origin = .stringMatch ↔
      ∃ chunk ∈ chunks, eligible chunk = true ∧ ∃ node ∈ t.nodes,
        f ∈ stringMatches host chunk node := by
  unfold foundMentions
  constructor
  · intro ⟨hf, horigin⟩
    obtain ⟨⟨chunk, i⟩, hindexed, hf⟩ := List.mem_flatMap.mp hf
    unfold chunkMatches at hf
    split at hf
    · next helig =>
      refine ⟨chunk, List.fst_mem_of_mem_zipIdx hindexed, helig, ?_⟩
      cases List.mem_append.mp hf with
      | inl hf => exact List.mem_flatMap.mp hf
      | inr hf =>
        obtain ⟨sub, _, hsub⟩ := List.mem_filterMap.mp hf
        obtain ⟨node, _, rfl⟩ := Option.map_eq_some_iff.mp hsub
        cases horigin
    · cases hf
  · intro ⟨chunk, hchunk, helig, node, hnode, hf⟩
    constructor
    · obtain ⟨i, hi⟩ := List.mem_iff_getElem?.mp hchunk
      apply List.mem_flatMap.mpr
      refine ⟨(chunk, i), List.mk_mem_zipIdx_iff_getElem?.mpr hi, ?_⟩
      unfold chunkMatches
      rw [if_pos helig]
      exact List.mem_append_left _ (List.mem_flatMap.mpr ⟨node, hnode, hf⟩)
    · obtain ⟨o, _, rfl⟩ := List.mem_map.mp hf
      rfl

variable {u : UnicodeTables} {digest : Str → String}

/-- A build over these chunks never records a wrong range for a name, exactly when lower-casing
keeps the places of every chunk that is scanned. -/
theorem stringMentions_point (u : UnicodeTables) (digest : Str → String) (scope : RowScope)
    (ids : Nat → String) (chunks : List EnrichmentChunk) :
    (∀ entities definitions dates corefSubs maxEntitiesPerChunk,
      StringMentionsPoint (u.host digest) scope ids chunks entities definitions dates corefSubs
        maxEntitiesPerChunk) ↔
    ∀ chunk ∈ chunks, eligible chunk = true → u.KeepsPlaces chunk.text := by
  constructor
  · intro h chunk hchunk helig
    apply keepsPlaces_of_pointsAt
    intro name o ho
    -- the name as the only entity
    obtain ⟨-, hpoint⟩ := h [name] [] [] (fun _ => none) 0
    let node := newNode (u.host digest) scope .concept name none
    let f : FoundMention := ⟨chunk, node, o, .stringMatch⟩
    have hmatch : f ∈ stringMatches (u.host digest) chunk node := List.mem_map_of_mem ho
    have hnode : node ∈ (buildNodes (u.host digest) scope [name] [] []).nodes :=
      List.mem_cons_self
    exact hpoint f (mem_foundMentions.mpr ⟨chunk, hchunk, helig, node, hnode, hmatch⟩).1 rfl
  · intro h entities definitions dates corefSubs maxEntitiesPerChunk
    refine ⟨buildEntityGraphRows_mentions _ _ _ _ _ _ _ _ _, ?_⟩
    intro f hf horigin
    obtain ⟨chunk, hchunk, helig, node, _, hmatch⟩ := mem_foundMentions.mp ⟨hf, horigin⟩
    obtain ⟨o, ho, rfl⟩ := List.mem_map.mp hmatch
    exact pointsAt_of_keepsPlaces (h chunk hchunk helig) node.name ho

/-- The entries of the tables that the text below reads. -/
def dottedTables : UnicodeTables where
  toLower := fun c =>
    if c = 'İ' then ['i', Char.ofNat 0x307]
    else if c = 'B' then ['b']
    else if c = 'Σ' then ['σ']
    else [c]
  isCased := fun c => c.isAlpha || c = 'İ' || c = 'Σ' || c = 'σ' || c = 'ς'
  isCaseIgnorable := fun c => c = Char.ofNat 0x307
  ne_nil := by
    intro c
    split_ifs <;> exact List.cons_ne_nil _ _
  fixed := by
    intro c d hd
    split_ifs at hd with hdotted hb hsigma
    · rcases List.mem_cons.mp hd with rfl | hd
      · rfl
      · rw [List.mem_singleton.mp hd]
        rfl
    · rw [List.mem_singleton.mp hd]
      rfl
    · rw [List.mem_singleton.mp hd]
      rfl
    · rw [List.mem_singleton.mp hd, if_neg hdotted, if_neg hb, if_neg hsigma]
  capitalSigma := rfl
  finalSigma := rfl
  isAlphanumeric := fun c => c.isAlphanum || c = 'İ' || c = 'σ' || c = 'ς'
  sigma_alphanumeric := rfl
  finalSigma_alphanumeric := rfl

def dottedHost : TextHost :=
  dottedTables.host fun _ => "8c02b26f951f85f58b0182ed5f34b2c673a163982ed109c912a9154437df58fc"

def dottedScope : RowScope := ⟨"nb-1", "src-1", "2026-01-01T00:00:00Z"⟩

def dottedChunk : EnrichmentChunk := ⟨"c-1", some "p-1", 1, [], "İ Bob".toList, none⟩

/-- The dotted capital I becomes two characters, so the name behind it is recorded one place too far
to the right: the range 3..6 of a text of five characters. -/
theorem dotted_mention_beyond_end :
    ¬ StringMentionsPoint dottedHost dottedScope (fun k => toString k) [dottedChunk]
      ["Bob".toList] [] [] (fun _ => none) 10 := by
  intro ⟨_, hpoint⟩
  let node := newNode dottedHost dottedScope .concept "Bob".toList none
  have hfound : (3, 6) ∈ findWordBoundaryOccurrences dottedHost.isAlphanumeric
      (dottedHost.toLowercase "İ Bob".toList) (dottedHost.toLowercase "Bob".toList) := by
    decide +kernel
  let f : FoundMention := ⟨dottedChunk, node, (3, 6), .stringMatch⟩
  have hmatch : f ∈ stringMatches dottedHost dottedChunk node := List.mem_map_of_mem hfound
  have hnode : node ∈ (buildNodes dottedHost dottedScope ["Bob".toList] [] []).nodes :=
    List.mem_cons_self
  obtain ⟨_, hfit, _⟩ := hpoint f
    (mem_foundMentions.mpr ⟨dottedChunk, List.mem_cons_self, rfl, node, hnode, hmatch⟩).1 rfl
  exact absurd hfit (by decide)

end Claim

end LensLM
