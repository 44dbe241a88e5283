import LensLM.Extractors
import LensLM.VectorStore
import Mathlib.Data.List.Lex

/-!
# Anchors of values

A walk writes one block for each scalar below a value, in the order of the keys and indices on the
way to it. The anchor of a scalar puts a slash before every key on that way, and a slash within a
key looks the same.
-/

namespace LensLM

open ByteText Outcome

set_option autoImplicit false

variable {T : Type}

section Leaves

def JsonValue.IsScalar : JsonValue → Prop
  | .object _ | .array _ => False
  | .null | .bool _ | .number _ | .string _ => True

/-- A value of at most so many levels, with distinct keys and no array that is cut. -/
def Walkable : Nat → JsonValue → Prop
  | 0, _ => False
  | left + 1, .object entries => (entries.map Prod.fst).Nodup ∧ ∀ x ∈ entries, Walkable left x.2
  | left + 1, .array items => items.length ≤ MAX_ARRAY_ELEMENTS ∧ ∀ x ∈ items, Walkable left x
  | _ + 1, _ => True

/-- The scalar at a path below a value. -/
inductive ScalarAt : JsonValue → List PathSegment → JsonValue → Prop
  | scalar {v : JsonValue} : v.IsScalar → ScalarAt v [] v
  | key {entries : List (Str × JsonValue)} {k : Str} {w s : JsonValue} {p : List PathSegment} :
      (k, w) ∈ entries → ScalarAt w p s → ScalarAt (.object entries) (.key k :: p) s
  | index {items : List JsonValue} {i : Nat} {w s : JsonValue} {p : List PathSegment} :
      items[i]? = some w → ScalarAt w p s → ScalarAt (.array items) (.index i :: p) s

/-- The order of the keys, of the elements and of the records. -/
inductive PathSegment.Precedes : PathSegment → PathSegment → Prop
  | key {k l : Str} : k < l → Precedes (.key k) (.key l)
  | index {i j : Nat} : i < j → Precedes (.index i) (.index j)
  | record {i j : Nat} : i < j → Precedes (.record i) (.record j)

/-- Two keys of one object, the second of which goes on with a slash where a path below the first
goes on with a key. -/
inductive SlashClash : JsonValue → Prop
  | here {entries : List (Str × JsonValue)} {k r : Str} {v w s t : JsonValue}
      {p q : List PathSegment} : (k, v) ∈ entries → (k ++ '/' :: r, w) ∈ entries → ScalarAt v p s →
      ScalarAt w q t → anchorPathOf p = '/' :: r ++ anchorPathOf q → SlashClash (.object entries)
  | key {entries : List (Str × JsonValue)} {x : Str × JsonValue} : x ∈ entries →
      SlashClash x.2 → SlashClash (.object entries)
  | index {items : List JsonValue} {w : JsonValue} : w ∈ items → SlashClash w →
      SlashClash (.array items)

end Leaves

section Paths

theorem anchorPathOf_cons (s : PathSegment) (p : List PathSegment) :
    anchorPathOf (s :: p) = '/' :: (s.pathPart ++ anchorPathOf p) := rfl

theorem anchorPathOf_append (p q : List PathSegment) :
    anchorPathOf (p ++ q) = anchorPathOf p ++ anchorPathOf q := List.flatMap_append

/-- What follows a part of an anchor starts with a slash. -/
theorem head_anchorPathOf (p : List PathSegment) : ∀ c ∈ (anchorPathOf p).head?, c = '/' := by
  cases p with
  | nil => exact fun c hc => by cases hc
  | cons s p => exact fun c hc => by cases hc; rfl

theorem slash_notMem_number (i : Nat) : '/' ∉ (toString i).toList := by
  intro h
  rw [Nat.toString_eq_ofList_toDigits, String.toList_ofList] at h
  exact absurd (Nat.isDigit_of_mem_toDigits (by decide) (by decide) h) (by decide)

theorem number_injective {i j : Nat} (h : (toString i).toList = (toString j).toList) : i = j := by
  rw [Nat.toString_eq_ofList_toDigits, Nat.toString_eq_ofList_toDigits, String.toList_ofList,
    String.toList_ofList] at h
  exact toDigits_injective h

/-- Numbers are told apart by what follows them. -/
theorem numbers_eq {i j : Nat} {p q : List PathSegment}
    (h : (toString i).toList ++ anchorPathOf p = (toString j).toList ++ anchorPathOf q) :
    i = j ∧ anchorPathOf p = anchorPathOf q := by
  rcases List.append_eq_append_iff.mp h with ⟨z, hz, hp⟩ | ⟨z, hz, hq⟩
  · cases z with
    | nil => exact ⟨number_injective (by simpa using hz.symm), by simpa using hp⟩
    | cons c z =>
      have hc := head_anchorPathOf p c (by rw [hp]; rfl)
      exact absurd (by rw [hz, hc]; simp) (slash_notMem_number j)
  · cases z with
    | nil => exact ⟨number_injective (by simpa using hz), by simpa using hq.symm⟩
    | cons c z =>
      have hc := head_anchorPathOf q c (by rw [hq]; rfl)
      exact absurd (by rw [hz, hc]; simp) (slash_notMem_number i)

end Paths

section Clashes

variable {entries : List (Str × JsonValue)}

theorem value_of_key (hkeys : (entries.map Prod.fst).Nodup) {k : Str} {v w : JsonValue}
    (hv : (k, v) ∈ entries) (hw : (k, w) ∈ entries) : v = w := by
  have h := List.inj_on_of_nodup_map hkeys hv hw rfl
  cases h
  rfl

/-- Two keys that begin the same anchor are equal or clash. -/
theorem keys_eq_or_clash {k l : Str} {v w s t : JsonValue} {p q : List PathSegment}
    (hk : (k, v) ∈ entries) (hl : (l, w) ∈ entries) (hp : ScalarAt v p s) (hq : ScalarAt w q t)
    (h : k ++ anchorPathOf p = l ++ anchorPathOf q) : k = l ∨ SlashClash (.object entries) := by
  rcases List.append_eq_append_iff.mp h with ⟨z, hz, hz'⟩ | ⟨z, hz, hz'⟩
  · cases z with
    | nil => exact .inl (by simpa using hz.symm)
    | cons c z =>
      cases head_anchorPathOf p c (by rw [hz']; rfl)
      rw [hz] at hl
      exact .inr (.here hk hl hp hq hz')
  · cases z with
    | nil => exact .inl (by simpa using hz)
    | cons c z =>
      cases head_anchorPathOf q c (by rw [hz']; rfl)
      rw [hz] at hk
      exact .inr (.here hl hk hq hp hz')

/-- Without a clash, an anchor has one leaf. -/
theorem ScalarAt.eq_of_anchor {left : Nat} {v s t : JsonValue} {p q : List PathSegment}
    (hw : Walkable left v) (hclash : ¬ SlashClash v) (hp : ScalarAt v p s) (hq : ScalarAt v q t)
    (h : anchorPathOf p = anchorPathOf q) : p = q ∧ s = t := by
  induction hp generalizing left q with
  | @scalar v hv =>
    cases hq with
    | scalar _ => exact ⟨rfl, rfl⟩
    | key _ _ => exact hv.elim
    | index _ _ => exact hv.elim
  | @key entries k w s p hk hp ih =>
    cases hq with
    | scalar hv => exact hv.elim
    | @key _ l w' _ q hl hq =>
      cases left with
      | zero => exact hw.elim
      | succ left =>
        have h : k ++ anchorPathOf p = l ++ anchorPathOf q := (List.cons.inj h).2
        rcases keys_eq_or_clash hk hl hp hq h with rfl | hc
        · cases value_of_key hw.1 hk hl
          have hrest := ih (hw.2 _ hk) (fun hc => hclash (.key hk hc)) hq
            (List.append_cancel_left h)
          exact ⟨by rw [hrest.1], hrest.2⟩
        · exact absurd hc hclash
  | @index items i w s p hi hp ih =>
    cases hq with
    | scalar hv => exact hv.elim
    | @index _ j w' _ q hj hq =>
      cases left with
      | zero => exact hw.elim
      | succ left =>
        obtain ⟨rfl, hpq⟩ := numbers_eq (List.cons.inj h).2
        cases hi.symm.trans hj
        have hmem := List.mem_of_getElem? hi
        have hrest := ih (hw.2 _ hmem) (fun hc => hclash (.index hmem hc)) hq hpq
        exact ⟨by rw [hrest.1], hrest.2⟩

/-- A clash gives two leaves the same anchor. -/
theorem SlashClash.leaves {v : JsonValue} (h : SlashClash v) : ∃ p q s t, ScalarAt v p s ∧
    ScalarAt v q t ∧ p ≠ q ∧ anchorPathOf p = anchorPathOf q := by
  induction h with
  | @here entries k r v w s t p q hk hl hp hq h =>
    refine ⟨.key k :: p, .key (k ++ '/' :: r) :: q, s, t, .key hk hp, .key hl hq, ?_, ?_⟩
    · intro heq
      simp at heq
    · rw [anchorPathOf_cons, anchorPathOf_cons, h]
      simp [PathSegment.pathPart]
  | @key entries x hx _ ih =>
    obtain ⟨p, q, s, t, hp, hq, hne, h⟩ := ih
    refine ⟨.key x.1 :: p, .key x.1 :: q, s, t, .key hx hp, .key hx hq, ?_, ?_⟩
    · exact fun heq => hne (List.cons.inj heq).2
    · rw [anchorPathOf_cons, anchorPathOf_cons, h]
  | @index items w hw _ ih =>
    obtain ⟨i, hi⟩ := List.getElem?_of_mem hw
    obtain ⟨p, q, s, t, hp, hq, hne, h⟩ := ih
    refine ⟨.index i :: p, .index i :: q, s, t, .index hi hp, .index hi hq, ?_, ?_⟩
    · exact fun heq => hne (List.cons.inj heq).2
    · rw [anchorPathOf_cons, anchorPathOf_cons, h]

end Clashes

section Walk

/-- The leaves of a value in the order of its walk. -/
def leaves : Nat → JsonValue → List (List PathSegment × JsonValue)
  | 0, _ => []
  | left + 1, .object entries => (sortedEntries entries).flatMap fun x =>
    (leaves left x.2).map fun l => (.key x.1 :: l.1, l.2)
  | left + 1, .array items => items.zipIdx.flatMap fun x =>
    (leaves left x.1).map fun l => (.index x.2 :: l.1, l.2)
  | _ + 1, scalar => [([], scalar)]

theorem mem_sortedEntries {entries : List (Str × JsonValue)} {x : Str × JsonValue} :
    x ∈ sortedEntries entries ↔ x ∈ entries := List.mem_insertionSort _

theorem mem_leaves {left : Nat} {v : JsonValue} (hw : Walkable left v)
    (l : List PathSegment × JsonValue) : l ∈ leaves left v ↔ ScalarAt v l.1 l.2 := by
  induction left generalizing v l with
  | zero => exact hw.elim
  | succ left ih =>
    cases v with
    | object entries =>
      simp only [leaves, List.mem_flatMap, List.mem_map, mem_sortedEntries]
      constructor
      · rintro ⟨x, hx, m, hm, rfl⟩
        exact .key hx ((ih (hw.2 x hx) m).mp hm)
      · intro h
        obtain ⟨p, s⟩ := l
        cases h with
        | scalar hv => exact hv.elim
        | @key _ k w _ p hk hp => exact ⟨(k, w), hk, (p, s), (ih (hw.2 _ hk) (p, s)).mpr hp, rfl⟩
    | array items =>
      simp only [leaves, List.mem_flatMap, List.mem_map]
      constructor
      · rintro ⟨x, hx, m, hm, rfl⟩
        have hi := List.mk_mem_zipIdx_iff_getElem?.mp hx
        exact .index hi ((ih (hw.2 _ (List.mem_of_getElem? hi)) m).mp hm)
      · intro h
        obtain ⟨p, s⟩ := l
        cases h with
        | scalar hv => exact hv.elim
        | @index _ i w _ p hi hp =>
          have hmem := List.mem_of_getElem? hi
          exact ⟨(w, i), List.mk_mem_zipIdx_iff_getElem?.mpr hi, (p, s),
            (ih (hw.2 _ hmem) (p, s)).mpr hp, rfl⟩
    | null | bool | number | string =>
      obtain ⟨p, s⟩ := l
      simp only [leaves, List.mem_singleton, Prod.mk.injEq]
      constructor
      · rintro ⟨rfl, rfl⟩
        exact .scalar trivial
      · intro h
        cases h
        exact ⟨rfl, rfl⟩

abbrev Before (p q : List PathSegment) : Prop := List.Lex PathSegment.Precedes p q

theorem pairwise_leaves {left : Nat} {v : JsonValue} (hw : Walkable left v) :
    (leaves left v).Pairwise fun l m => Before l.1 m.1 := by
  induction left generalizing v with
  | zero => exact hw.elim
  | succ left ih =>
    cases v with
    | object entries =>
      rw [leaves, List.pairwise_flatMap]
      constructor
      · intro x hx
        rw [List.pairwise_map]
        exact (ih (hw.2 x (mem_sortedEntries.mp hx))).imp fun h => .cons h
      · have hsorted : (sortedEntries entries).Pairwise fun x y => x.1 ≤ y.1 :=
          List.pairwise_insertionSort _ _
        have hkeys : ((sortedEntries entries).map Prod.fst).Nodup :=
          ((List.perm_insertionSort _ entries).map Prod.fst).nodup_iff.mpr hw.1
        have hne := List.pairwise_map.mp hkeys
        apply (hsorted.and hne).imp
        intro x y hxy l hl m hm
        obtain ⟨l, _, rfl⟩ := List.mem_map.mp hl
        obtain ⟨m, _, rfl⟩ := List.mem_map.mp hm
        exact .rel (.key (lt_of_le_of_ne hxy.1 hxy.2))
    | array items =>
      rw [leaves, List.pairwise_flatMap]
      constructor
      · intro x hx
        rw [List.pairwise_map]
        have hi := List.mk_mem_zipIdx_iff_getElem?.mp hx
        exact (ih (hw.2 _ (List.mem_of_getElem? hi))).imp fun h => .cons h
      · have hindices : (items.zipIdx.map Prod.snd).Pairwise (· < ·) := by
          rw [List.zipIdx_map_snd]
          exact List.pairwise_lt_range'
        apply (List.pairwise_map.mp hindices).imp
        intro x y hxy l hl m hm
        obtain ⟨l, _, rfl⟩ := List.mem_map.mp hl
        obtain ⟨m, _, rfl⟩ := List.mem_map.mp hm
        exact .rel (.index hxy)
    | null | bool | number | string => exact List.pairwise_singleton _ _

variable (lib : ValueLibrary)

/-- The block of a leaf. -/
def emitScalar (segments : List PathSegment) (out : ExtractOutput T)
    (l : List PathSegment × JsonValue) : ExtractOutput T :=
  emitLeaf out (sectionPathOf (segments ++ l.1)) (anchorPathOf (segments ++ l.1))
    (scalarToString lib l.2)

/-- The walk below a key or an index writes the leaves there. -/
theorem emitScalar_below (segments : List PathSegment) (c : PathSegment)
    (ls : List (List PathSegment × JsonValue)) (out : ExtractOutput T) :
    (ls.map fun l => (c :: l.1, l.2)).foldl (emitScalar lib segments) out =
      ls.foldl (emitScalar lib (segments ++ [c])) out := by
  rw [List.foldl_map]
  apply List.foldl_ext
  intro out l _
  simp only [emitScalar, List.append_assoc, List.singleton_append]

theorem walkValue_eq {left : Nat} {v : JsonValue} (hw : Walkable left v)
    (segments : List PathSegment) (out : ExtractOutput T) :
    walkValue lib left v segments out = (leaves left v).foldl (emitScalar lib segments) out := by
  induction left generalizing v segments out with
  | zero => exact hw.elim
  | succ left ih =>
    cases v with
    | object entries =>
      rw [walkValue, leaves, List.foldl_flatMap]
      apply List.foldl_ext
      intro out x hx
      rw [ih (hw.2 x (mem_sortedEntries.mp hx)), emitScalar_below]
    | array items =>
      simp only [walkValue, leaves, List.foldl_flatMap, if_neg (not_lt.mpr hw.1),
        List.take_of_length_le hw.1]
      apply List.foldl_ext
      intro out x hx
      have hi := List.mk_mem_zipIdx_iff_getElem?.mp hx
      rw [ih (hw.2 _ (List.mem_of_getElem? hi)), emitScalar_below]
    | null | bool | number | string =>
      simp only [walkValue, leaves, List.foldl_cons, List.foldl_nil, emitScalar, List.append_nil]

end Walk

section Documents

variable (lib : ValueLibrary)

/-- A leaf of a list of values, each with the path that its walk starts from. -/
def LeafOf (docs : List (List PathSegment × JsonValue)) (l : List PathSegment × JsonValue) : Prop :=
  ∃ d ∈ docs, ∃ p, ScalarAt d.2 p l.2 ∧ l.1 = d.1 ++ p

/-- One block was written for each leaf, in order, and different leaves have different anchors. -/
def AnchorsIdentify (docs : List (List PathSegment × JsonValue)) (out out' : ExtractOutput T) :
    Prop :=
  (∃ ls : List (List PathSegment × JsonValue), (∀ l, l ∈ ls ↔ LeafOf docs l) ∧
    ls.Pairwise (fun l m => Before l.1 m.1) ∧ out' = ls.foldl (emitScalar lib []) out) ∧
  ∀ l m, LeafOf docs l → LeafOf docs m → anchorPathOf l.1 = anchorPathOf m.1 → l = m

def walkDocs (docs : List (List PathSegment × JsonValue)) (out : ExtractOutput T) :
    ExtractOutput T := docs.foldl (fun out d => walkAll lib d.2 d.1 out) out

/-- The paths of an earlier and of a later record. -/
def Apart (p q : List PathSegment) : Prop := ∃ i j, i < j ∧ p = [.record i] ∧ q = [.record j]

theorem Apart.before {p q : List PathSegment} (h : Apart p q) (a b : List PathSegment) :
    Before (p ++ a) (q ++ b) := by
  obtain ⟨i, j, hij, rfl, rfl⟩ := h
  exact .rel (.record hij)

theorem Apart.anchor_ne {p q : List PathSegment} (h : Apart p q) (a b : List PathSegment) :
    anchorPathOf (p ++ a) ≠ anchorPathOf (q ++ b) := by
  obtain ⟨i, j, hij, rfl, rfl⟩ := h
  intro heq
  have := (numbers_eq (List.cons.inj heq).2).1
  omega

/-- The leaves of the values in the order of their walks. -/
def leavesOf (docs : List (List PathSegment × JsonValue)) : List (List PathSegment × JsonValue) :=
  docs.flatMap fun d => (leaves (MAX_NESTING_DEPTH + 1) d.2).map fun l => (d.1 ++ l.1, l.2)

variable {docs : List (List PathSegment × JsonValue)}
  (hw : ∀ d ∈ docs, Walkable (MAX_NESTING_DEPTH + 1) d.2)

include hw

theorem mem_leavesOf (l : List PathSegment × JsonValue) : l ∈ leavesOf docs ↔ LeafOf docs l := by
  simp only [leavesOf, List.mem_flatMap, List.mem_map]
  constructor
  · rintro ⟨d, hd, m, hm, rfl⟩
    exact ⟨d, hd, m.1, (mem_leaves (hw d hd) m).mp hm, rfl⟩
  · rintro ⟨d, hd, p, hp, hl⟩
    exact ⟨d, hd, (p, l.2), (mem_leaves (hw d hd) (p, l.2)).mpr hp, by rw [← hl]⟩

theorem walkDocs_eq (out : ExtractOutput T) :
    walkDocs lib docs out = (leavesOf docs).foldl (emitScalar lib []) out := by
  rw [walkDocs, leavesOf, List.foldl_flatMap]
  apply List.foldl_ext
  intro out d hd
  rw [List.foldl_map]
  exact walkValue_eq lib (hw d hd) d.1 out

variable (hseeds : docs.Pairwise fun d e => Apart d.1 e.1)

include hseeds

theorem pairwise_leavesOf : (leavesOf docs).Pairwise fun l m => Before l.1 m.1 := by
  rw [leavesOf, List.pairwise_flatMap]
  constructor
  · intro d hd
    rw [List.pairwise_map]
    exact (pairwise_leaves (hw d hd)).imp fun h => List.Lex.append_left _ h d.1
  · apply hseeds.imp
    intro d e hde l hl m hm
    obtain ⟨l, _, rfl⟩ := List.mem_map.mp hl
    obtain ⟨m, _, rfl⟩ := List.mem_map.mp hm
    exact hde.before l.1 m.1

omit hw in
/-- Leaves of different values have different anchors. -/
theorem same_doc {d e : List PathSegment × JsonValue} (hd : d ∈ docs) (he : e ∈ docs)
    {p q : List PathSegment} (h : anchorPathOf (d.1 ++ p) = anchorPathOf (e.1 ++ q)) : d = e := by
  by_contra hne
  have hapart : docs.Pairwise fun d e => ∀ p q, anchorPathOf (d.1 ++ p) ≠ anchorPathOf (e.1 ++ q) :=
    hseeds.imp fun h => h.anchor_ne
  have hsymm : Std.Symm fun d e : List PathSegment × JsonValue =>
      ∀ p q, anchorPathOf (d.1 ++ p) ≠ anchorPathOf (e.1 ++ q) :=
    ⟨fun _ _ hde p q heq => hde q p heq.symm⟩
  exact hapart.forall hd he hne p q h

theorem anchorsIdentify_iff (out : ExtractOutput T) :
    AnchorsIdentify lib docs out (walkDocs lib docs out) ↔ ∀ d ∈ docs, ¬ SlashClash d.2 := by
  constructor
  · intro h d hd hclash
    obtain ⟨p, q, s, t, hp, hq, hne, heq⟩ := hclash.leaves
    have hsame := h.2 (d.1 ++ p, s) (d.1 ++ q, t) ⟨d, hd, p, hp, rfl⟩ ⟨d, hd, q, hq, rfl⟩
      (by rw [anchorPathOf_append, anchorPathOf_append, heq])
    exact hne (List.append_cancel_left (Prod.mk.inj hsame).1)
  · intro h
    refine ⟨⟨leavesOf docs, mem_leavesOf hw, pairwise_leavesOf hw hseeds, walkDocs_eq lib hw out⟩, ?_⟩
    rintro ⟨_, s⟩ ⟨_, t⟩ ⟨d, hd, p, hp, rfl⟩ ⟨e, he, q, hq, rfl⟩ heq
    cases same_doc hseeds hd he heq
    rw [anchorPathOf_append, anchorPathOf_append] at heq
    obtain ⟨rfl, hst⟩ := hp.eq_of_anchor (hw d hd) (h d hd) hq (List.append_cancel_left heq)
    exact Prod.ext rfl hst

end Documents

section Records

variable (lib : ValueLibrary)

/-- The values of a stream from a record on. -/
def recordDocs (multiDoc : Bool) (values : List JsonValue) (i : Nat) :
    List (List PathSegment × JsonValue) :=
  (values.zipIdx i).map fun x => (if multiDoc then [.record x.2] else [], x.1)

theorem mem_recordDocs {multiDoc : Bool} {values : List JsonValue} {i : Nat}
    {d : List PathSegment × JsonValue} (h : d ∈ recordDocs multiDoc values i) : d.2 ∈ values := by
  obtain ⟨x, hx, rfl⟩ := List.mem_map.mp h
  exact List.fst_mem_of_mem_zipIdx hx

theorem exists_recordDocs (multiDoc : Bool) {values : List JsonValue} (i : Nat) {v : JsonValue}
    (h : v ∈ values) : ∃ d ∈ recordDocs multiDoc values i, d.2 = v := by
  rw [← List.zipIdx_map_fst i values] at h
  obtain ⟨x, hx, rfl⟩ := List.mem_map.mp h
  exact ⟨_, List.mem_map_of_mem hx, rfl⟩

theorem apart_recordDocs {multiDoc : Bool} {values : List JsonValue}
    (h : multiDoc = true ∨ values.length ≤ 1) (i : Nat) :
    (recordDocs multiDoc values i).Pairwise fun d e => Apart d.1 e.1 := by
  rcases h with rfl | h
  · have hindices : ((values.zipIdx i).map Prod.snd).Pairwise (· < ·) := by
      rw [List.zipIdx_map_snd]
      exact List.pairwise_lt_range'
    rw [recordDocs, List.pairwise_map]
    exact (List.pairwise_map.mp hindices).imp fun h => ⟨_, _, h, rfl, rfl⟩
  · match values, h with
    | [], _ => exact .nil
    | [v], _ => exact List.pairwise_singleton _ _

theorem recordDocs_cons (multiDoc : Bool) (v : JsonValue) (values : List JsonValue) (i : Nat) :
    recordDocs multiDoc (v :: values) i =
      (if multiDoc then [.record i] else [], v) :: recordDocs multiDoc values (i + 1) := rfl

theorem anchorsIdentify_records {multiDoc : Bool} {values : List JsonValue}
    (hw : ∀ v ∈ values, Walkable (MAX_NESTING_DEPTH + 1) v)
    (h : multiDoc = true ∨ values.length ≤ 1) (out : ExtractOutput T) :
    AnchorsIdentify lib (recordDocs multiDoc values 0) out
      (walkDocs lib (recordDocs multiDoc values 0) out) ↔ ∀ v ∈ values, ¬ SlashClash v := by
  rw [anchorsIdentify_iff lib (fun d hd => hw _ (mem_recordDocs hd)) (apart_recordDocs h 0)]
  constructor
  · intro hall v hv
    obtain ⟨d, hd, rfl⟩ := exists_recordDocs multiDoc 0 hv
    exact hall d hd
  · exact fun hall d hd => hall _ (mem_recordDocs hd)

/-- The value of a line, if it is not blank and can be parsed. -/
def jsonlValue (rawLine : Str) : Option JsonValue :=
  let line := rawLine.rdropWhile (· == '\r')
  if trim line = [] then none else lib.parseJson line

def jsonlValues (s : Str) : List JsonValue := (s.splitOn '\n').filterMap (jsonlValue lib)

theorem RecordState.line_eq (st : RecordState T) (rawLine : Str) :
    st.line lib rawLine = match jsonlValue lib rawLine with
      | some value => ⟨walkAll lib value [.record st.recordIndex] st.out, st.recordIndex + 1⟩
      | none => st := by
  unfold RecordState.line jsonlValue
  dsimp only
  split <;> rfl

theorem foldl_lines (lines : List Str) (st : RecordState T) :
    (lines.foldl (RecordState.line lib) st).out =
      walkDocs lib (recordDocs true (lines.filterMap (jsonlValue lib)) st.recordIndex) st.out := by
  induction lines generalizing st with
  | nil => rfl
  | cons rawLine lines ih =>
    rw [List.foldl_cons, ih, RecordState.line_eq]
    cases hv : jsonlValue lib rawLine with
    | none => rw [List.filterMap_cons_none hv]
    | some value =>
      rw [List.filterMap_cons_some hv, recordDocs_cons]
      rfl

theorem extractJsonl_eq (s : Str) : (extractJsonl lib s : ExtractOutput T) =
    walkDocs lib (recordDocs true (jsonlValues lib s) 0) .empty :=
  foldl_lines lib (s.splitOn '\n') ⟨.empty, 0⟩

/-- The values of the documents are walked one after the other. -/
theorem foldlM_yamlDocument {multiDoc : Bool} {docs : List Str} {i : Nat}
    {out out' : ExtractOutput T}
    (h : (docs.zipIdx i).foldlM (yamlDocument lib multiDoc) out = .ok out') :
    ∃ values, List.Forall₂ (fun doc v => lib.parseYaml doc = .ok v) docs values ∧
      out' = walkDocs lib (recordDocs multiDoc values i) out := by
  induction docs generalizing i out with
  | nil =>
    cases h
    exact ⟨[], .nil, rfl⟩
  | cons doc docs ih =>
    rw [List.zipIdx_cons, List.foldlM_cons] at h
    obtain ⟨out₁, hdoc, h⟩ := bind_eq_ok.mp h
    obtain ⟨values, hvalues, rfl⟩ := ih h
    unfold yamlDocument at hdoc
    split at hdoc
    · cases hdoc
    · rename_i value hvalue
      cases hdoc
      exact ⟨value :: values, .cons hvalue hvalues, rfl⟩

theorem extractYaml_eq {s : Str} {out : ExtractOutput T} (h : extractYaml lib s = .ok out) :
    ∃ values, List.Forall₂ (fun doc v => lib.parseYaml doc = .ok v)
      ((splitDocuments s).take MAX_YAML_DOCUMENTS) values ∧
      out = walkDocs lib (recordDocs (1 < (splitDocuments s).length) values 0) .empty :=
  foldlM_yamlDocument lib h

/-- The walk of a value, of the records of a file and of the documents of a stream. -/
theorem anchors_identify_unless_clash :
    (∀ (v : JsonValue) (segments : List PathSegment) (out : ExtractOutput T),
      Walkable (MAX_NESTING_DEPTH + 1) v →
      (AnchorsIdentify lib [(segments, v)] out (walkAll lib v segments out) ↔ ¬ SlashClash v)) ∧
    (∀ s : Str, (∀ v ∈ jsonlValues lib s, Walkable (MAX_NESTING_DEPTH + 1) v) →
      (AnchorsIdentify lib (recordDocs true (jsonlValues lib s) 0) .empty
        (extractJsonl lib s : ExtractOutput T) ↔ ∀ v ∈ jsonlValues lib s, ¬ SlashClash v)) ∧
    ∀ (s : Str) (out : ExtractOutput T), extractYaml lib s = .ok out →
      ∃ values, List.Forall₂ (fun doc v => lib.parseYaml doc = .ok v)
          ((splitDocuments s).take MAX_YAML_DOCUMENTS) values ∧
        ((∀ v ∈ values, Walkable (MAX_NESTING_DEPTH + 1) v) →
          (AnchorsIdentify lib (recordDocs (1 < (splitDocuments s).length) values 0) .empty out ↔
            ∀ v ∈ values, ¬ SlashClash v)) := by
  refine ⟨?_, ?_, ?_⟩
  · intro v segments out hw
    have hall : ∀ d ∈ [(segments, v)], Walkable (MAX_NESTING_DEPTH + 1) d.2 := by
      intro d hd
      cases List.mem_singleton.mp hd
      exact hw
    have h := anchorsIdentify_iff lib hall (List.pairwise_singleton _ _) out
    rw [List.forall_mem_singleton] at h
    exact h
  · intro s hw
    rw [extractJsonl_eq]
    exact anchorsIdentify_records lib hw (.inl rfl) .empty
  · intro s out h
    obtain ⟨values, hvalues, rfl⟩ := extractYaml_eq lib h
    refine ⟨values, hvalues, fun hw => anchorsIdentify_records lib hw ?_ .empty⟩
    have hlen := hvalues.length_eq
    rw [List.length_take] at hlen
    by_cases hmulti : 1 < (splitDocuments s).length
    · exact .inl (decide_eq_true hmulti)
    · exact .inr (by omega)

end Records

section Instances

/-- `{"a/b": 1, "a": {"b": 1}}` -/
def slashedKeys : JsonValue :=
  .object [("a/b".toList, .number ['1']), (['a'], .object [(['b'], .number ['1'])])]

theorem walkable_slashedKeys : Walkable (MAX_NESTING_DEPTH + 1) slashedKeys := by
  refine ⟨by decide, ?_⟩
  simp only [List.forall_mem_cons]
  refine ⟨trivial, ⟨by decide, ?_⟩, by simp⟩
  simp only [List.forall_mem_cons]
  exact ⟨trivial, by simp⟩

/-- Both leaves below `slashedKeys` have the anchor `/a/b` and the value `1`. -/
theorem slashed_keys_share_an_anchor : Walkable (MAX_NESTING_DEPTH + 1) slashedKeys ∧
    ¬ AnchorsIdentify plainValues [([], slashedKeys)] .empty
      (extractJson plainValues slashedKeys : ExtractOutput Nat) := by
  refine ⟨walkable_slashedKeys, fun h => ?_⟩
  have hflat : ScalarAt slashedKeys [.key "a/b".toList] (.number ['1']) :=
    .key List.mem_cons_self (.scalar trivial)
  have hdeep : ScalarAt slashedKeys [.key ['a'], .key ['b']] (.number ['1']) :=
    .key (List.mem_cons_of_mem _ List.mem_cons_self) (.key List.mem_cons_self (.scalar trivial))
  have hsame := h.2 (_, _) (_, _) ⟨_, List.mem_cons_self, _, hflat, rfl⟩
    ⟨_, List.mem_cons_self, _, hdeep, rfl⟩ (by decide)
  simp at hsame

/-- `{"a": 1}` -/
def plainObject : JsonValue := .object [(['a'], .number ['1'])]

theorem walkable_plainObject : Walkable (MAX_NESTING_DEPTH + 1) plainObject := by
  refine ⟨by decide, ?_⟩
  simp only [List.forall_mem_cons]
  exact ⟨trivial, by simp⟩

theorem not_slashClash_plainObject : ¬ SlashClash plainObject := by
  intro h
  cases h with
  | here hk hl _ _ _ =>
    simp only [List.mem_singleton, Prod.mk.injEq] at hk hl
    simp [hk.1] at hl
  | key hx hc =>
    cases List.mem_singleton.mp hx
    cases hc

theorem anchors_identify_plain_key : AnchorsIdentify plainValues [([], plainObject)] .empty
    (walkAll plainValues plainObject [] .empty : ExtractOutput Nat) :=
  ((anchors_identify_unless_clash plainValues).1 plainObject [] .empty walkable_plainObject).mpr
    not_slashClash_plainObject

end Instances

end LensLM
