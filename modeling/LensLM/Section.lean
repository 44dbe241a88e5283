import LensLM.SectionPath
import LensLM.Lib.Slots

/-!
# The document outline

`build_sections` rebuilds the heading tree from the joined trails that the heading blocks
carry.
-/

namespace LensLM

open ByteText Spans Outline

set_option autoImplicit false

structure Section where
  level : Nat
  ordinal : Nat
  title : Str
  charStart : Nat
  charEnd : Nat
deriving DecidableEq, Repr

def Section.span (s : Section) : Span := ⟨s.charStart, s.charEnd⟩

/-- Level, title and start of a heading, before the tree is rebuilt. -/
structure RawHeading where
  level : Nat
  title : Str
  charStart : Nat
deriving DecidableEq, Repr

/-- The trail's segment count, cast to a byte and clamped to 1..6. -/
def trailLevel (sectionPath : Str) : Nat := max 1 (min ((splitTrail sectionPath).length % 256) 6)

def rawHeading (b : Block) : Option RawHeading :=
  if b.blockType ≠ .heading ∨ b.sectionPath = [] then none
  else some ⟨trailLevel b.sectionPath, b.text, b.charStart⟩

/-- Counts one more sibling at the level and resets the deeper counters. -/
def bumpCounters (counters : List Nat) (level : Nat) : List Nat :=
  counters.mapIdx fun i n => if i < level then n else if i = level then n + 1 else 0

def sectionsFrom (docEnd : Nat) (counters : List Nat) : List RawHeading → List Section
  | [] => []
  | h :: rest =>
    let counters := bumpCounters counters h.level
    { level := h.level
      ordinal := counters.getD h.level 0
      title := h.title
      charStart := h.charStart
      charEnd := ((rest.find? fun k => k.level ≤ h.level).map RawHeading.charStart).getD docEnd }
      :: sectionsFrom docEnd counters rest

def docEnd (blocks : List Block) : Nat := (blocks.map Block.charEnd).foldl max 0

def buildSections (blocks : List Block) : List Section :=
  sectionsFrom (docEnd blocks) (List.replicate 7 0) (blocks.filterMap rawHeading)

/-- A part of a document: a heading, or a block of another type. -/
inductive DocPart where
  | heading (h : Heading)
  | other (b : Block) (notHeading : b.blockType ≠ .heading)

def DocPart.heading? : DocPart → Option Heading
  | .heading h => some h
  | .other _ _ => none

def headings (parts : List DocPart) : List Heading := parts.filterMap DocPart.heading?

/-- The blocks of a document: every heading is pushed first, and every block carries the
trail then in force. -/
def carryTrail (st : SectionPathStack) : List DocPart → List Block
  | [] => []
  | .heading h :: rest =>
    let st := st.push h.level h.title
    ⟨.heading, st.current, h.title, h.start, h.stop⟩ :: carryTrail st rest
  | .other b _ :: rest => { b with sectionPath := st.current } :: carryTrail st rest

/-- Headings in document order whose titles are told apart in a trail. -/
structure HeadingDoc where
  parts : List DocPart
  ordered : (headings parts).Pairwise fun a b => a.start < b.start
  filled : ∀ h ∈ headings parts, h.start < h.stop
  titled : ∀ h ∈ headings parts, h.title ≠ []
  separable : ∀ h ∈ headings parts, SeparatorFree h.title

def HeadingDoc.blocks (d : HeadingDoc) : List Block := carryTrail SectionPathStack.new d.parts

def HeadingDoc.headings (d : HeadingDoc) : List Heading := LensLM.headings d.parts

section Levels

theorem trailLevel_current {st : SectionPathStack} {chain : List Heading} (h : Tracks st chain)
    (hne : chain ≠ []) (htitles : ∀ k ∈ chain, SeparatorFree k.title) :
    trailLevel st.current = chain.length := by
  have hsplit : splitTrail st.current = chain.map Heading.title := by
    rw [SectionPathStack.current, h.titles]
    apply splitTrail_joinTrail
    · simpa using hne
    · intro t ht
      obtain ⟨k, hk, rfl⟩ := List.mem_map.mp ht
      exact htitles k hk
  have := h.length_le
  have := List.length_pos_of_ne_nil hne
  rw [trailLevel, hsplit, List.length_map]
  omega

/-- The raw headings carry the number of headings in force. -/
theorem rawHeadings_carryTrail {st : SectionPathStack} {chain : List Heading}
    (h : Tracks st chain) (parts : List DocPart)
    (hchain : ∀ k ∈ chain, k.title ≠ [] ∧ SeparatorFree k.title)
    (hparts : ∀ k ∈ headings parts, k.title ≠ [] ∧ SeparatorFree k.title) :
    (carryTrail st parts).filterMap rawHeading =
      (depthsFrom Heading.level chain (headings parts)).map fun p =>
        ⟨p.1, p.2.title, p.2.start⟩ := by
  induction parts generalizing st chain with
  | nil => rfl
  | cons part parts ih =>
    cases part with
    | other b hb =>
      have hnone : rawHeading { b with sectionPath := st.current } = none := by
        simp [rawHeading, hb]
      simp only [carryTrail]
      rw [List.filterMap_cons_none hnone]
      exact ih h hchain hparts
    | heading k =>
      have hpush := h.push k
      have hk := hparts k (by simp [headings, DocPart.heading?])
      have henter : ∀ m ∈ enter Heading.level chain k, m.title ≠ [] ∧ SeparatorFree m.title := by
        apply Slots.forall_mem_push
        · exact fun m hm => hchain m (mem_shallower.mp hm).1
        · exact hk
      have hne : enter Heading.level chain k ≠ [] := by simp [enter]
      have hcur : (st.push k.level k.title).current ≠ [] := by
        rw [SectionPathStack.current, hpush.titles]
        apply joinTrail_ne_nil
        · simpa using hne
        · intro t ht
          obtain ⟨m, hm, rfl⟩ := List.mem_map.mp ht
          exact (henter m hm).1
      have hlevel := trailLevel_current hpush hne fun m hm => (henter m hm).2
      have hsome : rawHeading ⟨.heading, (st.push k.level k.title).current, k.title, k.start,
          k.stop⟩ = some ⟨(enter Heading.level chain k).length, k.title, k.start⟩ := by
        simp [rawHeading, hcur, hlevel]
      have hrest := ih hpush henter fun m hm => hparts m (by
        simp only [headings, List.filterMap_cons, DocPart.heading?, List.mem_cons]
        exact Or.inr hm)
      simp only [carryTrail]
      rw [List.filterMap_cons_some hsome, hrest]
      simp [headings, DocPart.heading?, depthsFrom]

end Levels

section Counters

theorem exists_tracks (hs : List Heading) : ∃ st, Tracks st (inForce Heading.level hs) := by
  induction hs using List.reverseRecOn with
  | nil => exact ⟨_, tracks_new⟩
  | append_singleton pre h ih =>
    obtain ⟨st, hst⟩ := ih
    rw [inForce_concat]
    exact ⟨_, hst.push h⟩

theorem inForce_length_le (hs : List Heading) : (inForce Heading.level hs).length ≤ 6 := by
  obtain ⟨st, hst⟩ := exists_tracks hs
  exact hst.length_le

theorem bumpCounters_getD {counters : List Nat} {l : Nat} (hl : l < counters.length) (i : Nat) :
    (bumpCounters counters l).getD i 0 =
      if i < l then counters.getD i 0 else if i = l then counters.getD i 0 + 1 else 0 := by
  simp only [bumpCounters, List.getD_eq_getElem?_getD, List.getElem?_mapIdx]
  cases hi : counters[i]? with
  | none =>
    have := List.getElem?_eq_none_iff.mp hi
    rw [if_neg (by omega : ¬ i = l)]
    simp
  | some n => rfl

/-- Each counter is the number of children of the heading in force one level above. -/
structure Counts (pre : List Heading) (counters : List Nat) : Prop where
  size : counters.length = 7
  opened : ∀ d, d ≤ (inForce Heading.level pre).length → counters.getD (d + 1) 0 =
    (parents Heading.level pre).count (ancestor (inForce Heading.level pre) d)
  closed : ∀ d, (inForce Heading.level pre).length < d → counters.getD (d + 1) 0 = 0

theorem counts_new : Counts [] (List.replicate 7 0) := by
  refine ⟨rfl, ?_, ?_⟩
  · intro d hd
    obtain rfl : d = 0 := by simpa [inForce] using hd
    rfl
  · intro d _
    rw [List.getD_eq_getElem?_getD, List.getElem?_replicate]
    split <;> rfl

/-- The chain above a heading is the chain in force, cut at the heading's depth. -/
theorem shallower_eq_take (pre : List Heading) (h : Heading) :
    shallower Heading.level (inForce Heading.level pre) h =
      (inForce Heading.level pre).take
        (shallower Heading.level (inForce Heading.level pre) h).length :=
  List.prefix_iff_eq_take.mp (shallower_initial (inForce_ascends pre) h)

theorem Counts.bump {pre : List Heading} {counters : List Nat} (h : Counts pre counters)
    (k : Heading) (hk : k ∉ pre) :
    Counts (pre ++ [k]) (bumpCounters counters
      (enter Heading.level (inForce Heading.level pre) k).length) := by
  have htake := shallower_eq_take pre k
  have hle : (shallower Heading.level (inForce Heading.level pre) k).length ≤
      (inForce Heading.level pre).length := (shallower_initial (inForce_ascends pre) k).length_le
  have h6 := inForce_length_le (pre ++ [k])
  have hasc : Ascends Heading.level (inForce Heading.level pre) := inForce_ascends pre
  have hparent : parentOf Heading.level pre k = ancestor (inForce Heading.level pre)
      (shallower Heading.level (inForce Heading.level pre) k).length := by
    rw [parentOf, ancestor, ← htake]
  rw [inForce_concat] at h6
  generalize hm : (shallower Heading.level (inForce Heading.level pre) k).length = m at *
  have hlen : (enter Heading.level (inForce Heading.level pre) k).length = m + 1 := by
    simp [enter, hm]
  rw [hlen] at h6 ⊢
  have hget : ∀ i, _ = _ := bumpCounters_getD (l := m + 1) (show m + 1 < counters.length by
    rw [h.size]
    omega)
  refine ⟨by simp [bumpCounters, h.size], ?_, ?_⟩
  · intro d hd
    rw [inForce_concat, hlen] at hd
    rw [inForce_concat, parents_concat, hparent, List.count_append, hget]
    by_cases hdm : d ≤ m
    · have hanc : ancestor (enter Heading.level (inForce Heading.level pre) k) d =
          ancestor (inForce Heading.level pre) d := by
        rw [ancestor, enter, htake, List.take_append_of_le_length (by simp; omega),
          List.take_take, Nat.min_eq_left hdm, ancestor]
      rw [hanc, ← h.opened d (by omega)]
      by_cases hlt : d < m
      · have hne := ancestor_injective hasc hlt hle
        rw [if_pos (by omega), List.count_singleton]
        simp [hne.symm]
      · obtain rfl : d = m := by omega
        simp
    · obtain rfl : d = m + 1 := by omega
      have hanc : ancestor (enter Heading.level (inForce Heading.level pre) k) (m + 1) =
          some k := by
        rw [ancestor, List.take_of_length_le (by omega), enter, List.getLast?_concat]
      have hnotin : some k ∉ parents Heading.level pre := fun hp => hk (mem_of_mem_parents hp)
      have hnot : ancestor (inForce Heading.level pre) m ≠ some k := by
        intro heq
        exact hk (mem_of_parentOf (hparent.trans heq))
      rw [hanc, List.count_eq_zero_of_not_mem hnotin, List.count_singleton, if_neg (by omega),
        if_neg (by omega)]
      simp [hnot]
  · intro d hd
    rw [inForce_concat, hlen] at hd
    rw [hget, if_neg (by omega), if_neg (by omega)]

theorem Counts.ordinal {pre : List Heading} {counters : List Nat} (h : Counts pre counters)
    (k : Heading) :
    (bumpCounters counters (enter Heading.level (inForce Heading.level pre) k).length).getD
      (enter Heading.level (inForce Heading.level pre) k).length 0 =
      1 + (parents Heading.level pre).count (parentOf Heading.level pre k) := by
  have htake := shallower_eq_take pre k
  have hle : (shallower Heading.level (inForce Heading.level pre) k).length ≤
      (inForce Heading.level pre).length := (shallower_initial (inForce_ascends pre) k).length_le
  have h6 := inForce_length_le (pre ++ [k])
  rw [inForce_concat] at h6
  rw [bumpCounters_getD (by rw [h.size]; omega), if_neg (by omega), if_pos rfl]
  simp only [enter, List.length_append, List.length_singleton]
  rw [h.opened _ hle, parentOf, ancestor, ← htake, Nat.add_comm]

end Counters

section Tree

/-- The section of a heading that stands between `pre` and `post`. -/
structure SectionEntry (pre : List Heading) (h : Heading) (post : List Heading) (docEnd : Nat)
    (sections : List Section) (s : Section) : Prop where
  title : s.title = h.title
  start : s.charStart = h.start
  stop : s.charEnd = stopAt Heading.level Heading.start docEnd h post
  level : s.level = (inForce Heading.level (pre ++ [h])).length
  ordinal : s.ordinal =
    1 + (parents Heading.level pre).count (parentOf Heading.level pre h)
  enclosing : ((sections.take pre.length).filter fun t => s.span.Within t.span).map
      Section.charStart =
    (shallower Heading.level (inForce Heading.level pre) h).map Heading.start
  nearest : ((sections.take pre.length).filter fun t => s.span.Within t.span).getLast?.map
      Section.charStart = (parentOf Heading.level pre h).map Heading.start

/-- The sections form the heading tree of the document. -/
structure HeadingTree (hs : List Heading) (docEnd : Nat) (sections : List Section) : Prop where
  size : sections.length = hs.length
  entry : ∀ pre h post, hs = pre ++ h :: post →
    ∃ s, sections[pre.length]? = some s ∧ SectionEntry pre h post docEnd sections s
  laminar : Laminar (sections.map Section.span)

def rawOf (p : Nat × Heading) : RawHeading := ⟨p.1, p.2.title, p.2.start⟩

/-- The section that the loop builds for a heading after `pre` and before `post`. -/
def sectionAt (docEnd : Nat) (pre : List Heading) (h : Heading) (post : List Heading) :
    Section where
  level := (enter Heading.level (inForce Heading.level pre) h).length
  ordinal := 1 + (parents Heading.level pre).count (parentOf Heading.level pre h)
  title := h.title
  charStart := h.start
  charEnd := stopAt Heading.level Heading.start docEnd h post

def sectionsAfter (docEnd : Nat) (pre : List Heading) : List Heading → List Section
  | [] => []
  | h :: post => sectionAt docEnd pre h post :: sectionsAfter docEnd (pre ++ [h]) post

/-- The next section that is no deeper starts at the next heading of at most the level. -/
theorem find_rawOf (docEnd : Nat) (pre : List Heading) (h : Heading) (post : List Heading) :
    ((((depthsFrom Heading.level (enter Heading.level (inForce Heading.level pre) h) post).map
      rawOf).find? fun k =>
        k.level ≤ (enter Heading.level (inForce Heading.level pre) h).length).map
      RawHeading.charStart).getD docEnd = stopAt Heading.level Heading.start docEnd h post := by
  have hasc : Ascends Heading.level (enter Heading.level (inForce Heading.level pre) h) :=
    (inForce_ascends pre).enter h
  have hfind : Option.map Prod.snd _ = post.find? _ := find_depth hasc
  rw [stopAt, ← hfind, List.find?_map, Option.map_map, Option.map_map]
  simp only [enter, List.length_append, List.length_singleton]
  rfl

theorem sectionsFrom_eq {docEnd : Nat} {pre hs : List Heading} {counters : List Nat}
    (hc : Counts pre counters)
    (hord : (pre ++ hs).Pairwise fun a b => a.start < b.start) :
    sectionsFrom docEnd counters
      ((depthsFrom Heading.level (inForce Heading.level pre) hs).map rawOf) =
      sectionsAfter docEnd pre hs := by
  induction hs generalizing pre counters with
  | nil => rfl
  | cons h post ih =>
    have hnot : h ∉ pre := by
      intro hmem
      have := (List.pairwise_append.mp hord).2.2 h hmem h List.mem_cons_self
      omega
    have hrest := ih (hc.bump h hnot) (by simpa using hord)
    rw [inForce_concat] at hrest
    simp only [depthsFrom, List.map_cons, sectionsFrom, sectionsAfter]
    congr 1
    simp only [rawOf, sectionAt, Section.mk.injEq, true_and]
    exact ⟨hc.ordinal h, find_rawOf docEnd pre h post⟩

theorem sectionsAfter_spans {docEnd : Nat} {pre hs : List Heading} :
    (sectionsAfter docEnd pre hs).map Section.span =
      spans Heading.level Heading.start docEnd hs := by
  induction hs generalizing pre with
  | nil => rfl
  | cons h hs ih => simp [sectionsAfter, spans, ih, Section.span, sectionAt]

theorem sectionsAfter_getElem {docEnd : Nat} {before pre post : List Heading} {h : Heading} :
    (sectionsAfter docEnd before (pre ++ h :: post))[pre.length]? =
      some (sectionAt docEnd (before ++ pre) h post) := by
  induction pre generalizing before with
  | nil => simp [sectionsAfter]
  | cons k pre ih =>
    simp only [List.cons_append, sectionsAfter, List.length_cons, List.getElem?_cons_succ]
    rw [ih]
    simp

theorem sectionsAfter_headingTree {docEnd : Nat} {hs : List Heading}
    (hord : hs.Pairwise fun a b => a.start < b.start) (hdoc : ∀ h ∈ hs, h.start < docEnd) :
    HeadingTree hs docEnd (sectionsAfter docEnd [] hs) where
  size := by
    have hspans : (sectionsAfter docEnd [] hs).map Section.span =
        spans Heading.level Heading.start docEnd hs := sectionsAfter_spans
    simpa using congrArg List.length hspans
  entry := by
    intro pre h post heq
    subst heq
    have hspans : (sectionsAfter docEnd [] (pre ++ h :: post)).map Section.span =
        spans Heading.level Heading.start docEnd (pre ++ h :: post) := sectionsAfter_spans
    have henc : _ = (shallower Heading.level (inForce Heading.level pre) h).map Heading.start :=
      enclosing_spans hord hdoc
    rw [← hspans, ← List.map_take, List.filter_map, List.map_map] at henc
    refine ⟨_, sectionsAfter_getElem, rfl, rfl, rfl, ?_, rfl, henc, ?_⟩
    · rw [inForce_concat]
      rfl
    · rw [← List.getLast?_map, parentOf, ← List.getLast?_map]
      exact congrArg List.getLast? henc
  laminar := by
    rw [sectionsAfter_spans]
    exact spans_laminar hord hdoc

theorem le_docEnd {blocks : List Block} {b : Block} (hb : b ∈ blocks) :
    b.charEnd ≤ docEnd blocks := by
  have hmono : ∀ (l : List Nat) (m : Nat), m ≤ l.foldl max m ∧ ∀ n ∈ l, n ≤ l.foldl max m := by
    intro l
    induction l with
    | nil => simp
    | cons a l ih =>
      intro m
      have := ih (max m a)
      simp only [List.foldl_cons, List.mem_cons]
      refine ⟨by omega, ?_⟩
      intro n hn
      rcases hn with rfl | hn
      · omega
      · exact this.2 n hn
  exact (hmono _ 0).2 _ (List.mem_map_of_mem hb)

theorem exists_headingBlock (st : SectionPathStack) {parts : List DocPart} {h : Heading}
    (hh : h ∈ headings parts) : ∃ b ∈ carryTrail st parts, b.charEnd = h.stop := by
  induction parts generalizing st with
  | nil => simp [headings] at hh
  | cons part parts ih =>
    cases part with
    | other b hb =>
      obtain ⟨b', hb', heq⟩ := ih st (by simpa [headings, DocPart.heading?] using hh)
      exact ⟨b', List.mem_cons_of_mem _ hb', heq⟩
    | heading k =>
      simp only [headings, List.filterMap_cons, DocPart.heading?, List.mem_cons] at hh
      rcases hh with rfl | hh
      · exact ⟨_, List.mem_cons_self, rfl⟩
      · obtain ⟨b', hb', heq⟩ := ih (st.push k.level k.title) hh
        exact ⟨b', List.mem_cons_of_mem _ hb', heq⟩

end Tree

end LensLM
