import LensLM.CitationChips

/-!
# Chips that are injected again

Each run over a rendered answer first puts the text of the chips of the run before back. A chip keeps
its marker, but not the title behind the marker that it has swallowed.
-/

namespace LensLM

open ByteText

set_option autoImplicit false

section Tree

/-- A node of the document with its next siblings. -/
inductive Content where
  | nil
  | text (t : Str) (next : Content)
  | chip (c : Chip) (next : Content)
  | element (tagName : String) (children next : Content)
deriving DecidableEq, Repr

namespace Content

/-- The fragment in place of a text node. -/
def replaceWith (next : Content) : List Fragment → Content
  | [] => next
  | .text t :: frag => .text t (replaceWith next frag)
  | .chip c :: frag => .chip c (replaceWith next frag)

/-- `querySelectorAll('button.citation-chip')`. -/
def chips : Content → List Chip
  | .nil => []
  | .text _ next => next.chips
  | .chip c next => c :: next.chips
  | .element _ children next => children.chips ++ next.chips

/-- Text in front of nodes that are normalized. -/
def mergeText (t : Str) : Content → Content
  | .text u next => .text (t ++ u) next
  | next => if t.isEmpty then next else .text t next

/-- No text nodes side by side, and no empty ones. -/
def normalize : Content → Content
  | .nil => .nil
  | .text t next => mergeText t next.normalize
  | .chip c next => .chip c next.normalize
  | .element tagName children next => .element tagName children.normalize next.normalize

def unchip : Content → Content
  | .nil => .nil
  | .text t next => .text t next.unchip
  | .chip c next => .text c.marker next.unchip
  | .element tagName children next => .element tagName children.unchip next.unchip

def restoreChips (container : Content) : Content :=
  if container.chips.length > 0 then container.unchip.normalize else container.unchip

variable (resolve : Nat → Option CitationTarget)

def enhance (ancestors : List String) : Content → Content
  | .nil => .nil
  | .text t next =>
    (next.enhance ancestors).replaceWith
      (if acceptNode ⟨ancestors, t⟩ then enhanceText resolve t else [.text t])
  | .chip c next => .chip c (next.enhance ancestors)
  | .element tagName children next =>
    .element tagName (children.enhance (tagName :: ancestors)) (next.enhance ancestors)

def enhanceCitations (container : Content) : Content := container.restoreChips.enhance resolve []

/-- The text nodes in document order. -/
def textNodes (ancestors : List String) : Content → List TextNode
  | .nil => []
  | .text t next => ⟨ancestors, t⟩ :: next.textNodes ancestors
  | .chip _ next => next.textNodes ancestors
  | .element tagName children next =>
    children.textNodes (tagName :: ancestors) ++ next.textNodes ancestors

end Content

/-- Parsed markup: it has no chips, and no two of its text nodes stand side by side. -/
structure Container where
  content : Content
  chipless : content.chips = []
  merged : content.normalize = content

end Tree

section Markup

/-- What is left of a text after its chips have been put back. -/
def markup : List Fragment → Str
  | [] => []
  | .text t :: frag => t ++ markup frag
  | .chip c :: frag => c.marker ++ markup frag

theorem markup_append (a b : List Fragment) : markup (a ++ b) = markup a ++ markup b := by
  induction a with
  | nil => rfl
  | cons x a ih => cases x <;> simp [markup, ih]

/-- The matches follow each other in the text, from an index on. -/
def MarkersAt (t : Str) : Nat → List MarkerMatch → Prop
  | _, [] => True
  | i, m :: ms => i ≤ m.index ∧ m.lead = leadOf (t.drop m.index) ∧
      m.whole <+: t.drop m.index ∧ MarkersAt t (m.index + m.whole.length) ms

variable {t : Str} {i j : Nat} {ms : List MarkerMatch}

theorem MarkersAt.mono (h : MarkersAt t j ms) (hij : i ≤ j) : MarkersAt t i ms := by
  cases ms with
  | nil => trivial
  | cons m ms => exact ⟨Nat.le_trans hij h.1, h.2⟩

theorem matchesFrom_at (t : Str) {s : Str} (hs : t.drop i = s) :
    MarkersAt t i (matchesFrom i s) := by
  fun_induction matchesFrom i s with
  | case1 i => trivial
  | case2 i c s m rest hmatch ih =>
    obtain ⟨hlead, hbracket, hd, -⟩ := matchHere_eq_some.mp hmatch
    have hindex : m.index = i := by
      unfold MarkerMatch.index
      omega
    have hwhole : c :: s = m.whole ++ rest := by
      have happend : m.whole ++ rest = m.lead ++ '[' :: (m.digits ++ ']' :: rest) := by
        simp [MarkerMatch.whole]
      rw [happend, ← (bracketedDigits_eq_some.mp hd).1, hlead]
      exact (leadOf_append_drop (c :: s)).symm
    have hrest : t.drop (m.index + m.whole.length) = rest := by
      rw [hindex, ← List.drop_drop, hs, hwhole, List.drop_left]
    refine ⟨by omega, ?_, ?_, ih hrest⟩
    · rw [hindex, hs, hlead]
    · rw [hindex, hs, hwhole]
      exact List.prefix_append _ _
  | case3 i c s hmatch ih =>
    apply MarkersAt.mono _ (Nat.le_succ i)
    apply ih
    rw [← List.drop_drop, hs, List.drop_one, List.tail_cons]

theorem matches_at (t : Str) : MarkersAt t 0 (matchesFrom 0 t) := matchesFrom_at t rfl

theorem titleEchoLength_le (after title : Str) : titleEchoLength after title ≤ after.length := by
  have hecho : ∀ base : Str, base.isPrefixOf after = true →
      (if (base ++ [':']).isPrefixOf after then base.length + 1 else base.length) ≤
        after.length := by
    intro base hbase
    split
    · rename_i hcolon
      have hlen := (List.isPrefixOf_iff_prefix.mp hcolon).length_le
      rw [List.length_append, List.length_singleton] at hlen
      exact hlen
    · exact (List.isPrefixOf_iff_prefix.mp hbase).length_le
  simp only [titleEchoLength]
  split
  · exact Nat.zero_le _
  · split
    · next hspaced => exact hecho _ hspaced
    · split
      · next hplain => exact hecho _ hplain
      · exact Nat.zero_le _

theorem titleEchoLength_head {after title : Str} (h : titleEchoLength after title ≠ 0) :
    (∃ rest, after = ' ' :: '(' :: rest) ∨ ∃ rest, after = '(' :: rest := by
  simp only [titleEchoLength] at h
  split at h
  · exact absurd rfl h
  · split at h
    · next hspaced =>
      obtain ⟨rest, hrest⟩ := List.isPrefixOf_iff_prefix.mp hspaced
      exact .inl ⟨title ++ [')'] ++ rest, hrest.symm⟩
    · split at h
      · next hplain =>
        obtain ⟨rest, hrest⟩ := List.isPrefixOf_iff_prefix.mp hplain
        exact .inr ⟨title ++ [')'] ++ rest, hrest.symm⟩
      · exact absurd rfl h

/-- No marker begins where an echoed title does. -/
theorem MarkersAt.after_echo {title : Str} (h : MarkersAt t i ms)
    (hecho : titleEchoLength (t.drop i) title ≠ 0) : MarkersAt t (i + 1) ms := by
  cases ms with
  | nil => trivial
  | cons m ms =>
    obtain ⟨hle, hlead, hwhole, hlater⟩ := h
    refine ⟨?_, hlead, hwhole, hlater⟩
    by_contra hgt
    obtain rfl : i = m.index := by omega
    obtain ⟨post, hpost⟩ := hwhole
    rcases titleEchoLength_head hecho with ⟨rest, hrest⟩ | ⟨rest, hrest⟩
    · rw [hrest] at hpost hlead
      rw [MarkerMatch.whole, hlead] at hpost
      simp [leadOf] at hpost
    · rw [hrest] at hpost hlead
      rw [MarkerMatch.whole, hlead] at hpost
      simp [leadOf] at hpost

end Markup

section Echo

variable {resolve : Nat → Option CitationTarget} {t : Str}

/-- No marker that is resolved is followed by the title of its target. -/
def Unechoed (resolve : Nat → Option CitationTarget) (t : Str) (ms : List MarkerMatch) : Prop :=
  ∀ m ∈ ms, ∀ c, chipOf resolve m = some c →
    titleEchoLength (t.drop (m.index + m.whole.length)) c.target.title = 0

theorem marker_none {m : MarkerMatch} (st : ChipState) (h : chipOf resolve m = none) :
    st.marker resolve t m = st := by
  unfold chipOf at h
  unfold ChipState.marker
  cases hn : ordinalOf m.digits with
  | none => rfl
  | some n =>
    simp only [hn, Option.bind_some, Option.map_eq_none_iff] at h
    simp only [h]

theorem marker_some {m : MarkerMatch} {c : Chip} (st : ChipState) (h : chipOf resolve m = some c) :
    st.marker resolve t m = ⟨m.index + m.whole.length +
        titleEchoLength (t.drop (m.index + m.whole.length)) c.target.title,
      st.frag ++ [.text ((t.take m.index).drop st.lastIndex), .chip c], true⟩ := by
  obtain ⟨hn, hc, hmarker, hbracket⟩ := chipOf_eq_some.mp h
  obtain ⟨ordinal, marker, bracket, target⟩ := c
  simp only at hn hc hmarker hbracket
  subst hmarker hbracket
  unfold ChipState.marker
  simp only [hn, hc]

theorem markup_chip (frag : List Fragment) (before : Str) (c : Chip) :
    markup (frag ++ [.text before, .chip c]) = markup frag ++ before ++ c.marker := by
  simp [markup_append, markup]

/-- The text up to the last chip can be put back. -/
def MarkupKept (t : Str) (st : ChipState) : Prop := markup st.frag = t.take st.lastIndex

/-- Some of the text before an index cannot be put back. -/
def MarkupLost (i : Nat) (st : ChipState) : Prop :=
  (markup st.frag).length < i ∧ (markup st.frag).length < st.lastIndex

theorem MarkersAt.le_length {i : Nat} {m : MarkerMatch} {ms : List MarkerMatch}
    (h : MarkersAt t i (m :: ms)) : m.index + m.whole.length ≤ t.length := by
  have hlen := h.2.2.1.length_le
  rw [List.length_drop] at hlen
  have hpos : 0 < m.whole.length := by
    simp only [MarkerMatch.whole, List.length_append, List.length_cons]
    omega
  omega

theorem MarkupKept.marker {i : Nat} {st : ChipState} {m : MarkerMatch} {ms : List MarkerMatch}
    {c : Chip} (h : MarkupKept t st) (hms : MarkersAt t i (m :: ms)) (hi : st.lastIndex ≤ i)
    (hc : chipOf resolve m = some c) :
    markup (st.marker resolve t m).frag = t.take (m.index + m.whole.length) := by
  obtain ⟨hle, -, ⟨post, hpost⟩, -⟩ := hms
  have hbefore : t.take st.lastIndex ++ (t.take m.index).drop st.lastIndex = t.take m.index := by
    have hsplit := List.take_append_drop st.lastIndex (t.take m.index)
    rwa [List.take_take, Nat.min_eq_left (by omega)] at hsplit
  rw [marker_some st hc, markup_chip, h, hbefore, (chipOf_eq_some.mp hc).2.2.1, List.take_add,
    ← hpost, List.take_left]

theorem MarkupLost.marker {i : Nat} {st : ChipState} {m : MarkerMatch} {ms : List MarkerMatch}
    (h : MarkupLost i st) (hms : MarkersAt t i (m :: ms)) :
    MarkupLost (m.index + m.whole.length) (st.marker resolve t m) := by
  have hle := hms.1
  obtain ⟨hi, hlast⟩ := h
  cases hc : chipOf resolve m with
  | none =>
    rw [marker_none st hc]
    exact ⟨by omega, hlast⟩
  | some c =>
    have hlen := hms.le_length
    rw [marker_some st hc]
    unfold MarkupLost
    simp only [markup_chip, List.length_append, List.length_drop, List.length_take,
      (chipOf_eq_some.mp hc).2.2.1]
    omega

theorem MarkupLost.foldl {i : Nat} {st : ChipState} {ms : List MarkerMatch} (h : MarkupLost i st)
    (hms : MarkersAt t i ms) (hi : i ≤ t.length) :
    MarkupLost t.length (ms.foldl (ChipState.marker resolve t) st) := by
  induction ms generalizing i st with
  | nil => exact ⟨Nat.lt_of_lt_of_le h.1 hi, h.2⟩
  | cons m ms ih => exact ih (h.marker hms) hms.2.2.2 hms.le_length

theorem MarkupKept.foldl {i : Nat} {st : ChipState} {ms : List MarkerMatch} (h : MarkupKept t st)
    (hms : MarkersAt t i ms) (hi : st.lastIndex ≤ i) (hno : Unechoed resolve t ms) :
    MarkupKept t (ms.foldl (ChipState.marker resolve t) st) := by
  induction ms generalizing i st with
  | nil => exact h
  | cons m ms ih =>
    have hlater : Unechoed resolve t ms := by
      intro m' hm'
      exact hno m' (List.mem_cons_of_mem _ hm')
    rw [List.foldl_cons]
    cases hc : chipOf resolve m with
    | none =>
      rw [marker_none st hc]
      have hle := hms.1
      exact ih h hms.2.2.2 (by omega) hlater
    | some c =>
      have hkept := h.marker hms hi hc
      have hecho := hno m (by simp) c hc
      apply ih _ hms.2.2.2 _ hlater
      · rw [MarkupKept, hkept, marker_some st hc, hecho, Nat.add_zero]
      · rw [marker_some st hc, hecho, Nat.add_zero]

theorem MarkupKept.lost {i : Nat} {st : ChipState} {ms : List MarkerMatch} (h : MarkupKept t st)
    (hms : MarkersAt t i ms) (hi : st.lastIndex ≤ i) (hecho : ¬ Unechoed resolve t ms) :
    MarkupLost t.length (ms.foldl (ChipState.marker resolve t) st) := by
  induction ms generalizing i st with
  | nil =>
    apply absurd _ hecho
    intro m hm
    cases hm
  | cons m ms ih =>
    rw [List.foldl_cons]
    cases hc : chipOf resolve m with
    | none =>
      rw [marker_none st hc]
      have hle := hms.1
      apply ih h hms.2.2.2 (by omega)
      intro hlater
      apply hecho
      intro m' hm' c' hc'
      cases List.mem_cons.mp hm' with
      | inl heq =>
        rw [heq, hc] at hc'
        cases hc'
      | inr hmem => exact hlater m' hmem c' hc'
    | some c =>
      have hkept := h.marker hms hi hc
      by_cases hzero : titleEchoLength (t.drop (m.index + m.whole.length)) c.target.title = 0
      · apply ih _ hms.2.2.2
        · rw [marker_some st hc, hzero, Nat.add_zero]
        · intro hlater
          apply hecho
          intro m' hm' c' hc'
          cases List.mem_cons.mp hm' with
          | inl heq =>
            rw [heq, hc] at hc'
            rw [heq, ← Option.some.inj hc', hzero]
          | inr hmem => exact hlater m' hmem c' hc'
        · rw [MarkupKept, hkept, marker_some st hc, hzero, Nat.add_zero]
      · have hle := titleEchoLength_le (t.drop (m.index + m.whole.length)) c.target.title
        rw [List.length_drop] at hle
        have hend := hms.le_length
        refine MarkupLost.foldl ?_ (hms.2.2.2.after_echo hzero) (by omega)
        rw [MarkupLost, hkept, List.length_take, Nat.min_eq_left hend, marker_some st hc]
        simp only
        omega

theorem start_kept (t : Str) : MarkupKept t ⟨0, [], false⟩ := by simp [MarkupKept, markup]

theorem markup_matched {st : ChipState} (h : MarkupKept t st) :
    markup (st.frag ++ [.text (t.drop st.lastIndex)]) = t := by
  rw [markup_append, h]
  simp [markup]

/-- Without echoed titles the text comes back as it was. -/
theorem markup_enhanceText (h : Unechoed resolve t (matchesFrom 0 t)) :
    markup (enhanceText resolve t) = t := by
  simp only [enhanceText]
  split
  · exact markup_matched ((start_kept t).foldl (matches_at t) (Nat.le_refl 0) h)
  · simp [markup]

/-- With an echoed title it comes back shorter. -/
theorem markup_enhanceText_lt (h : ¬ Unechoed resolve t (matchesFrom 0 t)) :
    (markup (enhanceText resolve t)).length < t.length := by
  have hlost := (start_kept t).lost (matches_at t) (Nat.le_refl 0) h
  have hmatched : ((matchesFrom 0 t).foldl (ChipState.marker resolve t) ⟨0, [], false⟩).matched =
      true := by
    rw [(foldl_marker_chips t (matchesFrom 0 t) ⟨0, [], false⟩).2, Bool.false_or, List.any_eq_true]
    by_contra hnone
    apply h
    intro m hm c hc
    exact absurd ⟨m, hm, by rw [hc]; rfl⟩ hnone
  simp only [enhanceText, hmatched, if_true]
  rw [markup_append, List.length_append]
  simp only [markup, List.append_nil, List.length_drop]
  have h1 := hlost.1
  have h2 := hlost.2
  omega

theorem enhanceText_chipless (h : chipsOf (enhanceText resolve t) = []) :
    enhanceText resolve t = [.text t] := by
  rw [chipsOf_enhanceText, List.filterMap_eq_nil_iff] at h
  simp only [enhanceText]
  rw [if_neg]
  rw [(foldl_marker_chips t (matchesFrom 0 t) ⟨0, [], false⟩).2, Bool.false_or]
  simp only [List.any_eq_true, not_exists, not_and]
  intro m hm
  rw [h m hm]
  decide

end Echo

namespace Content

variable {resolve : Nat → Option CitationTarget} {ancestors : List String}

/-- The number of characters. -/
def size : Content → Nat
  | .nil => 0
  | .text t next => t.length + next.size
  | .chip _ next => next.size
  | .element _ children next => children.size + next.size

theorem unchip_of_chipless {c : Content} (h : c.chips = []) : c.unchip = c := by
  induction c with
  | nil => rfl
  | text t next ih => rw [unchip, ih h]
  | chip c next ih => cases h
  | element tagName children next ihc ihn =>
    obtain ⟨hchildren, hnext⟩ := List.append_eq_nil_iff.mp h
    rw [unchip, ihc hchildren, ihn hnext]

theorem mergeText_mergeText (t u : Str) (next : Content) :
    mergeText t (mergeText u next) = mergeText (t ++ u) next := by
  cases next with
  | text v next => simp [mergeText]
  | nil => cases u <;> simp [mergeText]
  | chip c next => cases u <;> simp [mergeText]
  | element tagName children next => cases u <;> simp [mergeText]

theorem mergeText_nil (next : Content) : mergeText [] next = next := by
  cases next <;> simp [mergeText]

theorem mergeText_size (t : Str) (next : Content) :
    (mergeText t next).size = t.length + next.size := by
  cases next with
  | text u next => simp [mergeText, size, Nat.add_assoc]
  | nil => cases t <;> simp [mergeText, size]
  | chip c next => cases t <;> simp [mergeText, size]
  | element tagName children next => cases t <;> simp [mergeText, size]

theorem normalize_size (c : Content) : c.normalize.size = c.size := by
  induction c with
  | nil => rfl
  | text t next ih => rw [normalize, mergeText_size, ih, size]
  | chip c next ih => exact ih
  | element tagName children next ihc ihn => rw [normalize, size, ihc, ihn, size]

theorem normalize_unchip_replaceWith (frag : List Fragment) (next : Content) :
    (next.replaceWith frag).unchip.normalize = mergeText (markup frag) next.unchip.normalize := by
  induction frag with
  | nil => exact (mergeText_nil _).symm
  | cons x frag ih =>
    cases x with
    | text t => rw [replaceWith, unchip, normalize, ih, mergeText_mergeText, markup]
    | chip c => rw [replaceWith, unchip, normalize, ih, mergeText_mergeText, markup]

theorem size_unchip_replaceWith (frag : List Fragment) (next : Content) :
    (next.replaceWith frag).unchip.size = (markup frag).length + next.unchip.size := by
  rw [← normalize_size, normalize_unchip_replaceWith, mergeText_size, normalize_size]

theorem chips_replaceWith (frag : List Fragment) (next : Content) :
    (next.replaceWith frag).chips = chipsOf frag ++ next.chips := by
  induction frag with
  | nil => rfl
  | cons x frag ih =>
    cases x with
    | text t => exact ih
    | chip c => exact congrArg (c :: ·) ih

/-- What becomes of a text node. -/
def fragmentOf (resolve : Nat → Option CitationTarget) (node : TextNode) : List Fragment :=
  if acceptNode node then enhanceText resolve node.text else [.text node.text]

/-- The chips of a run are those of the walk over the text nodes. -/
theorem chips_enhance {c : Content} (h : c.chips = []) :
    (c.enhance resolve ancestors).chips =
      (LensLM.enhanceCitations resolve (c.textNodes ancestors)).flatMap chipsOf := by
  induction c generalizing ancestors with
  | nil => rfl
  | text t next ih =>
    rw [enhance, chips_replaceWith, ih h]
    rfl
  | chip c next ih => cases h
  | element tagName children next ihc ihn =>
    obtain ⟨hchildren, hnext⟩ := List.append_eq_nil_iff.mp h
    rw [enhance, chips, ihc hchildren, ihn hnext, textNodes, LensLM.enhanceCitations,
      LensLM.enhanceCitations, LensLM.enhanceCitations, List.map_append, List.flatMap_append]

/-- No run over these nodes swallows a title. -/
def NoEcho (resolve : Nat → Option CitationTarget) (nodes : List TextNode) : Prop :=
  ∀ node ∈ nodes, acceptNode node = true → Unechoed resolve node.text (matchesFrom 0 node.text)

theorem NoEcho.of_cons {node : TextNode} {nodes : List TextNode}
    (h : NoEcho resolve (node :: nodes)) : markup (fragmentOf resolve node) = node.text ∧
      NoEcho resolve nodes := by
  refine ⟨?_, fun n hn => h n (List.mem_cons_of_mem _ hn)⟩
  unfold fragmentOf
  split
  · next haccept => exact markup_enhanceText (h node (by simp) haccept)
  · simp [markup]

theorem NoEcho.of_append {a b : List TextNode} (h : NoEcho resolve (a ++ b)) :
    NoEcho resolve a ∧ NoEcho resolve b :=
  ⟨fun n hn => h n (List.mem_append_left _ hn), fun n hn => h n (List.mem_append_right _ hn)⟩

theorem markup_fragmentOf_le (node : TextNode) :
    (markup (fragmentOf resolve node)).length ≤ node.text.length := by
  unfold fragmentOf
  split
  · by_cases hecho : Unechoed resolve node.text (matchesFrom 0 node.text)
    · rw [markup_enhanceText hecho]
    · exact Nat.le_of_lt (markup_enhanceText_lt hecho)
  · simp [markup]

theorem normalize_unchip_enhance {c : Content} (h : c.chips = [])
    (hno : NoEcho resolve (c.textNodes ancestors)) :
    (c.enhance resolve ancestors).unchip.normalize = c.normalize := by
  induction c generalizing ancestors with
  | nil => rfl
  | text t next ih =>
    obtain ⟨htext, hnext⟩ := hno.of_cons
    rw [enhance, normalize_unchip_replaceWith, ih h hnext, normalize]
    exact congrArg (mergeText · _) htext
  | chip c next ih => cases h
  | element tagName children next ihc ihn =>
    obtain ⟨hchildren, hnext⟩ := List.append_eq_nil_iff.mp h
    obtain ⟨hnochildren, hnonext⟩ := hno.of_append
    rw [enhance, unchip, normalize, ihc hchildren hnochildren, ihn hnext hnonext, normalize]

theorem size_unchip_enhance_le {c : Content} (h : c.chips = []) :
    (c.enhance resolve ancestors).unchip.size ≤ c.size := by
  induction c generalizing ancestors with
  | nil => exact Nat.le_refl _
  | text t next ih =>
    rw [enhance, size_unchip_replaceWith, size]
    exact Nat.add_le_add (markup_fragmentOf_le ⟨ancestors, t⟩) (ih h)
  | chip c next ih => cases h
  | element tagName children next ihc ihn =>
    obtain ⟨hchildren, hnext⟩ := List.append_eq_nil_iff.mp h
    exact Nat.add_le_add (ihc hchildren) (ihn hnext)

/-- A run that swallows a title leaves less text behind than there was. -/
theorem size_unchip_enhance_lt {c : Content} (h : c.chips = []) {node : TextNode}
    (hnode : node ∈ c.textNodes ancestors) (haccept : acceptNode node = true)
    (hecho : ¬ Unechoed resolve node.text (matchesFrom 0 node.text)) :
    (c.enhance resolve ancestors).unchip.size < c.size := by
  induction c generalizing ancestors with
  | nil => cases hnode
  | text t next ih =>
    rw [enhance, size_unchip_replaceWith, size]
    have hthis := @markup_fragmentOf_le resolve ⟨ancestors, t⟩
    cases List.mem_cons.mp hnode with
    | inl heq =>
      subst heq
      apply Nat.add_lt_add_of_lt_of_le _ (size_unchip_enhance_le (c := next) h)
      rw [if_pos haccept]
      exact markup_enhanceText_lt hecho
    | inr hmem => exact Nat.add_lt_add_of_le_of_lt hthis (ih h hmem)
  | chip c next ih => cases h
  | element tagName children next ihc ihn =>
    obtain ⟨hchildren, hnext⟩ := List.append_eq_nil_iff.mp h
    rw [enhance, unchip, size, size]
    cases List.mem_append.mp hnode with
    | inl hmem =>
      exact Nat.add_lt_add_of_lt_of_le (ihc hchildren hmem) (size_unchip_enhance_le hnext)
    | inr hmem =>
      exact Nat.add_lt_add_of_le_of_lt (size_unchip_enhance_le hchildren) (ihn hnext hmem)

theorem enhance_of_chipless {c : Content} (h : c.chips = [])
    (hnone : (c.enhance resolve ancestors).chips = []) : c.enhance resolve ancestors = c := by
  induction c generalizing ancestors with
  | nil => rfl
  | text t next ih =>
    rw [enhance, chips_replaceWith] at hnone
    obtain ⟨hthis, hnext⟩ := List.append_eq_nil_iff.mp hnone
    have htext : (if acceptNode ⟨ancestors, t⟩ then enhanceText resolve t else [.text t]) =
        [.text t] := by
      split at hthis
      · next haccept => rw [if_pos haccept, enhanceText_chipless hthis]
      · next haccept => rw [if_neg haccept]
    rw [enhance, htext, ih h hnext]
    rfl
  | chip c next ih => cases h
  | element tagName children next ihc ihn =>
    obtain ⟨hchildren, hnext⟩ := List.append_eq_nil_iff.mp h
    obtain ⟨hnonechildren, hnonenext⟩ := List.append_eq_nil_iff.mp hnone
    rw [enhance, ihc hchildren hnonechildren, ihn hnext hnonenext]

theorem restoreChips_of_chipless {c : Content} (h : c.chips = []) : c.restoreChips = c := by
  rw [restoreChips, h, unchip_of_chipless h]
  rfl

theorem restoreChips_size (c : Content) : c.restoreChips.size = c.unchip.size := by
  unfold restoreChips
  split
  · exact normalize_size _
  · rfl

theorem enhance_unresolved {c : Content} (h : c.chips = []) :
    c.enhance (fun _ => none) ancestors = c := by
  apply enhance_of_chipless h
  rw [chips_enhance h, List.flatMap_eq_nil_iff]
  intro frag hfrag
  obtain ⟨node, -, rfl⟩ := List.mem_map.mp hfrag
  split
  · rw [chipsOf_enhanceText, List.filterMap_eq_nil_iff]
    intro m _
    unfold chipOf
    cases ordinalOf m.digits <;> rfl
  · rfl

/-- Whatever the run with `f` did, a run with any other resolver finds the container as it was,
exactly when no marker that `f` resolves is followed by the title of its target. -/
theorem enhanceCitations_memoryless_iff (container : Container)
    (f : Nat → Option CitationTarget) :
    ((∀ g, (container.content.enhanceCitations f).enhanceCitations g =
        container.content.enhanceCitations g) ∧
      (container.content.enhanceCitations f).restoreChips = container.content) ↔
      NoEcho f (container.content.textNodes []) := by
  obtain ⟨content, hchipless, hmerged⟩ := container
  simp only
  have hstart : content.enhanceCitations f = content.enhance f [] := by
    rw [enhanceCitations, restoreChips_of_chipless hchipless]
  constructor
  · rintro ⟨-, hrestored⟩ node hnode haccept
    by_contra hecho
    have hlt := size_unchip_enhance_lt hchipless hnode haccept hecho
    rw [← restoreChips_size, ← hstart, hrestored] at hlt
    exact Nat.lt_irrefl _ hlt
  · intro hno
    have hrestored : (content.enhanceCitations f).restoreChips = content := by
      rw [hstart]
      by_cases hchips : (content.enhance f []).chips = []
      · rw [restoreChips_of_chipless hchips, enhance_of_chipless hchipless hchips]
      · rw [restoreChips, if_pos (List.length_pos_iff.mpr hchips),
          normalize_unchip_enhance hchipless hno, hmerged]
    refine ⟨?_, hrestored⟩
    intro g
    rw [enhanceCitations, hrestored, enhanceCitations, restoreChips_of_chipless hchipless]

/-- An answer whose marker is followed by the title of its source. -/
def echoedTitle : Container :=
  ⟨.element "P" (.text "Safe [1] (Book): yes.".toList .nil) .nil, rfl, rfl⟩

/-- The source before it is renamed, and after. -/
def titled (title : String) (n : Nat) : Option CitationTarget :=
  if n = 1 then some ⟨"s", title.toList, true, []⟩ else none

theorem echoedTitle_lost : ¬ ∀ (container : Container) (f g : Nat → Option CitationTarget),
    (container.content.enhanceCitations f).enhanceCitations g =
      container.content.enhanceCitations g := by
  intro h
  have hechoed := h echoedTitle (titled "Book") (titled "Manual")
  revert hechoed
  decide +kernel

end Content

end LensLM
