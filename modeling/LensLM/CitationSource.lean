import LensLM.Block
import LensLM.Lib.Boundaries
import LensLM.Lib.Utf8

/-!
# Citation snippets and source views

A cited span is clamped to the buffer and snapped to its characters before any slice. Around it
stands a window that is widened to the next sentence, or the whole source up to a cap.
-/

namespace LensLM

open ByteText Utf8

set_option autoImplicit false

def WINDOW : Nat := 240

def MAX_SNIPPET : Nat := 1200

def VIEW_CAP : Nat := 256 * 1024

def MAX_MARKED : Nat := 4 * 1024

structure SnippetSegments where
  before : Str
  marked : Str
  after : Str
  truncatedBefore : Bool
  truncatedAfter : Bool
deriving DecidableEq, Repr

structure SourceView where
  before : Str
  marked : Str
  after : Str
  title : Str
  kind : Str
  truncated : Bool
deriving DecidableEq, Repr

section Boundaries

def floorFrom (s : Str) : Nat → Nat
  | 0 => 0
  | i + 1 => if IsBoundary s (i + 1) then i + 1 else floorFrom s i

def floorBoundary (s : Str) (i : Nat) : Nat :=
  if byteLen s ≤ i then byteLen s else floorFrom s i

/-- The loop of `ceil_boundary`, with the number of bytes that are left. -/
def ceilFrom (s : Str) : Nat → Nat → Nat
  | 0, i => i
  | n + 1, i => if IsBoundary s i then i else ceilFrom s n (i + 1)

def ceilBoundary (s : Str) (i : Nat) : Nat :=
  if byteLen s ≤ i then byteLen s else ceilFrom s (byteLen s - i) i

theorem floorFrom_spec (s : Str) (i : Nat) :
    IsGreatest {n | IsBoundary s n ∧ n ≤ i} (floorFrom s i) := by
  induction i with
  | zero =>
    refine ⟨⟨isBoundary_zero s, Nat.le_refl 0⟩, ?_⟩
    intro n hn
    exact hn.2
  | succ i ih =>
    rw [floorFrom]
    split
    · next h => exact ⟨⟨h, Nat.le_refl _⟩, fun n hn => hn.2⟩
    · next h =>
      refine ⟨⟨ih.1.1, Nat.le_succ_of_le ih.1.2⟩, ?_⟩
      intro n hn
      apply ih.2
      refine ⟨hn.1, Nat.le_of_lt_succ (Nat.lt_of_le_of_ne hn.2 ?_)⟩
      rintro rfl
      exact h hn.1

theorem floorBoundary_spec {s : Str} {i : Nat} (h : i ≤ byteLen s) :
    IsGreatest {n | IsBoundary s n ∧ n ≤ i} (floorBoundary s i) := by
  unfold floorBoundary
  split
  · next hle =>
    obtain rfl := Nat.le_antisymm h hle
    exact ⟨⟨isBoundary_byteLen s, Nat.le_refl _⟩, fun n hn => hn.2⟩
  · exact floorFrom_spec s i

theorem ceilFrom_spec {s : Str} {n i : Nat} (h : i + n = byteLen s) :
    IsLeast {m | IsBoundary s m ∧ i ≤ m} (ceilFrom s n i) := by
  induction n generalizing i with
  | zero =>
    have hi : i = byteLen s := h
    rw [ceilFrom, hi]
    exact ⟨⟨isBoundary_byteLen s, Nat.le_refl _⟩, fun m hm => hm.2⟩
  | succ n ih =>
    rw [ceilFrom]
    split
    · next hb => exact ⟨⟨hb, Nat.le_refl i⟩, fun m hm => hm.2⟩
    · next hb =>
      have hnext := ih (i := i + 1) (by omega)
      refine ⟨⟨hnext.1.1, Nat.le_of_succ_le hnext.1.2⟩, ?_⟩
      intro m hm
      apply hnext.2
      refine ⟨hm.1, Nat.lt_of_le_of_ne hm.2 ?_⟩
      rintro rfl
      exact hb hm.1

theorem ceilBoundary_spec {s : Str} {i : Nat} (h : i ≤ byteLen s) :
    IsLeast {n | IsBoundary s n ∧ i ≤ n} (ceilBoundary s i) := by
  unfold ceilBoundary
  split
  · next hle =>
    obtain rfl := Nat.le_antisymm h hle
    exact ⟨⟨isBoundary_byteLen s, Nat.le_refl _⟩, fun n hn => hn.2⟩
  · apply ceilFrom_spec
    omega

end Boundaries

section Sentences

/-- The indexing expression `b[i]` of the bytes. -/
def byteAt (s : Str) (i : Nat) : Except Fault UInt8 :=
  match (encode s)[i]? with
  | some b => .ok b
  | none => .error .panic

def isTerminator (b : UInt8) : Bool :=
  b == '.'.toUInt8 || b == '?'.toUInt8 || b == '!'.toUInt8

/-- A sentence or paragraph begins. -/
def isCleanStart (s : Str) (i : Nat) : Except Fault Bool :=
  if i = 0 then .ok true
  else if i < 2 then .ok false
  else do
    let last ← byteAt s (i - 1)
    let before ← byteAt s (i - 2)
    return (last == '\n'.toUInt8 && before == '\n'.toUInt8) ||
      (last == ' '.toUInt8 && isTerminator before)

/-- A terminator with a space or a line end behind it. -/
def endsSentence (s : Str) (i : Nat) : Except Fault Bool :=
  if i = 0 then .ok false
  else do
    if isTerminator (← byteAt s (i - 1)) then
      let b ← byteAt s i
      return b == ' '.toUInt8 || b == '\n'.toUInt8
    else return false

def beginsBreak (s : Str) (i : Nat) : Except Fault Bool := do
  if (← byteAt s i) == '\n'.toUInt8 then
    if i + 1 < byteLen s then return (← byteAt s (i + 1)) == '\n'.toUInt8 else return false
  else return false

/-- A sentence or paragraph ends. -/
def isCleanEnd (s : Str) (i : Nat) : Except Fault Bool :=
  if i = byteLen s then .ok true
  else do
    if ← endsSentence s i then return true
    else beginsBreak s i

/-- The computation returns a value with `Q`. -/
def Returns {α : Type} (x : Except Fault α) (Q : α → Prop) : Prop := ∃ a, x = .ok a ∧ Q a

theorem Returns.ok {α : Type} {a : α} {Q : α → Prop} (h : Q a) :
    Returns (.ok a : Except Fault α) Q := ⟨a, rfl, h⟩

theorem Returns.bind {α β : Type} {x : Except Fault α} {f : α → Except Fault β} {Q : α → Prop}
    {R : β → Prop} (h : Returns x Q) (hf : ∀ a, Q a → Returns (f a) R) : Returns (x >>= f) R := by
  obtain ⟨a, rfl, ha⟩ := h
  exact hf a ha

theorem Returns.mono {α : Type} {x : Except Fault α} {Q R : α → Prop} (h : Returns x Q)
    (hQR : ∀ a, Q a → R a) : Returns x R := by
  obtain ⟨a, hx, ha⟩ := h
  exact ⟨a, hx, hQR a ha⟩

theorem byteAt_returns {s : Str} {i : Nat} (h : i < byteLen s) :
    Returns (byteAt s i) fun _ => True := by
  rw [← length_encode] at h
  unfold byteAt
  rw [List.getElem?_eq_getElem h]
  exact .ok trivial

theorem isCleanStart_returns {s : Str} {i : Nat} (h : i ≤ byteLen s) :
    Returns (isCleanStart s i) fun _ => True := by
  unfold isCleanStart
  split
  · exact .ok trivial
  · split
    · exact .ok trivial
    · apply (byteAt_returns (by omega)).bind
      intro last _
      apply (byteAt_returns (by omega)).bind
      intro before _
      exact .ok trivial

theorem endsSentence_returns {s : Str} {i : Nat} (h : i < byteLen s) :
    Returns (endsSentence s i) fun _ => True := by
  unfold endsSentence
  split
  · exact .ok trivial
  · apply (byteAt_returns (by omega)).bind
    intro last _
    split
    · apply (byteAt_returns h).bind
      intro b _
      exact .ok trivial
    · exact .ok trivial

theorem beginsBreak_returns {s : Str} {i : Nat} (h : i < byteLen s) :
    Returns (beginsBreak s i) fun _ => True := by
  unfold beginsBreak
  apply (byteAt_returns h).bind
  intro b _
  split
  · split
    · next hnext =>
      apply (byteAt_returns hnext).bind
      intro c _
      exact .ok trivial
    · exact .ok trivial
  · exact .ok trivial

theorem isCleanEnd_returns {s : Str} {i : Nat} (h : i ≤ byteLen s) :
    Returns (isCleanEnd s i) fun _ => True := by
  unfold isCleanEnd
  split
  · exact .ok trivial
  · next hne =>
    have hlt := Nat.lt_of_le_of_ne h hne
    apply (endsSentence_returns hlt).bind
    intro ended _
    split
    · exact .ok trivial
    · exact beginsBreak_returns hlt

end Sentences

section Snapping

/-- A sentence begins or ends at a boundary. -/
def cutsCleanly (s : Str) (isClean : Str → Nat → Except Fault Bool) (i : Nat) : Except Fault Bool :=
  if IsBoundary s i then isClean s i else .ok false

/-- The loop of `snap_start_outward`. -/
def snapStartFrom (s : Str) (start floor : Nat) : Nat → Except Fault Nat
  | 0 => do
    if ← cutsCleanly s isCleanStart 0 then return 0
    else return floorBoundary s start
  | i + 1 => do
    if ← cutsCleanly s isCleanStart (i + 1) then return i + 1
    else if i + 1 ≤ floor then return floorBoundary s start
    else snapStartFrom s start floor i

def snapStartOutward (s : Str) (start floor : Nat) : Except Fault Nat :=
  snapStartFrom s start floor start

/-- The loop of `snap_end_outward`, with the number of bytes to the ceiling. -/
def snapEndFrom (s : Str) (start : Nat) : Nat → Nat → Except Fault Nat
  | 0, i => do
    if ← cutsCleanly s isCleanEnd i then return i
    else return ceilBoundary s start
  | n + 1, i => do
    if ← cutsCleanly s isCleanEnd i then return i
    else snapEndFrom s start n (i + 1)

def snapEndOutward (s : Str) (start ceil : Nat) : Except Fault Nat :=
  snapEndFrom s start (ceil - start) start

theorem cutsCleanly_returns {s : Str} {isClean : Str → Nat → Except Fault Bool} {i : Nat}
    (h : i ≤ byteLen s → Returns (isClean s i) fun _ => True) :
    Returns (cutsCleanly s isClean i) fun clean => clean = true → IsBoundary s i := by
  unfold cutsCleanly
  split
  · next hb => exact (h hb.le).mono fun _ _ _ => hb
  · exact .ok nofun

theorem snapStartOutward_returns {s : Str} {start : Nat} (floor : Nat) (h : start ≤ byteLen s) :
    Returns (snapStartOutward s start floor) fun i => IsBoundary s i ∧ i ≤ start := by
  have hback : IsBoundary s (floorBoundary s start) ∧ floorBoundary s start ≤ start :=
    (floorBoundary_spec h).1
  suffices hloop : ∀ i ≤ start, Returns (snapStartFrom s start floor i)
      fun i => IsBoundary s i ∧ i ≤ start from hloop start (Nat.le_refl start)
  intro i hi
  induction i with
  | zero =>
    apply (cutsCleanly_returns isCleanStart_returns).bind
    intro clean hclean
    split
    · next htrue => exact .ok ⟨hclean htrue, hi⟩
    · exact .ok hback
  | succ i ih =>
    apply (cutsCleanly_returns isCleanStart_returns).bind
    intro clean hclean
    split
    · next htrue => exact .ok ⟨hclean htrue, hi⟩
    · split
      · exact .ok hback
      · exact ih (Nat.le_of_succ_le hi)

theorem snapEndOutward_returns {s : Str} {start : Nat} (ceil : Nat) (h : start ≤ byteLen s) :
    Returns (snapEndOutward s start ceil) fun i => IsBoundary s i ∧ start ≤ i := by
  have hback : IsBoundary s (ceilBoundary s start) ∧ start ≤ ceilBoundary s start :=
    (ceilBoundary_spec h).1
  suffices hloop : ∀ n i, start ≤ i → Returns (snapEndFrom s start n i)
      fun i => IsBoundary s i ∧ start ≤ i from hloop _ start (Nat.le_refl start)
  intro n
  induction n with
  | zero =>
    intro i hi
    apply (cutsCleanly_returns isCleanEnd_returns).bind
    intro clean hclean
    split
    · next htrue => exact .ok ⟨hclean htrue, hi⟩
    · exact .ok hback
  | succ n ih =>
    intro i hi
    apply (cutsCleanly_returns isCleanEnd_returns).bind
    intro clean hclean
    split
    · next htrue => exact .ok ⟨hclean htrue, hi⟩
    · exact ih (i + 1) (Nat.le_succ_of_le hi)

end Snapping

section Views

/-- The span within the buffer, and at its boundaries. -/
def clampSpan (buffer : Str) (charStart charEnd : Nat) : Nat × Nat :=
  let stop := min charEnd (byteLen buffer)
  let start := min charStart stop
  (floorBoundary buffer start, ceilBoundary buffer stop)

/-- A huge span is cut off at the cap. -/
def capMarked (buffer : Str) (start stop : Nat) : Nat × Bool :=
  if MAX_MARKED < stop - start then (ceilBoundary buffer (start + MAX_MARKED), true)
  else (stop, false)

/-- The snippet around the marked span, of which the rest may be cut off. -/
def snippetAround (buffer : Str) (start stop : Nat) (markedTruncated : Bool) :
    Except Fault SnippetSegments := do
  let len := byteLen buffer
  let sideBudget := max ((MAX_SNIPPET - (stop - start)) / 2) WINDOW
  let ctxStart ← snapStartOutward buffer (start - WINDOW) (start - sideBudget)
  let ctxEnd ← snapEndOutward buffer (min (stop + WINDOW) len) (min (stop + sideBudget) len)
  return {
    before := ← sliceBytes buffer ctxStart start
    marked := ← sliceBytes buffer start stop
    after := ← sliceBytes buffer stop ctxEnd
    truncatedBefore := decide (0 < ctxStart)
    truncatedAfter := markedTruncated || decide (ctxEnd < len) }

def computeSnippet (buffer : Str) (charStart charEnd : Nat) : Except Fault SnippetSegments :=
  let span := clampSpan buffer charStart charEnd
  let capped := capMarked buffer span.1 span.2
  snippetAround buffer span.1 capped.1 capped.2

/-- The view around the marked span, of which the rest may be cut off. -/
def viewAround (buffer : Str) (start stop : Nat) (markedTruncated : Bool) (title kind : Str) :
    Except Fault SourceView := do
  let len := byteLen buffer
  let marked ← sliceBytes buffer start stop
  if len ≤ VIEW_CAP then
    let before ← sliceBytes buffer 0 start
    let after ← sliceBytes buffer stop len
    return ⟨before, marked, after, title, kind, markedTruncated⟩
  else
    let half := (VIEW_CAP - (stop - start)) / 2
    let before ← sliceBytes buffer (floorBoundary buffer (start - half)) start
    let after ← sliceBytes buffer stop (ceilBoundary buffer (min (stop + half) len))
    return ⟨before, marked, after, title, kind, true⟩

def computeSourceView (buffer : Str) (span : Option (Nat × Nat)) (title kind : Str) :
    Except Fault SourceView :=
  match span with
  | none =>
    if byteLen buffer ≤ VIEW_CAP then .ok ⟨buffer, [], [], title, kind, false⟩
    else do
      let head ← sliceBytes buffer 0 (floorBoundary buffer VIEW_CAP)
      return ⟨head, [], [], title, kind, true⟩
  | some (charStart, charEnd) =>
    let span := clampSpan buffer charStart charEnd
    let capped := capMarked buffer span.1 span.2
    viewAround buffer span.1 capped.1 capped.2 title kind

end Views

section Soundness

variable {buffer : Str} {charStart charEnd start stop : Nat}

/-- The span within the buffer, widened to whole characters. -/
structure Clamped (buffer : Str) (charStart charEnd start stop : Nat) : Prop where
  start : IsGreatest
    {n | IsBoundary buffer n ∧ n ≤ min charStart (min charEnd (byteLen buffer))} start
  stop : IsLeast {n | IsBoundary buffer n ∧ min charEnd (byteLen buffer) ≤ n} stop

/-- The three parts stand side by side in the buffer, between `p` and `q`. -/
structure Adjacent (buffer before marked after p q : Str) : Prop where
  whole : buffer = p ++ (before ++ (marked ++ (after ++ q)))

theorem clampSpan_clamped (buffer : Str) (charStart charEnd : Nat) :
    Clamped buffer charStart charEnd (clampSpan buffer charStart charEnd).1
      (clampSpan buffer charStart charEnd).2 := by
  constructor
  · apply floorBoundary_spec
    omega
  · apply ceilBoundary_spec
    omega

theorem Clamped.le (h : Clamped buffer charStart charEnd start stop) : start ≤ stop := by
  have hstart := h.start.1.2
  have hstop := h.stop.1.2
  omega

/-- What the cap leaves of a span. -/
structure Capped (buffer : Str) (start stop : Nat) (capped : Nat × Bool) : Prop where
  boundary : IsBoundary buffer capped.1
  start_le : start ≤ capped.1
  le_stop : capped.1 ≤ stop
  uncut : capped.2 = false → capped.1 = stop
  small : ∀ marked, slice buffer start capped.1 = some marked →
    byteLen marked.dropLast ≤ MAX_MARKED
  near : capped.1 < start + MAX_MARKED + 4

/-- All but the last character of a slice up to a least boundary is before the bound. -/
theorem byteLen_dropLast_le {marked : Str} {n : Nat}
    (hleast : IsLeast {m | IsBoundary buffer m ∧ start + n ≤ m} stop)
    (h : slice buffer start stop = some marked) : byteLen marked.dropLast ≤ n := by
  rcases List.eq_nil_or_concat' marked with rfl | ⟨front, c, rfl⟩
  · exact Nat.zero_le n
  · rw [List.dropLast_concat]
    by_contra hlong
    obtain ⟨p, q, hb, hp, hstop⟩ := slice_eq_some.mp h
    have hcut : IsBoundary buffer (start + byteLen front) :=
      ⟨p ++ front, c :: q, by simp [hb], by simp [hp]⟩
    have hfront := hleast.2 ⟨hcut, by omega⟩
    have hc := Char.utf8Size_pos c
    simp only [byteLen_append, byteLen_cons, byteLen_nil] at hstop
    omega

theorem byteLen_dropLast (s : Str) : byteLen s.dropLast ≤ byteLen s := by
  rcases List.eq_nil_or_concat' s with rfl | ⟨front, c, rfl⟩
  · exact Nat.le_refl 0
  · rw [List.dropLast_concat, byteLen_append]
    omega

theorem capMarked_capped (hstop : IsBoundary buffer stop) (hle : start ≤ stop) :
    Capped buffer start stop (capMarked buffer start stop) := by
  unfold capMarked
  split
  · next hlong =>
    have hbound := hstop.le
    have hceil := ceilBoundary_spec (s := buffer) (i := start + MAX_MARKED) (by omega)
    have hgap := ceil_gap (by omega) hceil
    refine ⟨hceil.1.1, ?_, hceil.2 ⟨hstop, by omega⟩, nofun, ?_, hgap⟩
    · exact Nat.le_of_add_right_le hceil.1.2
    · intro marked hmarked
      exact byteLen_dropLast_le hceil hmarked
  · next hshort =>
    refine ⟨hstop, hle, Nat.le_refl stop, fun _ => rfl, ?_, by omega⟩
    intro marked hmarked
    have hlen := slice_stop hmarked
    have hdrop := byteLen_dropLast marked
    omega

/-- Slices that meet are one piece of the buffer. -/
theorem adjacent_of_slices {a i j b : Nat} {before marked after : Str}
    (hbefore : slice buffer a i = some before) (hmarked : slice buffer i j = some marked)
    (hafter : slice buffer j b = some after) :
    ∃ p q, Adjacent buffer before marked after p q ∧ byteLen p = a ∧
      byteLen buffer = b + byteLen q := by
  have hall := slice_append hbefore (slice_append hmarked hafter)
  obtain ⟨p, q, hb, hp, hstop⟩ := slice_eq_some.mp hall
  refine ⟨p, q, ⟨by simp [hb]⟩, hp, ?_⟩
  rw [hb, byteLen_append, byteLen_append]
  omega

/-- The snippet is one piece of the buffer, its marked part begins where the clamped span does, and
a side without the truncation mark is complete. -/
structure SnippetSegments.Sound (seg : SnippetSegments) (buffer : Str) (charStart charEnd : Nat) :
    Prop where
  parts : ∃ start stop whole p q, Clamped buffer charStart charEnd start stop ∧
    slice buffer start stop = some whole ∧
    Adjacent buffer seg.before seg.marked seg.after p q ∧ byteLen (p ++ seg.before) = start ∧
    seg.marked <+: whole ∧ (seg.truncatedBefore = false → p = []) ∧
    (seg.truncatedAfter = false → seg.marked = whole ∧ q = [])
  small : byteLen seg.marked.dropLast ≤ MAX_MARKED

/-- The view is one piece of the buffer of about the capped length, and the whole of it without the
truncation mark. -/
structure SourceView.Sound (view : SourceView) (buffer : Str) : Prop where
  parts : ∃ p q, Adjacent buffer view.before view.marked view.after p q ∧
    (view.truncated = false → p = [] ∧ q = [])
  small : byteLen (view.before ++ (view.marked ++ view.after)) ≤ VIEW_CAP + 6

theorem slice_returns {a b : Nat} (ha : IsBoundary buffer a) (hb : IsBoundary buffer b)
    (hab : a ≤ b) : Returns (sliceBytes buffer a b) fun t => slice buffer a b = some t := by
  obtain ⟨t, ht⟩ := exists_slice ha hb hab
  exact ⟨t, sliceBytes_of_slice ht, ht⟩

theorem snippetAround_returns {capped : Nat × Bool}
    (hspan : Clamped buffer charStart charEnd start stop)
    (hcapped : Capped buffer start stop capped) :
    Returns (snippetAround buffer start capped.1 capped.2) fun seg =>
      seg.Sound buffer charStart charEnd := by
  have hstart := hspan.start.1.1
  have hbound := hcapped.boundary.le
  have hstartle := hstart.le
  obtain ⟨whole, hwhole⟩ := exists_slice hstart hspan.stop.1.1 hspan.le
  have hleft : start - WINDOW ≤ byteLen buffer := Nat.le_trans (Nat.sub_le _ _) hstartle
  have hright : min (capped.1 + WINDOW) (byteLen buffer) ≤ byteLen buffer := Nat.min_le_right _ _
  unfold snippetAround
  apply (snapStartOutward_returns _ hleft).bind
  intro ctxStart ⟨hctxStart, hbefore⟩
  apply (snapEndOutward_returns _ hright).bind
  intro ctxEnd ⟨hctxEnd, hafter⟩
  apply (slice_returns hctxStart hstart (by omega)).bind
  intro before hbefore'
  apply (slice_returns hstart hcapped.boundary hcapped.start_le).bind
  intro marked hmarked
  apply (slice_returns hcapped.boundary hctxEnd (by omega)).bind
  intro after hafter'
  obtain ⟨p, q, hadj, hp, hq⟩ := adjacent_of_slices hbefore' hmarked hafter'
  apply Returns.ok
  refine ⟨⟨start, stop, whole, p, q, hspan, hwhole, hadj, ?_, ?_, ?_, ?_⟩,
    hcapped.small marked hmarked⟩
  · have hlen := slice_stop hbefore'
    rw [byteLen_append, hp]
    exact hlen.symm
  · obtain ⟨rest, hrest⟩ := exists_slice hcapped.boundary hspan.stop.1.1 hcapped.le_stop
    have hall := slice_append hmarked hrest
    rw [hwhole] at hall
    exact ⟨rest, (Option.some.inj hall).symm⟩
  · intro hfalse
    have hzero : ctxStart = 0 := by simpa using hfalse
    apply byteLen_eq_zero.mp
    rw [hp, hzero]
  · intro hfalse
    obtain ⟨hcut, hend⟩ : capped.2 = false ∧ byteLen buffer ≤ ctxEnd := by simpa using hfalse
    constructor
    · rw [hcapped.uncut hcut, hwhole] at hmarked
      exact (Option.some.inj hmarked).symm
    · apply byteLen_eq_zero.mp
      omega

/-- Parts around a capped span that reach far enough on both sides but not too far. -/
theorem view_sound {a b stop' : Nat} {before marked after title kind : Str} {truncated : Bool}
    (hbefore : slice buffer a start = some before)
    (hmarked : slice buffer start stop' = some marked)
    (hafter : slice buffer stop' b = some after) (hsmall : b ≤ a + VIEW_CAP + 6)
    (hwhole : truncated = false → a = 0 ∧ b = byteLen buffer) :
    (SourceView.mk before marked after title kind truncated).Sound buffer := by
  obtain ⟨p, q, hadj, hp, hq⟩ := adjacent_of_slices hbefore hmarked hafter
  have hall := slice_stop (slice_append hbefore (slice_append hmarked hafter))
  refine ⟨⟨p, q, hadj, ?_⟩, ?_⟩
  · intro hfalse
    obtain ⟨ha, hb⟩ := hwhole hfalse
    constructor
    · apply byteLen_eq_zero.mp
      omega
    · apply byteLen_eq_zero.mp
      omega
  · show byteLen (before ++ (marked ++ after)) ≤ VIEW_CAP + 6
    omega

theorem viewAround_returns {capped : Nat × Bool} (hstart : IsBoundary buffer start)
    (hcapped : Capped buffer start stop capped) (title kind : Str) :
    Returns (viewAround buffer start capped.1 capped.2 title kind) fun view =>
      view.Sound buffer := by
  have hbound := hcapped.boundary.le
  unfold viewAround
  apply (slice_returns hstart hcapped.boundary hcapped.start_le).bind
  intro marked hmarked
  split
  · next hfits =>
    apply (slice_returns (isBoundary_zero buffer) hstart (Nat.zero_le start)).bind
    intro before hbefore
    apply (slice_returns hcapped.boundary (isBoundary_byteLen buffer) hbound).bind
    intro after hafter
    apply Returns.ok
    exact view_sound hbefore hmarked hafter (by omega) fun _ => ⟨rfl, rfl⟩
  · generalize hhalf : (VIEW_CAP - (capped.1 - start)) / 2 = half
    have hroom : 2 * half + (capped.1 - start) ≤ VIEW_CAP := by
      have hnear := hcapped.near
      unfold MAX_MARKED at hnear
      unfold VIEW_CAP at hhalf ⊢
      omega
    have hle := hcapped.start_le
    have hfloor := floorBoundary_spec (s := buffer) (i := start - half) (by omega)
    have hceil := ceilBoundary_spec (s := buffer) (i := min (capped.1 + half) (byteLen buffer))
      (Nat.min_le_right _ _)
    have hbelow := floor_gap (by omega) hfloor
    have habove := ceil_gap (Nat.min_le_right _ _) hceil
    have hleft : floorBoundary buffer (start - half) ≤ start - half := hfloor.1.2
    have hright : min (capped.1 + half) (byteLen buffer) ≤
        ceilBoundary buffer (min (capped.1 + half) (byteLen buffer)) := hceil.1.2
    apply (slice_returns hfloor.1.1 hstart (by omega)).bind
    intro before hbefore
    apply (slice_returns hcapped.boundary hceil.1.1 (by omega)).bind
    intro after hafter
    apply Returns.ok
    exact view_sound hbefore hmarked hafter (by omega) nofun

/-- Neither panics, whatever the span is, and both cut the buffer in adjacent pieces. -/
theorem citationSlices_sound (buffer : Str) (charStart charEnd : Nat) (span : Option (Nat × Nat))
    (title kind : Str) :
    (∃ seg, computeSnippet buffer charStart charEnd = .ok seg ∧
        seg.Sound buffer charStart charEnd) ∧
      ∃ view, computeSourceView buffer span title kind = .ok view ∧ view.Sound buffer := by
  constructor
  · have hspan := clampSpan_clamped buffer charStart charEnd
    exact snippetAround_returns hspan (capMarked_capped hspan.stop.1.1 hspan.le)
  · cases span with
    | some span =>
      have hspan := clampSpan_clamped buffer span.1 span.2
      exact viewAround_returns hspan.start.1.1 (capMarked_capped hspan.stop.1.1 hspan.le) title kind
    | none =>
      show Returns (if byteLen buffer ≤ VIEW_CAP then _ else _) _
      split
      · next hfits =>
        apply Returns.ok
        refine ⟨⟨[], [], ⟨by simp⟩, fun _ => ⟨rfl, rfl⟩⟩, ?_⟩
        show byteLen (buffer ++ ([] ++ [])) ≤ VIEW_CAP + 6
        rw [List.append_nil, List.append_nil]
        omega
      · next hlong =>
        have hfloor := floorBoundary_spec (s := buffer) (i := VIEW_CAP) (by omega)
        apply (slice_returns (isBoundary_zero buffer) hfloor.1.1 (Nat.zero_le _)).bind
        intro head hhead
        obtain ⟨p, q, hb, hp, hlen⟩ := slice_eq_some.mp hhead
        have hle : floorBoundary buffer VIEW_CAP ≤ VIEW_CAP := hfloor.1.2
        apply Returns.ok
        refine ⟨⟨p, q, ⟨by simp [hb]⟩, nofun⟩, ?_⟩
        show byteLen (head ++ ([] ++ [])) ≤ VIEW_CAP + 6
        rw [List.append_nil, List.append_nil]
        omega

end Soundness

end LensLM
