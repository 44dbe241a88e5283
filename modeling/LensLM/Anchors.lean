import LensLM.Chunk
import LensLM.Error
import LensLM.Lib.Slots
import Mathlib.Data.List.Induction
import Mathlib.Order.MinMax

/-!
# Anchors of chunks

Every block carries a format-native coordinate. An audio chunk gets the times of the blocks
that start inside it; any other chunk gets the anchor of the block it starts in.
-/

namespace LensLM

open ByteText Outcome

set_option autoImplicit false

/-- A native coordinate; `T` holds the float values. -/
inductive SourceAnchor (T : Type) where
  | pdf (page : Nat) (bbox : T × T × T × T)
  | docx (nodePath : Str)
  | url (textOffset : Str)
  | text
  | structured (path : Str)
  | rtf (textOffset : Nat)
  | odt (nodePath : Str)
  | epub (spineIndex : Nat) (href : Str)
  | audio (startSecond endSecond : T)
deriving DecidableEq, Repr

section Attach

variable {T : Type} [LinearOrder T]

/-- One turn of the loop that aggregates the audio times. -/
def widen (cs ce : Nat) (range : Option (T × T)) (x : Block × SourceAnchor T) : Option (T × T) :=
  match x.2 with
  | .audio lo hi =>
    if cs ≤ x.1.charStart ∧ x.1.charStart < ce then
      some (range.elim (lo, hi) fun r => (min r.1 lo, max r.2 hi))
    else range
  | _ => range

def chunkAnchor (blocks : List (Block × SourceAnchor T)) (cs ce : Nat) : Option (SourceAnchor T) :=
  match blocks.foldl (widen cs ce) none with
  | some (lo, hi) => some (.audio lo hi)
  | none => (blocks.reverse.find? fun x => x.1.charStart ≤ cs).map Prod.snd

/-- The chunk with its anchor as JSON. -/
def anchored (toJson : SourceAnchor T → Option Str) (blocks : List (Block × SourceAnchor T))
    (chunk : Chunk) : Chunk :=
  match chunkAnchor blocks chunk.charStart chunk.charEnd with
  | some a => { chunk with sourceAnchor := toJson a }
  | none => chunk

def attachAnchorsToChunks (toJson : SourceAnchor T → Option Str) (chunks : List Chunk)
    (blocks : List Block) (anchors : List (SourceAnchor T)) : Except LensError (List Chunk) :=
  if anchors.isEmpty || blocks.isEmpty then .ok chunks
  else if anchors.length ≠ blocks.length then
    .error (.internal (s!"attach_anchors_to_chunks: anchors.len()={anchors.length}" ++
      s!" != blocks.len()={blocks.length}"))
  else .ok (chunks.map (anchored toJson (blocks.zip anchors)))

end Attach

section Audio

variable {T : Type}

/-- A block with its times in seconds. -/
structure TimedBlock (T : Type) where
  block : Block
  startSecond : T
  endSecond : T

/-- The blocks of a transcript, in order and apart. -/
structure Transcript (T : Type) where
  segments : List (TimedBlock T)
  disjoint : segments.Pairwise fun a b => a.block.charEnd ≤ b.block.charStart

def TimedBlock.anchor (s : TimedBlock T) : SourceAnchor T := .audio s.startSecond s.endSecond

def Transcript.blocks (t : Transcript T) : List Block := t.segments.map TimedBlock.block

def Transcript.anchors (t : Transcript T) : List (SourceAnchor T) := t.segments.map TimedBlock.anchor

def TimedBlock.pair (s : TimedBlock T) : Block × SourceAnchor T := (s.block, s.anchor)

end Audio

section Extract

variable {F T : Type}

structure TranscriptSegment (F : Type) where
  text : Str
  startSecond : F
  endSecond : F

/-- The canonical form of a source, the anchors index-aligned with the blocks. -/
structure ExtractOutput (T : Type) where
  extractedText : Str
  blocks : List Block
  anchors : List (SourceAnchor T)
  tableMarkdown : Option Str

/-- The finite value of a float, and its text. -/
structure FloatFormat (F T : Type) where
  finite : F → Option T
  display : F → String

def segSep : Str := ['\n', '\n']

variable [LinearOrder T] [Zero T]

/-- The checked times of a segment. -/
def segmentTimes (fmt : FloatFormat F T) (i : Nat) (seg : TranscriptSegment F) :
    Except LensError (T × T) :=
  match fmt.finite seg.startSecond, fmt.finite seg.endSecond with
  | some lo, some hi =>
    if lo < 0 ∨ hi < lo then
      .error (.parse (s!"transcript segment {i} has an invalid timestamp range [" ++
        s!"{fmt.display seg.startSecond}, {fmt.display seg.endSecond}]: " ++
        "start must be >= 0 and <= end"))
    else .ok (lo, hi)
  | _, _ => .error (.parse s!"transcript segment {i} has a non-finite timestamp")

def pushSegment (fmt : FloatFormat F T) (out : ExtractOutput T) (x : TranscriptSegment F × Nat) :
    Except LensError (ExtractOutput T) := do
  let (lo, hi) ← segmentTimes fmt x.2 x.1
  let text := if 0 < x.2 then out.extractedText ++ segSep else out.extractedText
  let extractedText := text ++ x.1.text
  return {
    extractedText
    blocks := out.blocks ++ [⟨.paragraph, [], x.1.text, byteLen text, byteLen extractedText⟩]
    anchors := out.anchors ++ [.audio lo hi]
    tableMarkdown := none }

def transcriptExtractOutput (fmt : FloatFormat F T) (segments : List (TranscriptSegment F)) :
    Except LensError (ExtractOutput T) :=
  segments.zipIdx.foldlM (pushSegment fmt) ⟨[], [], [], none⟩

/-- The output is a transcript over its own buffer. -/
def ExtractOutput.OfTranscript (out : ExtractOutput T) : Prop :=
  ∃ t : Transcript T, out.blocks = t.blocks ∧ out.anchors = t.anchors ∧
    (∀ b ∈ out.blocks, b.Verbatim out.extractedText) ∧
    ∀ s ∈ t.segments, s.startSecond ≤ s.endSecond

theorem segmentTimes_meets (fmt : FloatFormat F T) (i : Nat) (seg : TranscriptSegment F) :
    Meets (segmentTimes fmt i seg) (fun times => times.1 ≤ times.2) fun _ => True := by
  unfold segmentTimes
  split
  · rename_i lo hi _ _
    by_cases hbad : lo < 0 ∨ hi < lo
    · rw [if_pos hbad]
      trivial
    · rw [if_neg hbad]
      exact le_of_not_gt fun hlt => hbad (.inr hlt)
  · trivial

theorem pushSegment_meets (fmt : FloatFormat F T) {out : ExtractOutput T}
    (h : out.OfTranscript) (x : TranscriptSegment F × Nat) :
    Meets (pushSegment fmt out x) ExtractOutput.OfTranscript fun _ => True := by
  obtain ⟨t, hblocks, hanchors, hverb, htimes⟩ := h
  unfold pushSegment
  apply (segmentTimes_meets fmt x.2 x.1).bind
  intro times _ hle
  obtain ⟨lo, hi⟩ := times
  generalize htext : (if 0 < x.2 then out.extractedText ++ segSep else out.extractedText) = text
  have hext : ∃ more, text = out.extractedText ++ more := by
    by_cases hi : 0 < x.2
    · exact ⟨segSep, by rw [← htext, if_pos hi]⟩
    · exact ⟨[], by rw [← htext, if_neg hi, List.append_nil]⟩
  obtain ⟨more, rfl⟩ := hext
  have hold : ∀ b ∈ out.blocks, b.Verbatim (out.extractedText ++ more ++ x.1.text) := by
    intro b hb
    have hslice := slice_of_slice (slice_initial out.extractedText (more ++ x.1.text)) (hverb b hb)
    simpa only [Block.Verbatim, Nat.zero_add, List.append_assoc] using hslice
  have hend : ∀ s ∈ t.segments, s.block.charEnd ≤ byteLen (out.extractedText ++ more) := by
    intro s hs
    have hb : s.block ∈ out.blocks := hblocks ▸ List.mem_map_of_mem hs
    have hle := (slice_right_boundary (hverb s.block hb)).le
    rw [byteLen_append]
    omega
  refine ⟨⟨t.segments ++ [⟨⟨.paragraph, [], x.1.text, byteLen (out.extractedText ++ more),
    byteLen (out.extractedText ++ more ++ x.1.text)⟩, lo, hi⟩], ?_⟩, ?_, ?_, ?_, ?_⟩
  · rw [List.pairwise_append]
    refine ⟨t.disjoint, List.pairwise_singleton _ _, ?_⟩
    intro s hs r hr
    obtain rfl := List.mem_singleton.mp hr
    exact hend s hs
  · simp only [hblocks, Transcript.blocks, List.map_append, List.map_singleton]
  · simp only [hanchors, Transcript.anchors, List.map_append, List.map_singleton, TimedBlock.anchor]
  · apply Slots.forall_mem_push hold
    exact slice_eq_some.mpr ⟨out.extractedText ++ more, [], by simp, rfl, byteLen_append _ _⟩
  · exact Slots.forall_mem_push htimes hle

/-- The blocks of an extracted recording are apart and cut from its buffer. -/
theorem transcriptExtractOutput_meets (fmt : FloatFormat F T)
    (segments : List (TranscriptSegment F)) :
    Meets (transcriptExtractOutput fmt segments) ExtractOutput.OfTranscript fun _ => True := by
  refine meets_foldlM (I := fun _ _ => ExtractOutput.OfTranscript) segments.zipIdx ?_ ?_
  · refine ⟨⟨[], List.Pairwise.nil⟩, rfl, rfl, ⟨?_, ?_⟩⟩
    · intro b hb
      cases hb
    · intro s hs
      cases hs
  · intro _ x _ out _ h _
    exact pushSegment_meets fmt h x

end Extract

section Cover

variable {T : Type}

/-- The segment starts in the chunk. -/
def StartsIn (c : Chunk) (s : TimedBlock T) : Prop :=
  c.charStart ≤ s.block.charStart ∧ s.block.charStart < c.charEnd

/-- The segment and the chunk have a byte in common. -/
def Overlaps (c : Chunk) (s : TimedBlock T) : Prop :=
  ∃ x, s.block.charStart ≤ x ∧ x < s.block.charEnd ∧ c.charStart ≤ x ∧ x < c.charEnd

variable [LinearOrder T]

/-- The anchor of the chunk covers the times of every segment that the chunk overlaps. -/
def TimesCovered (t : Transcript T) (c : Chunk) : Prop :=
  ∀ s ∈ t.segments, Overlaps c s → ∃ lo hi,
    chunkAnchor (t.blocks.zip t.anchors) c.charStart c.charEnd = some (.audio lo hi) ∧
      lo ≤ s.startSecond ∧ s.endSecond ≤ hi

/-- A segment that reaches into the chunk from before it lies within the times of segments
that start in the chunk, unless there are none. -/
def EntersInTime (t : Transcript T) (c : Chunk) : Prop :=
  ∀ s ∈ t.segments, Overlaps c s → s.block.charStart < c.charStart →
    (∀ r ∈ t.segments, ¬ StartsIn c r) ∨
      (∃ r ∈ t.segments, StartsIn c r ∧ r.startSecond ≤ s.startSecond) ∧
        ∃ r ∈ t.segments, StartsIn c r ∧ s.endSecond ≤ r.endSecond

omit [LinearOrder T] in
theorem zip_blocks_anchors (t : Transcript T) :
    t.blocks.zip t.anchors = t.segments.map TimedBlock.pair := by
  unfold Transcript.blocks Transcript.anchors
  rw [List.zip_map']
  rfl

/-- What the loop has aggregated: the hull of the times of the segments that start inside. -/
def IsHull (c : Chunk) (l : List (TimedBlock T)) : Option (T × T) → Prop
  | none => ∀ s ∈ l, ¬ StartsIn c s
  | some (lo, hi) => (∀ s ∈ l, StartsIn c s → lo ≤ s.startSecond ∧ s.endSecond ≤ hi) ∧
      (∃ s ∈ l, StartsIn c s ∧ s.startSecond = lo) ∧ ∃ s ∈ l, StartsIn c s ∧ s.endSecond = hi

theorem widen_pair (cs ce : Nat) (range : Option (T × T)) (s : TimedBlock T) :
    widen cs ce range s.pair =
      if cs ≤ s.block.charStart ∧ s.block.charStart < ce then
        some (range.elim (s.startSecond, s.endSecond) fun r =>
          (min r.1 s.startSecond, max r.2 s.endSecond))
      else range :=
  rfl

theorem IsHull.widen {c : Chunk} {l : List (TimedBlock T)} {range : Option (T × T)}
    (h : IsHull c l range) (s : TimedBlock T) :
    IsHull c (l ++ [s]) (widen c.charStart c.charEnd range s.pair) := by
  have hold : ∀ {P : TimedBlock T → Prop}, (∃ r ∈ l, P r) → ∃ r ∈ l ++ [s], P r :=
    fun ⟨r, hr, hp⟩ => ⟨r, List.mem_append_left _ hr, hp⟩
  have hsplit : ∀ r ∈ l ++ [s], r ∈ l ∨ r = s := by
    intro r hr
    simpa using hr
  rw [widen_pair]
  by_cases hin : c.charStart ≤ s.block.charStart ∧ s.block.charStart < c.charEnd
  · rw [if_pos hin]
    have hnew : ∀ {P : TimedBlock T → Prop}, P s → ∃ r ∈ l ++ [s], StartsIn c r ∧ P r :=
      fun hp => ⟨s, by simp, hin, hp⟩
    cases range with
    | none =>
      refine ⟨?_, hnew rfl, hnew rfl⟩
      intro r hr hrin
      cases hsplit r hr with
      | inl hr => exact absurd hrin (h r hr)
      | inr hr => exact hr ▸ ⟨le_refl _, le_refl _⟩
    | some range =>
      obtain ⟨lo, hi⟩ := range
      obtain ⟨hcover, hlo, hhi⟩ := h
      refine ⟨?_, ?_, ?_⟩
      · intro r hr hrin
        cases hsplit r hr with
        | inl hr =>
          obtain ⟨h₁, h₂⟩ := hcover r hr hrin
          exact ⟨le_trans (min_le_left _ _) h₁, le_trans h₂ (le_max_left _ _)⟩
        | inr hr =>
          subst hr
          exact ⟨min_le_right _ _, le_max_right _ _⟩
      · cases min_choice lo s.startSecond with
        | inl hmin =>
          obtain ⟨r, hr, hrin, hreq⟩ := hlo
          exact ⟨r, List.mem_append_left _ hr, hrin, hreq.trans hmin.symm⟩
        | inr hmin => exact hnew hmin.symm
      · cases max_choice hi s.endSecond with
        | inl hmax =>
          obtain ⟨r, hr, hrin, hreq⟩ := hhi
          exact ⟨r, List.mem_append_left _ hr, hrin, hreq.trans hmax.symm⟩
        | inr hmax => exact hnew hmax.symm
  · rw [if_neg hin]
    cases range with
    | none =>
      intro r hr
      cases hsplit r hr with
      | inl hr => exact h r hr
      | inr hr => exact hr ▸ hin
    | some range =>
      obtain ⟨lo, hi⟩ := range
      obtain ⟨hcover, hlo, hhi⟩ := h
      refine ⟨?_, hold hlo, hold hhi⟩
      intro r hr hrin
      cases hsplit r hr with
      | inl hr => exact hcover r hr hrin
      | inr hr => exact absurd (hr ▸ hrin) hin

theorem isHull_foldl (c : Chunk) (l : List (TimedBlock T)) :
    IsHull c l ((l.map TimedBlock.pair).foldl (widen c.charStart c.charEnd) none) := by
  induction l using List.reverseRecOn with
  | nil => exact fun s hs => by cases hs
  | append_singleton l s ih =>
    rw [List.map_append, List.map_singleton, List.foldl_concat]
    exact ih.widen s

omit [LinearOrder T] in
/-- The last segment that starts no later than the chunk is the one that reaches into it. -/
theorem find_entering {t : Transcript T} {c : Chunk} {s : TimedBlock T} (hs : s ∈ t.segments)
    (hstart : s.block.charStart < c.charStart) (hend : c.charStart < s.block.charEnd) :
    ((t.segments.map TimedBlock.pair).reverse.find? fun x => x.1.charStart ≤ c.charStart) =
      some s.pair := by
  obtain ⟨pre, post, hsplit⟩ := List.append_of_mem hs
  have hlater : ∀ r ∈ post, c.charStart < r.block.charStart := by
    intro r hr
    have hdis := t.disjoint
    rw [hsplit, List.pairwise_append] at hdis
    exact lt_of_lt_of_le hend ((List.pairwise_cons.mp hdis.2.1).1 r hr)
  rw [hsplit, List.map_append, List.map_cons, List.reverse_append, List.reverse_cons,
    List.append_assoc, List.find?_append]
  have hnone : (post.map TimedBlock.pair).reverse.find? (fun x => x.1.charStart ≤ c.charStart) =
      none := by
    rw [List.find?_eq_none]
    intro x hx
    rw [List.mem_reverse] at hx
    obtain ⟨r, hr, rfl⟩ := List.mem_map.mp hx
    exact fun hle => absurd (of_decide_eq_true hle) (Nat.not_le.mpr (hlater r hr))
  have hfound : decide (s.pair.1.charStart ≤ c.charStart) = true :=
    decide_eq_true (le_of_lt hstart)
  rw [hnone, Option.none_or, List.singleton_append]
  exact List.find?_cons_of_pos 
    (p := fun x : Block × SourceAnchor T => decide (x.1.charStart ≤ c.charStart)) hfound

theorem timesCovered_iff (t : Transcript T) (c : Chunk) : TimesCovered t c ↔ EntersInTime t c := by
  have hhull := isHull_foldl c t.segments
  unfold TimesCovered EntersInTime chunkAnchor
  rw [zip_blocks_anchors]
  generalize (t.segments.map TimedBlock.pair).foldl (widen c.charStart c.charEnd) none = range
    at hhull
  cases range with
  | none =>
    constructor
    · intro _ s _ _ _
      exact .inl hhull
    · intro _ s hs ho
      obtain ⟨x, hsx, hxs, hcx, hxc⟩ := ho
      have hstart : s.block.charStart < c.charStart := by
        by_contra hge
        exact hhull s hs ⟨by omega, by omega⟩
      refine ⟨s.startSecond, s.endSecond, ?_, le_refl _, le_refl _⟩
      simp only
      rw [find_entering hs hstart (by omega)]
      rfl
  | some range =>
    obtain ⟨lo, hi⟩ := range
    obtain ⟨hcover, ⟨a, ha, hain, halo⟩, ⟨b, hb, hbin, hbhi⟩⟩ := hhull
    constructor
    · intro h s hs ho _
      obtain ⟨lo', hi', heq, hlo, hhi⟩ := h s hs ho
      simp only [Option.some.injEq, SourceAnchor.audio.injEq] at heq
      obtain ⟨rfl, rfl⟩ := heq
      exact .inr ⟨⟨a, ha, hain, halo ▸ hlo⟩, b, hb, hbin, hbhi ▸ hhi⟩
    · intro h s hs ho
      refine ⟨lo, hi, rfl, ?_⟩
      by_cases hstart : s.block.charStart < c.charStart
      · rcases h s hs ho hstart with hnone | ⟨⟨p, hp, hpin, hple⟩, q, hq, hqin, hqle⟩
        · exact absurd hain (hnone a ha)
        · exact ⟨le_trans (hcover p hp hpin).1 hple, le_trans hqle (hcover q hq hqin).2⟩
      · obtain ⟨x, hsx, _, _, hxc⟩ := ho
        exact hcover s hs ⟨by omega, by omega⟩

/-- The chunks of a transcript get their anchors, and these cover the times of the overlapped
segments exactly when every segment that reaches into a chunk from before it is in time. -/
theorem attachAnchors_cover_iff (toJson : SourceAnchor T → Option Str) (t : Transcript T)
    (chunks : List Chunk) :
    attachAnchorsToChunks toJson chunks t.blocks t.anchors =
        .ok (chunks.map (anchored toJson (t.blocks.zip t.anchors))) ∧
      ((∀ c ∈ chunks, TimesCovered t c) ↔ ∀ c ∈ chunks, EntersInTime t c) := by
  constructor
  · unfold attachAnchorsToChunks
    split
    · rename_i hempty
      have hnil : t.segments = [] := by
        simpa [Transcript.blocks, Transcript.anchors] using hempty
      have hsame : ∀ c, anchored toJson (t.blocks.zip t.anchors) c = c := by
        intro c
        rw [zip_blocks_anchors, hnil]
        rfl
      rw [List.map_congr_left fun c _ => hsame c, List.map_id']
    · rw [if_neg]
      simp [Transcript.blocks, Transcript.anchors]
  · simp only [timesCovered_iff]

end Cover

/-- Two segments with a blank line between them. -/
def twoSegments : Transcript Nat where
  segments :=
    [⟨⟨.paragraph, [], "alpha".toList, 0, 5⟩, 0, 5⟩, ⟨⟨.paragraph, [], "beta".toList, 7, 11⟩, 5, 9⟩]
  disjoint := by decide

/-- A chunk that starts in the middle of the first segment. -/
def rewoundChunk : Chunk :=
  ⟨"c", none, .child, 1, [], "pha\n\nbeta".toList, 0, 2, 2, 11, some .paragraph, none⟩

theorem attachAnchors_misses_entering :
    ¬ ∀ (t : Transcript Nat) (chunks : List Chunk), ∀ c ∈ chunks, TimesCovered t c := by
  intro h
  obtain ⟨lo, hi, heq, hlo, _⟩ := h twoSegments [rewoundChunk] rewoundChunk (by decide)
    ⟨⟨.paragraph, [], "alpha".toList, 0, 5⟩, 0, 5⟩ List.mem_cons_self ⟨2, by decide⟩
  have hanchor : chunkAnchor (twoSegments.blocks.zip twoSegments.anchors) rewoundChunk.charStart
      rewoundChunk.charEnd = some (.audio 5 9) := by decide
  rw [hanchor] at heq
  cases heq
  exact absurd hlo (by decide)

end LensLM
