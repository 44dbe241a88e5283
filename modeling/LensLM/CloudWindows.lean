import LensLM.Anchors
import LensLM.Settings
import LensLM.Lib.Outcome
import LensLM.Lib.Packing
import Mathlib.Algebra.Order.Field.Rat
import Mathlib.Data.Vector.Basic

/-!
# Windows of a cloud transcript

Audio that is too large for one request is cut at a quiet sample near the end of each window. The
segments of the windows are put on one timeline.
-/

namespace LensLM

open ByteText Outcome Packing Spans

set_option autoImplicit false

namespace CloudAsr

def sampleRate : Nat := 16000

structure PcmChunk where
  data : List ℚ
  startSecond : ℚ

section Wav

def wavHeaderBytes : Nat := 44
def bitsPerSample : Nat := 16
def numChannels : Nat := 1
def pcmFormat : Nat := 1

def toLeBytes : Nat → Nat → List UInt8
  | 0, _ => []
  | width + 1, n => UInt8.ofNat (n % 256) :: toLeBytes width (n / 256)

def asciiBytes (s : String) : List UInt8 := s.toList.map fun c => UInt8.ofNat c.toNat

/-- The sample between -1 and 1, scaled and cut off towards zero. -/
def f32SampleToI16 (s : ℚ) : ℤ :=
  let scaled := max (-1) (min 1 s) * 32767
  scaled.num.tdiv scaled.den

def pcmToWav (pcm : List ℚ) (sampleRate : Nat) : Except LensError (List UInt8) :=
  let bytesPerSample := bitsPerSample / 8
  let dataLen := pcm.length * bytesPerSample
  if 4294967295 < dataLen then .error (.validation "PCM too large for WAV container")
  else
    let byteRate := sampleRate * numChannels * bytesPerSample
    let blockAlign := numChannels * (bitsPerSample / 8)
    let riffSize := min (36 + dataLen) 4294967295
    .ok (asciiBytes "RIFF" ++ toLeBytes 4 riffSize ++ asciiBytes "WAVE" ++ asciiBytes "fmt " ++
      toLeBytes 4 16 ++ toLeBytes 2 pcmFormat ++ toLeBytes 2 numChannels ++
      toLeBytes 4 sampleRate ++ toLeBytes 4 byteRate ++ toLeBytes 2 blockAlign ++
      toLeBytes 2 bitsPerSample ++ asciiBytes "data" ++ toLeBytes 4 dataLen ++
      pcm.flatMap fun s => toLeBytes 2 (f32SampleToI16 s % 65536).toNat)

/-- The four bytes of a float are a parameter. -/
def pcmToLeBytes (leBytes : ℚ → List.Vector UInt8 4) (pcm : List ℚ) : List UInt8 :=
  pcm.flatMap fun s => (leBytes s).toList

/-- What is sent of a window. -/
def payload (leBytes : ℚ → List.Vector UInt8 4) (provider : CloudAsrProvider) (pcm : List ℚ)
    (sampleRate : Nat) : Except LensError (List UInt8) :=
  match provider with
  | .openAiCompatible => pcmToWav pcm sampleRate
  | .deepgram => .ok (pcmToLeBytes leBytes pcm)

end Wav

section Split

def maxPayloadBytes : CloudAsrProvider → Nat
  | .openAiCompatible => 25 * 1024 * 1024
  | .deepgram => 2 * 1024 * 1024 * 1024

def deepgramMaxChunkSeconds : Nat := 480

def maxSamplesPerChunk (provider : CloudAsrProvider) (sampleRate : Nat) : Nat :=
  let budget := maxPayloadBytes provider - (wavHeaderBytes + 4096)
  match provider with
  | .openAiCompatible => budget / 2
  | .deepgram =>
    let byBytes := budget / 4
    let byDuration := deepgramMaxChunkSeconds * sampleRate
    min byBytes byDuration

/-- The first of the quietest samples; at the beginning `bestAbs` is infinite. -/
def quietest : List (ℚ × Nat) → Nat → Option ℚ → Nat
  | [], best, _ => best
  | (v, i) :: rest, best, bestAbs =>
    if bestAbs.all (|v| < ·) then quietest rest i (some |v|) else quietest rest best bestAbs

def nearestZeroCrossing (pcm : List ℚ) (ideal radius : Nat) : Nat :=
  let lo := ideal - radius
  let hi := min (ideal + radius) (pcm.length - 1)
  let best := quietest ((pcm.zipIdx.take (hi + 1)).drop lo) (min ideal (pcm.length - 1)) none
  max best (max lo 1)

/-- Where the window that begins at `start` ends. -/
def windowEnd (pcm : List ℚ) (maxSamples radius start : Nat) : Nat :=
  let idealEnd := min (start + maxSamples) pcm.length
  if pcm.length ≤ idealEnd then pcm.length
  else max (nearestZeroCrossing pcm idealEnd radius) (start + 1)

theorem lt_windowEnd (pcm : List ℚ) (maxSamples radius : Nat) {start : Nat}
    (h : start < pcm.length) : start < windowEnd pcm maxSamples radius start := by
  simp only [windowEnd]
  split <;> omega

def splitFrom (pcm : List ℚ) (maxSamples radius sampleRate start : Nat) : List PcmChunk :=
  if start < pcm.length then
    let stop := windowEnd pcm maxSamples radius start
    ⟨part pcm ⟨start, stop⟩, start / sampleRate⟩ ::
      splitFrom pcm maxSamples radius sampleRate stop
  else []
termination_by pcm.length - start
decreasing_by
  exact Nat.sub_lt_sub_left ‹_› (lt_windowEnd pcm maxSamples radius ‹_›)

def splitIfNeeded (pcm : List ℚ) (provider : CloudAsrProvider) (sampleRate : Nat) :
    List PcmChunk :=
  let maxSamples := maxSamplesPerChunk provider sampleRate
  if pcm.isEmpty || pcm.length ≤ maxSamples then [⟨pcm, 0⟩]
  else splitFrom pcm maxSamples (max (sampleRate / 100) 1) sampleRate 0

end Split

section Stitch

/-- Later segments begin where the one before ends, or after. -/
def stitchSegment (offset : ℚ) (st : List (TranscriptSegment ℚ) × ℚ) (seg : TranscriptSegment ℚ) :
    List (TranscriptSegment ℚ) × ℚ :=
  let start := max (seg.startSecond + offset) st.2
  let stop := max (seg.endSecond + offset) start
  (st.1 ++ [⟨seg.text, start, stop⟩], stop)

def stitchSegments (chunks : List (ℚ × List (TranscriptSegment ℚ))) : List (TranscriptSegment ℚ) :=
  (chunks.foldl (fun st c => c.2.foldl (stitchSegment c.1) st) ([], 0)).1

/-- `transcribeChunk` is the answer for a window after all its retries. -/
def transcribePcm (transcribeChunk : List ℚ → Except LensError (List (TranscriptSegment ℚ)))
    (pcm : List ℚ) (provider : CloudAsrProvider) : Except LensError (List (TranscriptSegment ℚ)) := do
  let stitchedInput ← (splitIfNeeded pcm provider sampleRate).mapM fun c => do
    let segments ← transcribeChunk c.data
    return (c.startSecond, segments)
  return stitchSegments stitchedInput

end Stitch

section Payload

variable {pcm : List ℚ} {leBytes : ℚ → List.Vector UInt8 4}

@[simp] theorem length_toLeBytes (width n : Nat) : (toLeBytes width n).length = width := by
  induction width generalizing n with
  | zero => rfl
  | succ width ih => simp [toLeBytes, ih]

theorem length_flatMap_const {α β : Type} {f : α → List β} {k : Nat} (h : ∀ x, (f x).length = k)
    (l : List α) : (l.flatMap f).length = l.length * k := by
  induction l with
  | nil => simp
  | cons x l ih =>
    rw [List.flatMap_cons, List.length_append, h, ih, List.length_cons, Nat.succ_mul, Nat.add_comm]

theorem length_pcmToWav (pcm : List ℚ) (rate : Nat) (h : pcm.length * 2 ≤ 4294967295) :
    ∃ body, pcmToWav pcm rate = .ok body ∧ body.length = wavHeaderBytes + pcm.length * 2 := by
  have hsamples : (pcm.flatMap fun s => toLeBytes 2 (f32SampleToI16 s % 65536).toNat).length =
      pcm.length * 2 := length_flatMap_const (by simp) pcm
  unfold pcmToWav
  rw [if_neg (show ¬ 4294967295 < pcm.length * (bitsPerSample / 8) by
    simp only [bitsPerSample]
    omega)]
  refine ⟨_, rfl, ?_⟩
  rw [List.length_append, hsamples]
  simp [asciiBytes, wavHeaderBytes]

theorem length_pcmToLeBytes (leBytes : ℚ → List.Vector UInt8 4) (pcm : List ℚ) :
    (pcmToLeBytes leBytes pcm).length = pcm.length * 4 :=
  length_flatMap_const (by simp) pcm

/-- The slack that is kept free is larger than what the search for a quiet sample may add. -/
theorem payload_within {provider : CloudAsrProvider}
    (h : pcm.length ≤ maxSamplesPerChunk provider sampleRate + sampleRate / 100) :
    ∃ body, payload leBytes provider pcm sampleRate = .ok body ∧
      body.length ≤ maxPayloadBytes provider := by
  cases provider with
  | openAiCompatible =>
    have hbound : pcm.length ≤ 13105130 + 160 := h
    obtain ⟨body, hbody, hlen⟩ := length_pcmToWav pcm sampleRate (by omega)
    refine ⟨body, hbody, ?_⟩
    rw [hlen]
    simp only [wavHeaderBytes, maxPayloadBytes]
    omega
  | deepgram =>
    have hbound : pcm.length ≤ 7680000 + 160 := h
    refine ⟨_, rfl, ?_⟩
    rw [length_pcmToLeBytes]
    simp only [maxPayloadBytes]
    omega

end Payload

section Windows

variable {pcm : List ℚ} {maxSamples radius start : Nat}

theorem quietest_mem (l : List (ℚ × Nat)) (best : Nat) (bestAbs : Option ℚ) :
    quietest l best bestAbs = best ∨ ∃ v, (v, quietest l best bestAbs) ∈ l := by
  induction l generalizing best bestAbs with
  | nil => exact .inl rfl
  | cons x l ih =>
    obtain ⟨v, i⟩ := x
    simp only [quietest]
    split
    · rcases ih i (some |v|) with h | ⟨w, h⟩
      · exact .inr ⟨v, by rw [h]; exact List.mem_cons_self⟩
      · exact .inr ⟨w, List.mem_cons_of_mem _ h⟩
    · rcases ih best bestAbs with h | ⟨w, h⟩
      · exact .inl h
      · exact .inr ⟨w, List.mem_cons_of_mem _ h⟩

theorem index_of_mem_slice {lo hi : Nat} {v : ℚ} {i : Nat}
    (h : (v, i) ∈ (pcm.zipIdx.take (hi + 1)).drop lo) : lo ≤ i ∧ i ≤ hi := by
  obtain ⟨k, hk⟩ := List.mem_iff_getElem?.mp h
  rw [List.getElem?_drop, List.getElem?_take, List.getElem?_zipIdx] at hk
  split at hk
  · next hlt =>
    obtain ⟨w, -, hw⟩ := Option.map_eq_some_iff.mp hk
    have hi := (Prod.mk.inj hw).2
    omega
  · simp at hk

/-- The cut stays within the radius, in front of the last sample at the latest. -/
theorem nearestZeroCrossing_le (radius : Nat) {ideal : Nat} (hpos : 0 < ideal) (hlt : ideal < pcm.length) :
    nearestZeroCrossing pcm ideal radius ≤ ideal + radius ∧
      nearestZeroCrossing pcm ideal radius < pcm.length := by
  simp only [nearestZeroCrossing]
  rcases quietest_mem ((pcm.zipIdx.take (min (ideal + radius) (pcm.length - 1) + 1)).drop
    (ideal - radius)) (min ideal (pcm.length - 1)) none with h | ⟨v, h⟩
  · rw [h]
    omega
  · have hrange := index_of_mem_slice h
    omega

theorem windowEnd_le (hmax : 0 < maxSamples) (h : start < pcm.length) :
    windowEnd pcm maxSamples radius start ≤ pcm.length ∧
      windowEnd pcm maxSamples radius start ≤ start + maxSamples + radius := by
  simp only [windowEnd]
  split
  · omega
  · next hmore =>
    have hpos : 0 < min (start + maxSamples) pcm.length := by omega
    have hlt : min (start + maxSamples) pcm.length < pcm.length := by omega
    have hnear := nearestZeroCrossing_le radius hpos hlt
    omega

/-- The windows tile what is left, none longer than the limit and the radius. -/
theorem splitFrom_tiles (hmax : 0 < maxSamples) (rate n start : Nat) (hn : pcm.length - start = n)
    (h : start ≤ pcm.length) :
    ∃ spans, Tiles start pcm.length spans ∧
      splitFrom pcm maxSamples radius rate start =
        spans.map (fun s => (⟨part pcm s, (s.start : ℚ) / rate⟩ : PcmChunk)) ∧
      ∀ s ∈ spans, s.stop ≤ s.start + maxSamples + radius := by
  induction n using Nat.strong_induction_on generalizing start with
  | _ n ih =>
    rcases Nat.lt_or_ge start pcm.length with hlt | hge
    · have hprogress := lt_windowEnd pcm maxSamples radius hlt
      have hend := @windowEnd_le pcm maxSamples radius _ hmax hlt
      obtain ⟨spans, htiles, hsplit, hbound⟩ :=
        ih (pcm.length - windowEnd pcm maxSamples radius start) (by omega)
          (windowEnd pcm maxSamples radius start) rfl hend.1
      refine ⟨⟨start, windowEnd pcm maxSamples radius start⟩ :: spans, .cons hprogress htiles, ?_, ?_⟩
      · rw [splitFrom, if_pos hlt, List.map_cons, ← hsplit]
      · intro s hs
        rcases List.mem_cons.mp hs with rfl | hs
        · exact hend.2
        · exact hbound s hs
    · obtain rfl : start = pcm.length := by omega
      refine ⟨[], .nil _, ?_, by simp⟩
      rw [splitFrom, if_neg (Nat.lt_irrefl _)]
      rfl

end Windows

section Timeline

variable {segments : List (TranscriptSegment ℚ)} {last a b : ℚ}

/-- Each segment begins where the one before ends, or after, and does not end before it begins. -/
def InOrder : ℚ → List (TranscriptSegment ℚ) → Prop
  | _, [] => True
  | last, s :: segments =>
    last ≤ s.startSecond ∧ s.startSecond ≤ s.endSecond ∧ InOrder s.endSecond segments

/-- The times that a window's segments have within the window. -/
def InWindow (duration : ℚ) (segments : List (TranscriptSegment ℚ)) : Prop :=
  InOrder 0 segments ∧ ∀ s ∈ segments, s.endSecond ≤ duration

def shift (offset : ℚ) (s : TranscriptSegment ℚ) : TranscriptSegment ℚ :=
  ⟨s.text, s.startSecond + offset, s.endSecond + offset⟩

/-- What is left of the segments when each may begin at the end of the one before at the earliest. -/
def clampFrom : ℚ → List (TranscriptSegment ℚ) → List (TranscriptSegment ℚ)
  | _, [] => []
  | last, s :: segments =>
    let start := max s.startSecond last
    let stop := max s.endSecond start
    ⟨s.text, start, stop⟩ :: clampFrom stop segments

def endOf : ℚ → List (TranscriptSegment ℚ) → ℚ
  | last, [] => last
  | last, s :: segments => endOf (max s.endSecond (max s.startSecond last)) segments

theorem clampFrom_append (last : ℚ) (l r : List (TranscriptSegment ℚ)) :
    clampFrom last (l ++ r) = clampFrom last l ++ clampFrom (endOf last l) r := by
  induction l generalizing last with
  | nil => rfl
  | cons s l ih => rw [List.cons_append, clampFrom, clampFrom, endOf, ih, List.cons_append]

theorem foldl_stitchSegment (offset : ℚ) (out : List (TranscriptSegment ℚ)) (last : ℚ)
    (segments : List (TranscriptSegment ℚ)) :
    segments.foldl (stitchSegment offset) (out, last) =
      (out ++ clampFrom last (segments.map (shift offset)),
        endOf last (segments.map (shift offset))) := by
  induction segments generalizing out last with
  | nil => simp [clampFrom, endOf]
  | cons s segments ih =>
    rw [List.foldl_cons, stitchSegment, ih, List.map_cons, clampFrom, endOf]
    simp only [shift, List.append_assoc, List.singleton_append]

/-- The segments of all windows at their places, clamped one after the other. -/
theorem stitchSegments_eq (chunks : List (ℚ × List (TranscriptSegment ℚ))) :
    stitchSegments chunks = clampFrom 0 (chunks.flatMap fun c => c.2.map (shift c.1)) := by
  have hfold : ∀ out last, (chunks.foldl (fun st c => c.2.foldl (stitchSegment c.1) st)
      (out, last)).1 = out ++ clampFrom last (chunks.flatMap fun c => c.2.map (shift c.1)) := by
    induction chunks with
    | nil => simp [clampFrom]
    | cons c chunks ih =>
      intro out last
      rw [List.foldl_cons, foldl_stitchSegment, ih, List.flatMap_cons, clampFrom_append,
        List.append_assoc]
  exact hfold [] 0

theorem clampFrom_inOrder (last : ℚ) (segments : List (TranscriptSegment ℚ)) :
    InOrder last (clampFrom last segments) := by
  induction segments generalizing last with
  | nil => trivial
  | cons s segments ih => exact ⟨le_max_right _ _, le_max_right _ _, ih _⟩

theorem map_text_clampFrom (last : ℚ) (segments : List (TranscriptSegment ℚ)) :
    (clampFrom last segments).map TranscriptSegment.text =
      segments.map TranscriptSegment.text := by
  induction segments generalizing last with
  | nil => rfl
  | cons s segments ih => rw [clampFrom, List.map_cons, ih, List.map_cons]

/-- Segments that are in order already are left as they are. -/
theorem InOrder.clampFrom_eq (h : InOrder last segments) : clampFrom last segments = segments := by
  induction segments generalizing last with
  | nil => rfl
  | cons s segments ih =>
    obtain ⟨hlast, hstop, htail⟩ := h
    rw [clampFrom, max_eq_left hlast, max_eq_left hstop, ih htail]

theorem InOrder.mono (h : InOrder b segments) (hab : a ≤ b) : InOrder a segments := by
  cases segments with
  | nil => trivial
  | cons s segments => exact ⟨le_trans hab h.1, h.2⟩

theorem InOrder.append {l r : List (TranscriptSegment ℚ)} (hl : InOrder a l)
    (hend : ∀ s ∈ l, s.endSecond ≤ b) (hab : a ≤ b) (hr : InOrder b r) : InOrder a (l ++ r) := by
  induction l generalizing a with
  | nil => exact hr.mono hab
  | cons s l ih =>
    obtain ⟨hstart, hstop, htail⟩ := hl
    refine ⟨hstart, hstop, ih htail ?_ (hend s List.mem_cons_self)⟩
    exact fun t ht => hend t (List.mem_cons_of_mem _ ht)

theorem InOrder.shift (offset : ℚ) (h : InOrder a segments) :
    InOrder (a + offset) (segments.map (shift offset)) := by
  induction segments generalizing a with
  | nil => trivial
  | cons s segments ih =>
    obtain ⟨hstart, hstop, htail⟩ := h
    exact ⟨add_le_add_left hstart _, add_le_add_left hstop _, ih htail⟩

theorem InOrder.pairwise (h : InOrder a segments) :
    segments.Pairwise (fun s t => s.endSecond ≤ t.startSecond) ∧
      ∀ s ∈ segments, a ≤ s.startSecond ∧ s.startSecond ≤ s.endSecond := by
  induction segments generalizing a with
  | nil => simp
  | cons s segments ih =>
    obtain ⟨hstart, hstop, htail⟩ := h
    obtain ⟨hpairs, hall⟩ := ih htail
    refine ⟨List.pairwise_cons.mpr ⟨fun t ht => (hall t ht).1, hpairs⟩, ?_⟩
    intro t ht
    rcases List.mem_cons.mp ht with rfl | ht
    · exact ⟨hstart, hstop⟩
    · exact ⟨le_trans hstart (le_trans hstop (hall t ht).1), (hall t ht).2⟩

def windowOf (pcm : List ℚ) (s : Span) : PcmChunk := ⟨part pcm s, (s.start : ℚ) / sampleRate⟩

/-- A window begins where the one before it ends. -/
theorem inOrder_windows {pcm : List ℚ} {m n : Nat} {spans : List Span} (htiles : Tiles m n spans)
    (hn : n ≤ pcm.length) {segments : List (List (TranscriptSegment ℚ))}
    (hlocal : List.Forall₂ (fun s l => InWindow (((windowOf pcm s).data.length : ℚ) / sampleRate) l)
      spans segments) :
    InOrder ((m : ℚ) / sampleRate) ((spans.zip segments).flatMap fun x =>
      x.2.map (shift (windowOf pcm x.1).startSecond)) := by
  induction htiles generalizing segments with
  | nil a => trivial
  | @cons a b c spans hab htail ih =>
    cases hlocal with
    | @cons _ l _ segments hl hrest =>
      obtain ⟨horder, hinside⟩ := hl
      have hlen : (windowOf pcm ⟨a, b⟩).data.length = b - a :=
        length_part (Nat.le_trans htail.le hn)
      rw [hlen] at hinside
      have hend : ((b - a : Nat) : ℚ) / sampleRate + a / sampleRate = b / sampleRate := by
        rw [← add_div, Nat.cast_sub (Nat.le_of_lt hab), sub_add_cancel]
      have hle : (a : ℚ) / sampleRate ≤ b / sampleRate := by
        rw [← hend]
        exact le_add_of_nonneg_left (div_nonneg (Nat.cast_nonneg _) (Nat.cast_nonneg _))
      rw [List.zip_cons_cons, List.flatMap_cons]
      refine InOrder.append ?_ ?_ hle (ih hn hrest)
      · have := horder.shift ((a : ℚ) / sampleRate)
        rwa [zero_add] at this
      · intro s hs
        obtain ⟨t, ht, rfl⟩ := List.mem_map.mp hs
        rw [← hend]
        exact add_le_add_left (hinside t ht) _

end Timeline

section Main

variable {pcm : List ℚ} {provider : CloudAsrProvider}

theorem maxSamplesPerChunk_pos (provider : CloudAsrProvider) :
    0 < maxSamplesPerChunk provider sampleRate := by
  cases provider <;> decide

theorem splitIfNeeded_tiles (provider : CloudAsrProvider) (h : pcm ≠ []) :
    ∃ spans, Tiles 0 pcm.length spans ∧
      splitIfNeeded pcm provider sampleRate = spans.map (windowOf pcm) ∧
      ∀ s ∈ spans, s.stop ≤ s.start + maxSamplesPerChunk provider sampleRate + sampleRate / 100 := by
  simp only [splitIfNeeded]
  split
  · next hsmall =>
    have hlen : pcm.length ≤ maxSamplesPerChunk provider sampleRate := by simpa [h] using hsmall
    refine ⟨[⟨0, pcm.length⟩], .cons (List.length_pos_of_ne_nil h) (.nil _), ?_, ?_⟩
    · simp [windowOf, part_all]
    · intro s hs
      obtain rfl : s = ⟨0, pcm.length⟩ := by simpa using hs
      simp only
      omega
  · exact splitFrom_tiles (maxSamplesPerChunk_pos provider) sampleRate pcm.length 0 rfl
      (Nat.zero_le _)

theorem windowOf_length {m : Nat} {spans : List Span} (h : Tiles m pcm.length spans) :
    ∀ s ∈ spans, (windowOf pcm s).data.length = s.stop - s.start := by
  intro s hs
  exact length_part (h.stop_le hs)

theorem windowOf_ne_nil {m : Nat} {spans : List Span} (h : Tiles m pcm.length spans) :
    ∀ s ∈ spans, (windowOf pcm s).data ≠ [] := by
  intro s hs
  obtain ⟨before, after, rfl⟩ := List.append_of_mem hs
  obtain ⟨b, -, htail⟩ := h.of_append
  apply List.ne_nil_of_length_pos
  rw [windowOf_length h s hs]
  cases htail with
  | cons hlt _ => exact Nat.sub_pos_of_lt hlt

/-- A window starts after the samples of those before it. -/
theorem windowOf_startSecond {spans : List Span} (h : Tiles 0 pcm.length spans)
    {before after : List PcmChunk} {c : PcmChunk}
    (heq : spans.map (windowOf pcm) = before ++ c :: after) :
    c.startSecond = ((before.flatMap PcmChunk.data).length : ℚ) / sampleRate := by
  obtain ⟨spans, rest, rfl, rfl, hrest⟩ := List.map_eq_append_iff.mp heq
  obtain ⟨s, rest, rfl, rfl, -⟩ := List.map_eq_cons_iff.mp hrest
  obtain ⟨b, hbefore, hafter⟩ := h.of_append
  have hle : b ≤ pcm.length := hafter.le
  have hstart : s.start = b := by
    cases hafter with
    | cons _ _ => rfl
  have hdata : (spans.map (windowOf pcm)).flatMap PcmChunk.data = part pcm ⟨0, b⟩ := by
    rw [List.flatMap_map]
    exact hbefore.flatMap_part
  rw [hdata, length_part hle, windowOf, hstart, Nat.sub_zero]

theorem zip_startSecond (chunks : List PcmChunk) (segments : List (List (TranscriptSegment ℚ))) :
    ((chunks.map PcmChunk.startSecond).zip segments).flatMap (fun c => c.2.map (shift c.1)) =
      (chunks.zip segments).flatMap fun x => x.2.map (shift x.1.startSecond) := by
  rw [List.zip_map_left, List.flatMap_map]
  rfl

/-- Segments that are in order within their windows keep their times, moved by the windows'. -/
theorem stitchSegments_windows {segments : List (List (TranscriptSegment ℚ))}
    (hlocal : List.Forall₂ (fun c l => InWindow ((c.data.length : ℚ) / sampleRate) l)
      (splitIfNeeded pcm provider sampleRate) segments) :
    stitchSegments (((splitIfNeeded pcm provider sampleRate).map PcmChunk.startSecond).zip
      segments) = ((splitIfNeeded pcm provider sampleRate).zip segments).flatMap fun x =>
        x.2.map (shift x.1.startSecond) := by
  rw [stitchSegments_eq, zip_startSecond]
  apply InOrder.clampFrom_eq
  by_cases hempty : pcm = []
  · subst hempty
    have hone : splitIfNeeded [] provider sampleRate = [⟨[], 0⟩] := rfl
    rw [hone] at hlocal ⊢
    cases hlocal with
    | cons hl hrest =>
      cases hrest
      have := hl.1.shift 0
      simpa using this
  · obtain ⟨spans, htiles, hsplit, -⟩ := splitIfNeeded_tiles provider hempty
    rw [hsplit] at hlocal ⊢
    rw [List.forall₂_map_left_iff] at hlocal
    have horder := inOrder_windows htiles (Nat.le_refl _) hlocal
    rw [Nat.cast_zero, zero_div] at horder
    rw [List.zip_map_left, List.flatMap_map]
    exact horder

section Transcribe

variable {transcribeChunk : List ℚ → Except LensError (List (TranscriptSegment ℚ))}

theorem transcribed_windows {chunks : List PcmChunk} {input : List (ℚ × List (TranscriptSegment ℚ))}
    (h : (chunks.mapM fun c => do
      let segments ← transcribeChunk c.data
      return (c.startSecond, segments)) = .ok input) :
    ∃ segments, List.Forall₂ (fun c l => transcribeChunk c.data = .ok l) chunks segments ∧
      input = (chunks.map PcmChunk.startSecond).zip segments := by
  induction chunks generalizing input with
  | nil =>
    obtain rfl : [] = input := by simpa [pure, Except.pure] using h
    exact ⟨[], .nil, rfl⟩
  | cons c chunks ih =>
    rw [List.mapM_cons] at h
    obtain ⟨x, hx, h⟩ := bind_eq_ok.mp h
    obtain ⟨rest, hrest, h⟩ := bind_eq_ok.mp h
    obtain rfl : x :: rest = input := by simpa [pure, Except.pure] using h
    obtain ⟨l, hl, hx⟩ := bind_eq_ok.mp hx
    obtain rfl : (c.startSecond, l) = x := by simpa [pure, Except.pure] using hx
    obtain ⟨segments, hall, rfl⟩ := ih hrest
    exact ⟨l :: segments, .cons hl hall, rfl⟩

theorem transcribePcm_eq_ok {out : List (TranscriptSegment ℚ)}
    (h : transcribePcm transcribeChunk pcm provider = .ok out) :
    ∃ segments, List.Forall₂ (fun c l => transcribeChunk c.data = .ok l)
        (splitIfNeeded pcm provider sampleRate) segments ∧
      out = stitchSegments (((splitIfNeeded pcm provider sampleRate).map PcmChunk.startSecond).zip
        segments) := by
  obtain ⟨input, hinput, hout⟩ := bind_eq_ok.mp h
  obtain rfl : stitchSegments input = out := by simpa [pure, Except.pure] using hout
  obtain ⟨segments, hall, rfl⟩ := transcribed_windows hinput
  exact ⟨segments, hall, rfl⟩

end Transcribe

/-- The windows hold the samples in order, each knows its place in time, and none is too large to
be sent. The stitched segments are in order, and those that fit into their windows are not
moved against them. -/
theorem cloudWindows_timeline (leBytes : ℚ → List.Vector UInt8 4) (pcm : List ℚ)
    (provider : CloudAsrProvider) :
    let chunks := splitIfNeeded pcm provider sampleRate
    (pcm = [] → chunks = [⟨[], 0⟩]) ∧ (pcm ≠ [] → ∀ c ∈ chunks, c.data ≠ []) ∧
    chunks.flatMap PcmChunk.data = pcm ∧
    (∀ before c after, chunks = before ++ c :: after →
      c.startSecond = ((before.flatMap PcmChunk.data).length : ℚ) / sampleRate) ∧
    (∀ c ∈ chunks, ∃ body, payload leBytes provider c.data sampleRate = .ok body ∧
      body.length ≤ maxPayloadBytes provider) ∧
    (∀ input, (stitchSegments input).map TranscriptSegment.text =
        (input.flatMap Prod.snd).map TranscriptSegment.text ∧
      (stitchSegments input).Pairwise (fun s t => s.endSecond ≤ t.startSecond) ∧
      ∀ s ∈ stitchSegments input, 0 ≤ s.startSecond ∧ s.startSecond ≤ s.endSecond) ∧
    (∀ segments, List.Forall₂ (fun c l => InWindow ((c.data.length : ℚ) / sampleRate) l)
        chunks segments →
      stitchSegments ((chunks.map PcmChunk.startSecond).zip segments) =
        (chunks.zip segments).flatMap fun x => x.2.map (shift x.1.startSecond)) ∧
    ∀ transcribeChunk out, transcribePcm transcribeChunk pcm provider = .ok out →
      ∃ segments, List.Forall₂ (fun c l => transcribeChunk c.data = .ok l) chunks segments ∧
        out = stitchSegments ((chunks.map PcmChunk.startSecond).zip segments) := by
  intro chunks
  have hstitch : ∀ input, (stitchSegments input).map TranscriptSegment.text =
      (input.flatMap Prod.snd).map TranscriptSegment.text := by
    intro input
    rw [stitchSegments_eq, map_text_clampFrom, List.map_flatMap, List.map_flatMap]
    congr 1
    funext c
    rw [List.map_map]
    rfl
  have horder : ∀ input, InOrder 0 (stitchSegments input) := by
    intro input
    rw [stitchSegments_eq]
    exact clampFrom_inOrder 0 _
  refine ⟨?_, ?_, ?_, ?_, ?_, fun input => ⟨hstitch input, (horder input).pairwise⟩,
    fun segments => stitchSegments_windows, fun _ _ => transcribePcm_eq_ok⟩
  · rintro rfl
    rfl
  · intro hpcm c hc
    obtain ⟨spans, htiles, hsplit, -⟩ := splitIfNeeded_tiles provider hpcm
    obtain ⟨s, hs, rfl⟩ := List.mem_map.mp (hsplit ▸ hc : c ∈ spans.map (windowOf pcm))
    exact windowOf_ne_nil htiles s hs
  · by_cases hpcm : pcm = []
    · subst hpcm
      rfl
    · obtain ⟨spans, htiles, hsplit, -⟩ := splitIfNeeded_tiles provider hpcm
      simp only [chunks, hsplit, List.flatMap_map]
      exact htiles.flatMap_part.trans part_all
  · intro before c after heq
    by_cases hpcm : pcm = []
    · subst hpcm
      have hone : [⟨[], 0⟩] = before ++ c :: after := heq
      obtain ⟨rfl, rfl, rfl⟩ : before = [] ∧ c = ⟨[], 0⟩ ∧ after = [] := by
        cases before with
        | nil => simpa [eq_comm] using hone
        | cons b before => simp at hone
      simp
    · obtain ⟨spans, htiles, hsplit, -⟩ := splitIfNeeded_tiles provider hpcm
      exact windowOf_startSecond htiles (hsplit.symm.trans heq)
  · intro c hc
    by_cases hpcm : pcm = []
    · subst hpcm
      obtain rfl := List.mem_singleton.mp (show c ∈ [(⟨[], 0⟩ : PcmChunk)] from hc)
      exact payload_within (by simp)
    · obtain ⟨spans, htiles, hsplit, hbound⟩ := splitIfNeeded_tiles provider hpcm
      obtain ⟨s, hs, rfl⟩ := List.mem_map.mp (hsplit ▸ hc : c ∈ spans.map (windowOf pcm))
      apply payload_within
      rw [windowOf_length htiles s hs]
      have := hbound s hs
      omega

end Main

end CloudAsr

end LensLM
