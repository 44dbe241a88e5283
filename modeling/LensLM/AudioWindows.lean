import LensLM.Error
import LensLM.Lib.BlockFeed
import Mathlib.Algebra.Order.Field.Rat
import Mathlib.Data.List.GetD

/-!
# Windows of decoded audio

Packets are decoded one after the other, resampled in blocks, and given out in windows of one size.
What a window has too much waits for the next.
-/

namespace LensLM

open BlockFeed

set_option autoImplicit false

def targetSampleRate : Nat := 16000

def resampleChunkFrames : Nat := 1024

/-- The resampler keeps a delay line between its calls. Its errors are those that the iterator makes
of them. -/
structure Resampler (σ : Type) where
  new : Nat → Except LensError σ
  process : σ → List ℚ → Except LensError (σ × List ℚ)
  processPartial : σ → Option (List ℚ) → Except LensError (σ × List ℚ)

/-- What the next packet of the track decodes to, mixed down to one channel. -/
inductive AudioRead where
  | packet (rate channels : Nat) (mono : List ℚ)
  | failed (err : LensError)

structure WindowIter (σ : Type) where
  reads : List AudioRead
  resampler : Option σ
  sourceRate : Nat
  channels : Nat
  srcPending : List ℚ
  outPending : List ℚ
  windowFrames : Nat
  path : String
  eof : Bool
  done : Bool

/-- The iterator before the first packet. -/
def WindowIter.open {σ : Type} (reads : List AudioRead) (windowFrames : Nat) (path : String) :
    WindowIter σ :=
  ⟨reads, none, 0, 0, [], [], max windowFrames 1, path, false, false⟩

def verifySpecUnchanged (latchedRate latchedCh pktRate pktCh : Nat) (path : String) :
    Except LensError Unit :=
  if latchedRate ≠ pktRate ∨ latchedCh ≠ pktCh then
    .error (.mediaDecodeFailed (s!"{path}: mid-stream audio spec change " ++
      s!"(rate {latchedRate}->{pktRate}, channels {latchedCh}->{pktCh}); single-spec files only"))
  else .ok ()

def clampSample (s : ℚ) : ℚ := max (-1) (min 1 s)

namespace WindowIter

variable {σ : Type} (machine : Resampler σ)

def checkAndInitSpec (it : WindowIter σ) (rate ch : Nat) : Except LensError (WindowIter σ) :=
  if it.sourceRate ≠ 0 then do
    verifySpecUnchanged it.sourceRate it.channels rate ch it.path
    return it
  else do
    let it := { it with sourceRate := rate, channels := ch }
    if rate ≠ targetSampleRate then
      let rs ← machine.new rate
      return { it with resampler := some rs }
    else return it

/-- No packet is left at the end of the stream. -/
def decodeNextPacket (it : WindowIter σ) : Except LensError (Bool × WindowIter σ) :=
  match it.reads with
  | [] => .ok (false, it)
  | .failed err :: _ => .error err
  | .packet rate ch mono :: reads => do
    let it := { it with reads, srcPending := it.srcPending ++ mono }
    let it ← checkAndInitSpec machine it rate ch
    return (true, it)

/-- `isLast` stands for the short block at the end. Without a resampler the samples are copied. -/
def resampleChunk (resampler : Option σ) (chunk : List ℚ) (isLast : Bool) :
    Except LensError (Option σ × List ℚ) :=
  match resampler with
  | none => .ok (none, chunk.map clampSample)
  | some rs => do
    let r ← if isLast then machine.processPartial rs (some chunk) else machine.process rs chunk
    return (some r.1, r.2.map clampSample)

def pumpResampler (it : WindowIter σ) : Except LensError (WindowIter σ) :=
  if resampleChunkFrames ≤ it.srcPending.length then do
    let chunk := it.srcPending.take resampleChunkFrames
    let r ← resampleChunk machine it.resampler chunk false
    pumpResampler { it with
      resampler := r.1
      srcPending := it.srcPending.drop resampleChunkFrames
      outPending := it.outPending ++ r.2 }
  else .ok it
termination_by it.srcPending.length
decreasing_by
  simp only [List.length_drop]
  have : 0 < resampleChunkFrames := by decide
  omega

def flushResampler (it : WindowIter σ) : Except LensError (WindowIter σ) := do
  let it ← if !it.srcPending.isEmpty then do
      let r ← resampleChunk machine it.resampler it.srcPending true
      pure { it with resampler := r.1, srcPending := [], outPending := it.outPending ++ r.2 }
    else pure it
  match it.resampler with
  | none => return it
  | some rs =>
    let r ← machine.processPartial rs none
    return { it with resampler := some r.1, outPending := it.outPending ++ r.2.map clampSample }

abbrev Item := Option (Except LensError (List ℚ))

def fail (it : WindowIter σ) (err : LensError) : Item × WindowIter σ :=
  (some (.error err), { it with done := true })

def takeWindow (it : WindowIter σ) : Item × WindowIter σ :=
  (some (.ok (it.outPending.take it.windowFrames)),
    { it with outPending := it.outPending.drop it.windowFrames })

/-- What happens when the loop comes by with `eof` set. -/
def finish (it : WindowIter σ) : Item × WindowIter σ :=
  match flushResampler machine it with
  | .error err => it.fail err
  | .ok it =>
    let it := { it with done := true }
    if it.outPending.isEmpty then (none, it)
    else (some (.ok it.outPending), { it with outPending := [] })

/-- The loop of `next`, by recursion on the packets that are left. When there is none `eof` is set,
and the loop comes by once more with as little output as before. -/
def loop : List AudioRead → WindowIter σ → Item × WindowIter σ
  | [], it =>
    if it.windowFrames ≤ it.outPending.length then it.takeWindow
    else finish machine { it with eof := true }
  | _ :: reads, it =>
    if it.windowFrames ≤ it.outPending.length then it.takeWindow
    else if it.eof then finish machine it
    else
      match decodeNextPacket machine it with
      | .error err => it.fail err
      | .ok (_, it) =>
        match pumpResampler machine it with
        | .error err => it.fail err
        | .ok it => loop reads it

def next (it : WindowIter σ) : Item × WindowIter σ :=
  if it.done then (none, it) else loop machine it.reads it

/-- What the `k`-th call of `next` yields. -/
def yields (it : WindowIter σ) : Nat → Item
  | 0 => (next machine it).1
  | k + 1 => yields (next machine it).2 k

section Whole

/-- What all packets of a stream have in common. -/
structure AudioFormat where
  rate : Nat
  channels : Nat
  rate_pos : 0 < rate

def AudioFormat.reads (f : AudioFormat) (packets : List (List ℚ)) : List AudioRead :=
  packets.map (.packet f.rate f.channels)

def blockStep (resampler : Option σ) (block : List ℚ) : Except LensError (Option σ × List ℚ) :=
  resampleChunk machine resampler block false

/-- The short block at the end and what the delay line still holds. -/
def tailOf (resampler : Option σ) (pending : List ℚ) : Except LensError (List ℚ) := do
  let r ← if pending.isEmpty then pure (resampler, []) else
    resampleChunk machine resampler pending true
  match r.1 with
  | none => return r.2
  | some rs =>
    let flushed ← machine.processPartial rs none
    return r.2 ++ flushed.2.map clampSample

/-- All that is still to come when these samples are the last ones. -/
def drain (resampler : Option σ) (pending : List ℚ) : Except LensError (List ℚ) :=
  (feed (blockStep machine) resampleChunkFrames resampler pending).bind fun r =>
    (tailOf machine r.1 r.2.1).map (r.2.2 ++ ·)

def resamplerFor (f : AudioFormat) : Except LensError (Option σ) :=
  if f.rate ≠ targetSampleRate then (machine.new f.rate).map some else .ok none

/-- The signal of a stream as one buffer. -/
def signal (f : AudioFormat) (samples : List ℚ) : Except LensError (List ℚ) :=
  (resamplerFor machine f).bind fun resampler => drain machine resampler samples

/-- What an iterator that has read a packet still has to yield. -/
def remaining (it : WindowIter σ) (packets : List (List ℚ)) : Except LensError (List ℚ) :=
  (drain machine it.resampler (it.srcPending ++ packets.flatten)).map (it.outPending ++ ·)

end Whole

section Steps

variable {machine} {f : AudioFormat} {n : Nat} {it : WindowIter σ} {packets : List (List ℚ)}

theorem pumpResampler_eq (it : WindowIter σ) : pumpResampler machine it =
    (feed (blockStep machine) resampleChunkFrames it.resampler it.srcPending).map fun r =>
      { it with resampler := r.1, srcPending := r.2.1, outPending := it.outPending ++ r.2.2 } := by
  have hsize : 0 < resampleChunkFrames := by decide
  induction hn : it.srcPending.length using Nat.strongRecOn generalizing it with
  | _ n ih =>
    rw [pumpResampler]
    rcases Nat.lt_or_ge it.srcPending.length resampleChunkFrames with hshort | hlong
    · rw [if_neg (Nat.not_le.mpr hshort), feed_short hshort]
      simp [Except.map]
    · rw [if_pos hlong, feed_block hsize hlong]
      simp only [blockStep, bind, Except.bind]
      cases resampleChunk machine it.resampler (it.srcPending.take resampleChunkFrames) false with
      | error e => rfl
      | ok r =>
        simp only
        rw [ih (it.srcPending.drop resampleChunkFrames).length
          (by rw [List.length_drop]; omega) _ rfl]
        simp only
        cases feed (blockStep machine) resampleChunkFrames r.1
            (it.srcPending.drop resampleChunkFrames) with
        | error e => rfl
        | ok rest => simp only [Except.map, List.append_assoc]

theorem flushResampler_eq (it : WindowIter σ) :
    (flushResampler machine it).map WindowIter.outPending =
      (tailOf machine it.resampler it.srcPending).map (it.outPending ++ ·) := by
  unfold flushResampler tailOf
  cases hempty : it.srcPending.isEmpty with
  | true =>
    simp only [Bool.not_true, if_true, bind, Except.bind, pure, Except.pure]
    cases it.resampler with
    | none => simp [Except.map]
    | some rs => 
      simp only
      cases machine.processPartial rs none with
      | error e => rfl
      | ok l => simp [Except.map]
  | false =>
    simp only [Bool.not_false, if_true, bind, Except.bind, pure, Except.pure]
    cases resampleChunk machine it.resampler it.srcPending true with
    | error e => simp [Except.map]
    | ok r =>
      simp only
      cases r.1 with
      | none => simp [Except.map]
      | some rs =>
        simp only
        cases machine.processPartial rs none with
        | error e => simp [Except.map]
        | ok l => simp [Except.map]

/-- The format is known and fits the packets that are left. -/
structure Latched (f : AudioFormat) (n : Nat) (it : WindowIter σ) (packets : List (List ℚ)) :
    Prop where
  reads : it.reads = f.reads packets
  rate : it.sourceRate = f.rate
  channels : it.channels = f.channels
  frames : it.windowFrames = n
  running : it.done = false
  going : it.eof = false

/-- No whole block is waiting. -/
structure Streaming (f : AudioFormat) (n : Nat) (it : WindowIter σ) (packets : List (List ℚ)) :
    Prop extends Latched f n it packets where
  short : it.srcPending.length < resampleChunkFrames

/-- What a call yields of `rest`, all that is to come, and which iterator it leaves. -/
inductive Outcome (machine : Resampler σ) (f : AudioFormat) (n : Nat)
    (less : List (List ℚ) → WindowIter σ → Prop) (rest : Except LensError (List ℚ)) :
    Item × WindowIter σ → Prop
  | window {w : List ℚ} {it : WindowIter σ} {packets : List (List ℚ)} : w.length = n →
      Streaming f n it packets → less packets it →
      rest = (remaining machine it packets).map (w ++ ·) → Outcome machine f n less rest (some (.ok w), it)
  | last {w : List ℚ} {it : WindowIter σ} : w ≠ [] → it.done = true → rest = .ok w →
      Outcome machine f n less rest (some (.ok w), it)
  | stop {it : WindowIter σ} : it.done = true → rest = .ok [] →
      Outcome machine f n less rest (none, it)
  | failed {e : LensError} {it : WindowIter σ} : it.done = true → rest = .error e →
      Outcome machine f n less rest (some (.error e), it)

theorem Outcome.mono {less less' : List (List ℚ) → WindowIter σ → Prop}
    {rest : Except LensError (List ℚ)} {out : Item × WindowIter σ}
    (h : Outcome machine f n less rest out) (hless : ∀ ps it, less ps it → less' ps it) :
    Outcome machine f n less' rest out := by
  cases h with
  | window hlen hstream hl hrest => exact .window hlen hstream (hless _ _ hl) hrest
  | last hne hdone hrest => exact .last hne hdone hrest
  | stop hdone hrest => exact .stop hdone hrest
  | failed hdone hrest => exact .failed hdone hrest

theorem takeWindow_outcome (h : Streaming f n it packets) (hready : it.windowFrames ≤ it.outPending.length)
    {less : List (List ℚ) → WindowIter σ → Prop}
    (hless : ∀ it', it'.outPending = it.outPending.drop n → less packets it') :
    Outcome machine f n less (remaining machine it packets) it.takeWindow := by
  have hframes := h.frames
  refine .window ?_ ⟨⟨h.reads, h.rate, h.channels, h.frames, h.running, h.going⟩, h.short⟩
    (hless _ (by rw [← hframes])) ?_
  · rw [List.length_take]
    omega
  · unfold remaining
    cases drain machine it.resampler (it.srcPending ++ packets.flatten) with
    | error e => rfl
    | ok s =>
      simp only [Except.map]
      rw [← List.append_assoc, List.take_append_drop]

theorem finish_outcome (hshort : it.srcPending.length < resampleChunkFrames)
    {less : List (List ℚ) → WindowIter σ → Prop} :
    Outcome machine f n less (remaining machine it []) (finish machine { it with eof := true }) := by
  have hrest : remaining machine it [] =
      (tailOf machine it.resampler it.srcPending).map (it.outPending ++ ·) := by
    rw [remaining, List.flatten_nil, List.append_nil, drain, feed_short hshort]
    simp only [Except.bind]
    cases tailOf machine it.resampler it.srcPending with
    | error e => rfl
    | ok t => simp only [Except.map, List.nil_append]
  have hflush := @flushResampler_eq σ machine { it with eof := true }
  rw [hrest, ← hflush, finish]
  cases flushResampler machine { it with eof := true } with
  | error e => exact .failed rfl rfl
  | ok it' =>
    simp only [Except.map]
    cases hempty : it'.outPending.isEmpty with
    | true =>
      have hnil : it'.outPending = [] := List.isEmpty_iff.mp hempty
      exact .stop rfl (by rw [hnil])
    | false =>
      have hne : it'.outPending ≠ [] := by
        intro hnil
        rw [hnil] at hempty
        simp at hempty
      exact .last hne rfl rfl

/-- Pumping moves nothing out of what is still to come. -/
theorem remaining_pump (it : WindowIter σ) (packets : List (List ℚ)) :
    remaining machine it packets =
      (pumpResampler machine it).bind fun it' => remaining machine it' packets := by
  have hsize : 0 < resampleChunkFrames := by decide
  rw [remaining, drain, feed_append hsize, pumpResampler_eq]
  cases feed (blockStep machine) resampleChunkFrames it.resampler it.srcPending with
  | error e => rfl
  | ok r =>
    simp only [Except.bind, Except.map, remaining, drain]
    cases feed (blockStep machine) resampleChunkFrames r.1 (r.2.1 ++ packets.flatten) with
    | error e => rfl
    | ok rest =>
      simp only
      cases tailOf machine rest.1 rest.2.1 with
      | error e => rfl
      | ok t => simp only [List.append_assoc]

theorem pumped (h : Latched f n it packets) {it' : WindowIter σ}
    (hpump : pumpResampler machine it = .ok it') : Streaming f n it' packets := by
  have hsize : 0 < resampleChunkFrames := by decide
  rw [pumpResampler_eq] at hpump
  cases hfeed : feed (blockStep machine) resampleChunkFrames it.resampler it.srcPending with
  | error e => simp [hfeed, Except.map] at hpump
  | ok r =>
    simp only [hfeed, Except.map, Except.ok.injEq] at hpump
    subst hpump
    exact ⟨⟨h.reads, h.rate, h.channels, h.frames, h.running, h.going⟩,
      length_left_lt hsize hfeed⟩

def withPacket (it : WindowIter σ) (reads : List AudioRead) (p : List ℚ) : WindowIter σ :=
  { it with reads, srcPending := it.srcPending ++ p }

theorem remaining_withPacket (it : WindowIter σ) (reads : List AudioRead) (p : List ℚ)
    (packets : List (List ℚ)) :
    remaining machine (it.withPacket reads p) packets = remaining machine it (p :: packets) := by
  simp only [remaining, withPacket, List.flatten_cons, List.append_assoc]

/-- A further packet of the format does not change anything but the pending samples. -/
theorem Latched.decodeNextPacket_eq {p : List ℚ} (h : Latched f n it (p :: packets)) :
    decodeNextPacket machine it = .ok (true, it.withPacket (f.reads packets) p) := by
  have hrate : it.sourceRate ≠ 0 := by
    rw [h.rate]
    exact Nat.pos_iff_ne_zero.mp f.rate_pos
  have hsame : ¬ (it.sourceRate ≠ f.rate ∨ it.channels ≠ f.channels) := by
    simp [h.rate, h.channels]
  rw [decodeNextPacket, h.reads]
  simp only [AudioFormat.reads, List.map_cons, checkAndInitSpec, if_pos hrate,
    verifySpecUnchanged, if_neg hsame]
  rfl

/-- What a call does after it has read a packet. -/
def afterRead (machine : Resampler σ) (reads : List AudioRead) (it : WindowIter σ) :
    Item × WindowIter σ :=
  match pumpResampler machine it with
  | .error err => it.fail err
  | .ok it => loop machine reads it

theorem loop_read {r : AudioRead} {reads : List AudioRead}
    (hout : ¬ it.windowFrames ≤ it.outPending.length) (heof : it.eof = false) :
    loop machine (r :: reads) it =
      match decodeNextPacket machine it with
      | .error err => it.fail err
      | .ok x => afterRead machine reads x.2 := by
  rw [loop, if_neg hout, if_neg (by simp [heof])]
  cases decodeNextPacket machine it <;> rfl

theorem afterRead_outcome (h : Latched f n it packets) {less : List (List ℚ) → WindowIter σ → Prop}
    (hloop : ∀ it', Streaming f n it' packets →
      Outcome machine f n less (remaining machine it' packets) (loop machine (f.reads packets) it')) :
    Outcome machine f n less (remaining machine it packets)
      (afterRead machine (f.reads packets) it) := by
  rw [remaining_pump, afterRead]
  cases hpump : pumpResampler machine it with
  | error e => exact .failed rfl rfl
  | ok it' => exact hloop it' (pumped h hpump)

/-- The iterator has packets or output less. -/
def Less (packets : List (List ℚ)) (it : WindowIter σ) (packets' : List (List ℚ))
    (it' : WindowIter σ) : Prop :=
  packets'.length < packets.length ∨
    packets'.length = packets.length ∧ it'.outPending.length < it.outPending.length

/-- A whole window that is taken leaves less output. -/
theorem takeWindow_less (hn : 0 < n) (h : Streaming f n it packets)
    (hready : it.windowFrames ≤ it.outPending.length) :
    Outcome machine f n (Less packets it) (remaining machine it packets) it.takeWindow := by
  apply takeWindow_outcome h hready
  intro it' hout
  have := h.frames
  refine .inr ⟨rfl, ?_⟩
  rw [hout, List.length_drop]
  omega

theorem loop_outcome (hn : 0 < n) (h : Streaming f n it packets) :
    Outcome machine f n (Less packets it) (remaining machine it packets)
      (loop machine (f.reads packets) it) := by
  induction packets generalizing it with
  | nil =>
    simp only [AudioFormat.reads, List.map_nil, loop]
    split
    · next hready => exact takeWindow_less hn h hready
    · exact finish_outcome h.short
  | cons p packets ih =>
    by_cases hready : it.windowFrames ≤ it.outPending.length
    · have htake : loop machine (f.reads (p :: packets)) it = it.takeWindow := if_pos hready
      rw [htake]
      exact takeWindow_less hn h hready
    · have hread : loop machine (f.reads (p :: packets)) it =
          afterRead machine (f.reads packets) (it.withPacket (f.reads packets) p) := by
        rw [AudioFormat.reads, List.map_cons, loop_read hready h.going,
          h.toLatched.decodeNextPacket_eq]
        rfl
      rw [hread]
      have hafter : Outcome machine f n (fun ps _ => ps.length ≤ packets.length)
          (remaining machine (it.withPacket (f.reads packets) p) packets)
          (afterRead machine (f.reads packets) (it.withPacket (f.reads packets) p)) := by
        refine afterRead_outcome ?_ ?_
        · exact ⟨rfl, h.rate, h.channels, h.frames, h.running, h.going⟩
        · intro it' hit'
          apply (ih hit').mono
          rintro ps it'' (hlt | ⟨heq, -⟩)
          · exact Nat.le_of_lt hlt
          · exact Nat.le_of_eq heq
      rw [remaining_withPacket] at hafter
      apply hafter.mono
      intro ps it' hle
      exact .inl (Nat.lt_succ_of_le hle)

end Steps

section Runs

variable {machine} {f : AudioFormat} {n : Nat} {it : WindowIter σ} {packets : List (List ℚ)}

/-- The windows of a signal, all but the last of one size. Where there is an error, it comes
after windows of that size. -/
def Windows (n : Nat) (rest : Except LensError (List ℚ))
    (items : List (Except LensError (List ℚ))) : Prop :=
  match rest with
  | .ok samples => ∃ windows : List (List ℚ), items = windows.map .ok ∧
      windows.flatten = samples ∧ (∀ w ∈ windows, w ≠ []) ∧ ∀ w ∈ windows.dropLast, w.length = n
  | .error e => ∃ windows : List (List ℚ), items = windows.map .ok ++ [.error e] ∧
      ∀ w ∈ windows, w.length = n

theorem Windows.cons {w : List ℚ} {rest : Except LensError (List ℚ)}
    {items : List (Except LensError (List ℚ))} (hn : 0 < n) (hw : w.length = n)
    (h : Windows n rest items) : Windows n (rest.map (w ++ ·)) (.ok w :: items) := by
  cases rest with
  | error e =>
    obtain ⟨windows, rfl, hlen⟩ := h
    exact ⟨w :: windows, rfl, List.forall_mem_cons.mpr ⟨hw, hlen⟩⟩
  | ok samples =>
    obtain ⟨windows, rfl, rfl, hne, hlen⟩ := h
    refine ⟨w :: windows, rfl, rfl, List.forall_mem_cons.mpr ⟨?_, hne⟩, ?_⟩
    · exact List.ne_nil_of_length_pos (hw ▸ hn)
    · cases windows with
      | nil => simp
      | cons w' windows =>
        rw [List.dropLast_cons_cons]
        exact List.forall_mem_cons.mpr ⟨hw, hlen⟩

theorem yields_done (h : it.done = true) (k : Nat) : yields machine it k = none := by
  have hnext : next machine it = (none, it) := by rw [next, if_pos h]
  induction k with
  | zero => rw [yields, hnext]
  | succ k ih => rw [yields, hnext, ih]

theorem yields_of_first {out : Item × WindowIter σ} {items : List (Except LensError (List ℚ))}
    (hnext : next machine it = out) (hfirst : out.1 = items[0]?)
    (hrest : ∀ k, yields machine out.2 k = items[k + 1]?) (k : Nat) :
    yields machine it k = items[k]? := by
  cases k with
  | zero => rw [yields, hnext, hfirst]
  | succ k => rw [yields, hnext, hrest]

/-- The calls after the first yield the windows of what is left. -/
theorem Outcome.items {less : List (List ℚ) → WindowIter σ → Prop}
    {rest : Except LensError (List ℚ)} (hn : 0 < n)
    (h : Outcome machine f n less rest (next machine it))
    (hless : ∀ packets it', Streaming f n it' packets → less packets it' →
      ∃ items, (∀ k, yields machine it' k = items[k]?) ∧
        Windows n (remaining machine it' packets) items) :
    ∃ items, (∀ k, yields machine it k = items[k]?) ∧ Windows n rest items := by
  generalize hnext : next machine it = out at h
  cases h with
  | window hlen hstream hl hrest =>
    obtain ⟨items, hitems, hwindows⟩ := hless _ _ hstream hl
    refine ⟨.ok _ :: items, yields_of_first hnext rfl hitems, ?_⟩
    rw [hrest]
    exact hwindows.cons hn hlen
  | last hne hdone hrest =>
    refine ⟨[.ok _], yields_of_first hnext rfl fun k => yields_done hdone k, ?_⟩
    rw [hrest]
    exact ⟨[_], rfl, by simp, by simpa using hne, by simp⟩
  | stop hdone hrest =>
    refine ⟨[], yields_of_first hnext rfl fun k => yields_done hdone k, ?_⟩
    rw [hrest]
    exact ⟨[], rfl, rfl, by simp, by simp⟩
  | failed hdone hrest =>
    refine ⟨[.error _], yields_of_first hnext rfl fun k => yields_done hdone k, ?_⟩
    rw [hrest]
    exact ⟨[], rfl, by simp⟩

theorem next_running (h : it.done = false) : next machine it = loop machine it.reads it := by
  rw [next, if_neg (by simp [h])]

theorem streaming_items (hn : 0 < n) (h : Streaming f n it packets) :
    ∃ items, (∀ k, yields machine it k = items[k]?) ∧
      Windows n (remaining machine it packets) items := by
  induction hp : packets.length using Nat.strongRecOn generalizing it packets with
  | _ m ihp =>
    induction ho : it.outPending.length using Nat.strongRecOn generalizing it packets with
    | _ l iho =>
      have houtcome := @loop_outcome σ machine _ _ _ _ hn h
      rw [← h.reads, ← next_running h.running] at houtcome
      apply houtcome.items hn
      rintro packets' it' hstream (hlt | ⟨heq, hlt⟩)
      · exact ihp _ (by omega) hstream rfl
      · exact iho _ (by omega) hstream (by omega) rfl

variable {path : String} {windowFrames : Nat}

/-- The iterator with its first packet. -/
def afterFirst (f : AudioFormat) (packets : List (List ℚ)) (windowFrames : Nat) (path : String)
    (p : List ℚ) (resampler : Option σ) : WindowIter σ :=
  ⟨f.reads packets, resampler, f.rate, f.channels, p, [], max windowFrames 1, path, false, false⟩

/-- The first packet sets the format and the resampler. -/
theorem decodeNextPacket_first (p : List ℚ) (packets : List (List ℚ)) :
    decodeNextPacket machine (WindowIter.open (f.reads (p :: packets)) windowFrames path) =
      (resamplerFor machine f).map fun resampler =>
        (true, afterFirst f packets windowFrames path p resampler) := by
  have hzero : ¬ (0 : Nat) ≠ 0 := by decide
  simp only [decodeNextPacket, WindowIter.open, AudioFormat.reads, List.map_cons, checkAndInitSpec,
    if_neg hzero, resamplerFor, List.nil_append]
  by_cases hrate : f.rate ≠ targetSampleRate
  · rw [if_pos hrate, if_pos hrate]
    cases machine.new f.rate <;> rfl
  · rw [if_neg hrate, if_neg hrate]
    rfl

theorem next_open (p : List ℚ) (packets : List (List ℚ)) :
    Outcome machine f (max windowFrames 1) (fun _ _ => True)
      (signal machine f (p :: packets).flatten)
      (next machine (WindowIter.open (f.reads (p :: packets)) windowFrames path)) := by
  have hn : 0 < max windowFrames 1 := by omega
  have hempty : ¬ max windowFrames 1 ≤ ([] : List ℚ).length := by
    rw [List.length_nil]
    omega
  have hnext : next machine (WindowIter.open (f.reads (p :: packets)) windowFrames path) =
      match decodeNextPacket machine (WindowIter.open (f.reads (p :: packets)) windowFrames path) with
      | .error err => (WindowIter.open (f.reads (p :: packets)) windowFrames path).fail err
      | .ok x => afterRead machine (f.reads packets) x.2 := by
    rw [next_running rfl]
    exact loop_read hempty rfl
  rw [hnext, decodeNextPacket_first, signal]
  cases resamplerFor machine f with
  | error e => exact .failed rfl rfl
  | ok resampler =>
    have hlatched : Latched f (max windowFrames 1)
        (afterFirst f packets windowFrames path p resampler) packets := ⟨rfl, rfl, rfl, rfl, rfl, rfl⟩
    have hrest : remaining machine (afterFirst f packets windowFrames path p resampler) packets =
        drain machine resampler (p :: packets).flatten := by
      simp only [remaining, afterFirst, List.flatten_cons]
      cases drain machine resampler (p ++ packets.flatten) <;> rfl
    simp only [Except.bind, Except.map]
    rw [← hrest]
    apply afterRead_outcome hlatched
    intro it' hit'
    exact (loop_outcome hn hit').mono fun _ _ _ => trivial

/-- Without packets there is nothing to yield. -/
theorem yields_open_nil (k : Nat) :
    yields machine (WindowIter.open [] windowFrames path) k = none := by
  have hempty : ¬ max windowFrames 1 ≤ ([] : List ℚ).length := by
    rw [List.length_nil]
    omega
  have hnext : next machine (WindowIter.open [] windowFrames path) =
      (none, { WindowIter.open [] windowFrames path with eof := true, done := true }) := by
    rw [next_running rfl]
    exact if_neg hempty
  cases k with
  | zero => rw [yields, hnext]
  | succ k =>
    rw [yields, hnext]
    exact yields_done rfl k

theorem finish_done (it : WindowIter σ) : (finish machine it).2.done = true := by
  unfold finish
  split
  · rfl
  · simp only
    split <;> rfl

/-- An iterator that yields nothing or an error is done. -/
theorem loop_done (reads : List AudioRead) (it : WindowIter σ)
    (h : ∀ w, (loop machine reads it).1 ≠ some (.ok w)) : (loop machine reads it).2.done = true := by
  induction reads generalizing it with
  | nil =>
    unfold loop at h ⊢
    split at h
    · exact absurd rfl (h _)
    · next hshort =>
      rw [if_neg hshort]
      exact finish_done _
  | cons r reads ih =>
    by_cases hready : it.windowFrames ≤ it.outPending.length
    · have htake : loop machine (r :: reads) it = it.takeWindow := by rw [loop, if_pos hready]
      rw [htake] at h
      exact absurd rfl (h _)
    · cases heof : it.eof with
      | true =>
        rw [loop, if_neg hready, if_pos heof]
        exact finish_done it
      | false =>
        rw [loop_read hready heof] at h ⊢
        cases hdecode : decodeNextPacket machine it with
        | error e => rfl
        | ok x =>
          simp only [hdecode, afterRead] at h ⊢
          cases hpump : pumpResampler machine x.2 with
          | error e => rfl
          | ok it' =>
            simp only [hpump] at h ⊢
            exact ih it' h

theorem yields_after (it : WindowIter σ) (k : Nat) (h : ∀ w, yields machine it k ≠ some (.ok w))
    {j : Nat} (hj : k < j) : yields machine it j = none := by
  induction k generalizing it j with
  | zero =>
    obtain ⟨j, rfl⟩ := Nat.exists_eq_succ_of_ne_zero (Nat.pos_iff_ne_zero.mp hj)
    by_cases hdone : it.done = true
    · exact yields_done hdone _
    · rw [yields, next_running (by simpa using hdone)] at h
      rw [yields, next_running (by simpa using hdone)]
      exact yields_done (loop_done it.reads it h) j
  | succ k ih =>
    obtain ⟨j, rfl⟩ := Nat.exists_eq_succ_of_ne_zero (show j ≠ 0 by omega)
    exact ih (next machine it).2 h (by omega)

/-- In whatever packets the samples come, the windows hold the same signal, all but the last in the
window's size. After the last one or an error there is nothing more. -/
theorem yields_signal (machine : Resampler σ) (f : AudioFormat) (windowFrames : Nat)
    (path : String) :
    (∀ packets, packets ≠ [] → ∃ items,
      (∀ k, yields machine (WindowIter.open (f.reads packets) windowFrames path) k = items[k]?) ∧
        Windows (max windowFrames 1) (signal machine f packets.flatten) items) ∧
    (∀ k, yields machine (WindowIter.open (f.reads []) windowFrames path) k = none) ∧
    ∀ (it : WindowIter σ) k, (∀ w, yields machine it k ≠ some (.ok w)) →
      ∀ j, k < j → yields machine it j = none := by
  refine ⟨?_, yields_open_nil, fun it k h j hj => yields_after it k h hj⟩
  intro packets hne
  obtain ⟨p, packets, rfl⟩ := List.exists_cons_of_ne_nil hne
  have hn : 0 < max windowFrames 1 := by omega
  exact (next_open p packets).items hn fun _ _ hstream _ => streaming_items hn hstream

end Runs

end WindowIter

end LensLM
