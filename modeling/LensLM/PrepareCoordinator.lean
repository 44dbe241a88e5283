import LensLM.Downloads
import LensLM.Lib.EventRuns
import Mathlib.Logic.Function.Basic

/-!
# One prepare at a time

Callers that want the voice model prepared queue at a gate, and the one behind it looks whether the
model is there by now before it starts a download. The token of a running download is in a slot, so
that it can be cancelled; it is taken out before the gate opens.
-/

namespace LensLM.QwenPrepare

open ByteText EventRuns

set_option autoImplicit false

structure DownloadProgress where
  received : Nat
  total : Option Nat
  done : Bool
deriving DecidableEq, Repr

/-- A line of the child. -/
structure PrepareLine where
  progress : Option (Nat × Option Nat)
  done : Bool
  error : Option Str
deriving DecidableEq, Repr

/-- How a call ends; one that is dropped returns nothing. -/
inductive Verdict where
  | prepared
  | present
  | insufficientSpace (required available : Nat)
  | failed (e : LensError)
  | cancelled
  | dropped
deriving DecidableEq

def ttsErr : LensError := .tts "text-to-speech synthesis failed"

def Verdict.result : Verdict → Option (Except LensError Unit)
  | .prepared | .present => some (.ok ())
  | .insufficientSpace required available => some (.error (.insufficientSpace
      (s!"the Qwen voice model needs {Download.humanBytes required} of free space but only " ++
        s!"{Download.humanBytes available} are available")))
  | .failed e => some (.error e)
  | .cancelled => some (.error (.cancelled "prepare cancelled"))
  | .dropped => none

inductive Phase where
  | idle
  | waiting
  -- from here on the gate is held
  | checking
  | publishing
  -- from here on the token is in the slot
  | resolving
  | reading (last : DownloadProgress)
  | reaping (last : DownloadProgress)
  | clearing (v : Verdict)
  | unlocking (v : Verdict)
  | finished (v : Verdict)
deriving DecidableEq

def Phase.held : Phase → Bool
  | .idle | .waiting | .finished _ => false
  | _ => true

def Phase.inFlight : Phase → Bool
  | .resolving | .reading _ | .reaping _ | .clearing _ => true
  | _ => false

def Phase.verdict : Phase → Option Verdict
  | .clearing v | .unlocking v | .finished v => some v
  | _ => none

/-- One call: where it is, whether its token is cancelled, and what it has told its caller. -/
structure Call where
  phase : Phase
  cancelled : Bool
  reported : List DownloadProgress
deriving DecidableEq

/-- What happens to one call alone. A call is dropped where it waits for something. -/
inductive Happening where
  | call
  | check (onDisk : Nat) (available : Option Nat)
  | resolved (failure : Option LensError)
  -- a line that is no JSON is `none`
  | line (msg : Option PrepareLine)
  | stop
  | observeCancel
  | exited (ok : Bool)
  | drop

def QWEN_SNAPSHOT_APPROX_BYTES : Nat := 4500000000

def DISK_HEADROOM_BYTES : Nat := 256 * 1024 * 1024

namespace Call

/-- The look at the snapshot and at the free space, once the gate is held. -/
def check (c : Call) (snapshot : Bool) (onDisk : Nat) (available : Option Nat) : Call :=
  if snapshot then { c with phase := .unlocking .present }
  else
    let required := QWEN_SNAPSHOT_APPROX_BYTES - onDisk + DISK_HEADROOM_BYTES
    match available with
    | some available =>
      if available < required then
        { c with phase := .unlocking (.insufficientSpace required available) }
      else { c with phase := .publishing }
    | none => { c with phase := .publishing }

/-- The read loop ends without success: under a cancelled token that is a cancellation. -/
def broken (c : Call) : Call :=
  { c with phase := .clearing (if c.cancelled then .cancelled else .failed ttsErr) }

def readLine (c : Call) (last : DownloadProgress) : Option PrepareLine → Call
  | none => c
  | some msg =>
    if msg.error.isSome then c.broken
    else
      let now := match msg.progress with
        | some p => ⟨p.1, p.2, false⟩
        | none => last
      let reported := match msg.progress with
        | some p => c.reported ++ [⟨p.1, p.2, false⟩]
        | none => c.reported
      { c with phase := if msg.done then .reaping now else .reading now, reported := reported }

/-- The child is waited for, and the end is reported if it left cleanly. -/
def reap (c : Call) (last : DownloadProgress) (ok : Bool) : Call :=
  if ok then
    { c with phase := .clearing .prepared, reported := c.reported ++ [{ last with done := true }] }
  else { c with phase := .clearing (.failed ttsErr) }

def take (c : Call) (snapshot : Bool) (h : Happening) : Call :=
  match h, c.phase with
  | .call, .idle => { c with phase := .waiting }
  | .check onDisk available, .checking => c.check snapshot onDisk available
  | .resolved none, .resolving => { c with phase := .reading ⟨0, none, false⟩ }
  | .resolved (some e), .resolving => { c with phase := .clearing (.failed e) }
  | .line msg, .reading last => c.readLine last msg
  | .stop, .reading _ => c.broken
  | .observeCancel, .reading _ =>
    if c.cancelled then { c with phase := .clearing .cancelled } else c
  | .exited ok, .reaping last => c.reap last ok
  | .drop, .waiting => { c with phase := .finished .dropped }
  | .drop, .resolving | .drop, .reading _ | .drop, .reaping _ =>
    { c with phase := .clearing .dropped }
  | _, _ => c

end Call

/-- A token goes by the call that made it. -/
structure Coordinator (ι : Type) where
  gate : Option ι
  current : Option ι
  call : ι → Call
  /-- Whether the snapshot on the disk is complete. -/
  snapshot : Bool

inductive Event (ι : Type) where
  | own (i : ι) (h : Happening)
  | lock (i : ι)
  | publish (i : ι)
  | clear (i : ι)
  | unlock (i : ι)
  | cancel
  | snapshot (complete : Bool)

namespace Coordinator

variable {ι : Type}

def new (snapshot : Bool) : Coordinator ι := ⟨none, none, fun _ => ⟨.idle, false, []⟩, snapshot⟩

variable [DecidableEq ι]

def set (s : Coordinator ι) (i : ι) (c : Call) : Coordinator ι :=
  { s with call := Function.update s.call i c }

/-- The calls when call `i` goes on to a phase. -/
def moved (s : Coordinator ι) (i : ι) (p : Phase) : ι → Call :=
  Function.update s.call i { s.call i with phase := p }

def lock (s : Coordinator ι) (i : ι) : Coordinator ι :=
  if s.gate = none ∧ (s.call i).phase = .waiting then
    { s with gate := some i, call := s.moved i .checking }
  else s

def publish (s : Coordinator ι) (i : ι) : Coordinator ι :=
  if (s.call i).phase = .publishing then
    { s with current := some i, call := s.moved i .resolving }
  else s

/-- The guard of a download is dropped: it clears the slot if the token is its own. -/
def clear (s : Coordinator ι) (i : ι) : Coordinator ι :=
  match (s.call i).phase with
  | .clearing v => { s with
      current := if s.current = some i then none else s.current
      call := s.moved i (.unlocking v) }
  | _ => s

/-- The guard of the gate is dropped, after that of the slot. -/
def unlock (s : Coordinator ι) (i : ι) : Coordinator ι :=
  match (s.call i).phase with
  | .unlocking v => { s with gate := none, call := s.moved i (.finished v) }
  | _ => s

/-- Flips the token in the slot; whether there was one. -/
def cancel (s : Coordinator ι) : Coordinator ι × Bool :=
  match s.current with
  | some i => (s.set i { s.call i with cancelled := true }, true)
  | none => (s, false)

def step (s : Coordinator ι) : Event ι → Coordinator ι
  | .own i h => s.set i ((s.call i).take s.snapshot h)
  | .lock i => s.lock i
  | .publish i => s.publish i
  | .clear i => s.clear i
  | .unlock i => s.unlock i
  | .cancel => s.cancel.1
  | .snapshot complete => { s with snapshot := complete }

end Coordinator

section Calls

/-- Between the look at the disk and the end of the child. -/
def Phase.downloads : Phase → Bool
  | .publishing | .resolving | .reading _ | .reaping _ => true
  | _ => false

/-- How far the download of a call has come, before the call ends. -/
def Phase.last : Phase → Option DownloadProgress
  | .reading last | .reaping last => some last
  | .clearing _ | .unlocking _ | .finished _ => none
  | _ => some ⟨0, none, false⟩

/-- What a download has come to by what it has told. -/
def lastOf (reported : List DownloadProgress) : DownloadProgress :=
  reported.getLastD ⟨0, none, false⟩

/-- A token is cancelled only once it was published, a call that ends as cancelled was cancelled,
and the end is told once, last, and of a download that succeeds. -/
structure Call.Sound (c : Call) : Prop where
  flagged : c.cancelled = true → c.phase.inFlight = true ∨ c.phase.verdict.isSome = true
  cancelled : c.phase.verdict = some .cancelled → c.cancelled = true
  running : ∀ last, c.phase.last = some last → last = lastOf c.reported
  unended : c.phase.verdict ≠ some .prepared → ∀ p ∈ c.reported, p.done = false
  ended : c.phase.verdict = some .prepared → ∃ ps : List DownloadProgress,
    (∀ p ∈ ps, p.done = false) ∧ c.reported = ps ++ [{ lastOf ps with done := true }]

/-- What a call does by itself touches neither the gate nor the slot, and starts no download where
the snapshot is complete. -/
structure Advances (snapshot : Bool) (h : Happening) (c c' : Call) : Prop where
  held : c'.phase.held = c.phase.held
  inFlight : c'.phase.inFlight = c.phase.inFlight
  sound : c.Sound → c'.Sound
  downloads : c'.phase.downloads = true → c.phase.downloads = true ∨ snapshot = false
  prepares : c'.phase.verdict = some .prepared → c.phase.verdict = some .prepared ∨
    (∃ last, c.phase = .reaping last) ∧ h = .exited true

variable {c : Call} {snapshot : Bool} {h : Happening} {p : Phase}

theorem advances_refl : Advances snapshot h c c := ⟨rfl, rfl, id, .inl, .inl⟩

/-- A call that has not ended goes on to another phase, without success. -/
theorem Advances.of_phase (hlast : ∀ last, p.last = some last → c.phase.last = some last)
    (hopen : c.phase.verdict = none) (hheld : p.held = c.phase.held)
    (hflight : p.inFlight = c.phase.inFlight)
    (hdownloads : p.downloads = true → c.phase.downloads = true ∨ snapshot = false)
    (hverdict : p.verdict ≠ some .prepared)
    (hcancelled : p.verdict = some .cancelled → c.cancelled = true) :
    Advances snapshot h c { c with phase := p } where
  held := hheld
  inFlight := hflight
  sound hs := by
    have hsilent : ∀ q ∈ c.reported, q.done = false := hs.unended (by simp [hopen])
    constructor
    case flagged =>
      intro hc
      have hin := (hs.flagged hc).resolve_right (by rw [hopen]; exact Bool.false_ne_true)
      exact .inl (hflight.trans hin)
    case cancelled => exact hcancelled
    case running => exact fun last hl => hs.running last (hlast last hl)
    case unended => exact fun _ => hsilent
    case ended => exact fun hp => absurd hp hverdict
  downloads := hdownloads
  prepares hp := absurd hp hverdict

theorem check_advances (hc : c.phase = .checking) (onDisk : Nat) (available : Option Nat) :
    Advances snapshot h c (c.check snapshot onDisk available) := by
  have hpublish : snapshot = false → Advances snapshot h c { c with phase := .publishing } :=
    fun hs => .of_phase (by simp [hc, Phase.last]) (by rw [hc]; rfl) (by rw [hc]; rfl)
      (by rw [hc]; rfl) (fun _ => .inr hs) (by simp [Phase.verdict]) (by simp [Phase.verdict])
  have hleave : ∀ v, v ≠ .prepared → v ≠ .cancelled →
      Advances snapshot h c { c with phase := .unlocking v } := fun v hv hv' =>
    .of_phase (by simp [Phase.last]) (by rw [hc]; rfl) (by rw [hc]; rfl) (by rw [hc]; rfl)
      (by simp [Phase.downloads]) (by simpa [Phase.verdict] using hv)
      (by simp [Phase.verdict, hv'])
  unfold Call.check
  cases snapshot with
  | true => exact hleave _ (by simp) (by simp)
  | false =>
    cases available with
    | none => exact hpublish rfl
    | some available =>
      dsimp only
      rw [if_neg Bool.false_ne_true]
      split
      · exact hleave _ (by simp) (by simp)
      · exact hpublish rfl

/-- The call of a download ends without success. -/
theorem clearing_advances {v : Verdict} (hflight : c.phase.inFlight = true)
    (hopen : c.phase.verdict = none) (hv : v ≠ .prepared)
    (hcancelled : v = .cancelled → c.cancelled = true) :
    Advances snapshot h c { c with phase := .clearing v } := by
  have hheld : c.phase.held = true := by
    cases hp : c.phase <;> simp_all [Phase.inFlight, Phase.held]
  exact .of_phase (by simp [Phase.last]) hopen hheld.symm hflight.symm (by simp [Phase.downloads])
    (by simpa [Phase.verdict] using hv) (by simpa [Phase.verdict] using hcancelled)

theorem broken_advances {last : DownloadProgress} (hc : c.phase = .reading last) :
    Advances snapshot h c c.broken := by
  unfold Call.broken
  refine clearing_advances (by rw [hc]; rfl) (by rw [hc]; rfl) ?_ ?_
  · split <;> simp
  · intro hv
    by_contra hn
    rw [if_neg hn] at hv
    cases hv

theorem lastOf_concat (ps : List DownloadProgress) (q : DownloadProgress) :
    lastOf (ps ++ [q]) = q := by
  simp [lastOf]

/-- A line of progress, which may be the last one. -/
theorem progress_advances {last now : DownloadProgress} (hc : c.phase = .reading last)
    (hnow : now.done = false) (hp : p = .reading now ∨ p = .reaping now) :
    Advances snapshot h c { c with phase := p, reported := c.reported ++ [now] } := by
  have hlast : p.last = some now := by rcases hp with rfl | rfl <;> rfl
  have hopen : p.verdict = none := by rcases hp with rfl | rfl <;> rfl
  have hflight : p.inFlight = true := by rcases hp with rfl | rfl <;> rfl
  constructor
  case held => rcases hp with rfl | rfl <;> rw [hc] <;> rfl
  case inFlight => rw [hc]; exact hflight
  case sound =>
    intro hs
    constructor
    case flagged => exact fun _ => .inl hflight
    case cancelled => exact fun hv => absurd hv (by simp [hopen])
    case running =>
      intro l hl
      rw [lastOf_concat]
      exact Option.some.inj (hl.symm.trans hlast)
    case unended =>
      intro _ q hq
      rcases List.mem_append.mp hq with hq | hq
      · exact hs.unended (by simp [hc, Phase.verdict]) q hq
      · rw [List.mem_singleton.mp hq]
        exact hnow
    case ended => exact fun hv => absurd hv (by simp [hopen])
  case downloads => exact fun _ => .inl (by rw [hc]; rfl)
  case prepares => exact fun hv => absurd hv (by simp [hopen])

theorem readLine_advances {last : DownloadProgress} (hc : c.phase = .reading last)
    (msg : Option PrepareLine) : Advances snapshot h c (c.readLine last msg) := by
  cases msg with
  | none => exact advances_refl
  | some msg =>
    unfold Call.readLine
    dsimp only
    split
    · exact broken_advances hc
    · cases msg.progress with
      | none =>
        refine .of_phase ?_ (by rw [hc]; rfl) ?_ ?_ (fun _ => .inl (by rw [hc]; rfl)) ?_ ?_ <;>
          split <;> simp [hc, Phase.last, Phase.held, Phase.inFlight, Phase.verdict]
      | some q => exact progress_advances hc rfl (by split <;> simp)

theorem reap_advances {last : DownloadProgress} (hc : c.phase = .reaping last) (ok : Bool)
    (hok : ok = true → h = .exited true) : Advances snapshot h c (c.reap last ok) := by
  cases ok with
  | false => exact clearing_advances (by rw [hc]; rfl) (by rw [hc]; rfl) (by simp) (by simp)
  | true =>
    constructor
    case held => rw [hc]; rfl
    case inFlight => rw [hc]; rfl
    case sound =>
      intro hs
      have hlast : last = lastOf c.reported := hs.running last (by rw [hc]; rfl)
      constructor
      case flagged => exact fun _ => .inl rfl
      case cancelled => exact fun hv => absurd hv (by simp [Call.reap, Phase.verdict])
      case running => exact fun l hl => by cases hl
      case unended => exact fun hv => absurd rfl hv
      case ended =>
        refine fun _ => ⟨c.reported, hs.unended (by simp [hc, Phase.verdict]), ?_⟩
        rw [← hlast]
        rfl
    case downloads => exact fun hd => absurd hd (by simp [Call.reap, Phase.downloads])
    case prepares => exact fun _ => .inr ⟨⟨last, hc⟩, hok rfl⟩

theorem take_advances (c : Call) (snapshot : Bool) (h : Happening) :
    Advances snapshot h c (c.take snapshot h) := by
  unfold Call.take
  split
  case h_1 hc =>
    exact .of_phase (by simp [hc, Phase.last]) (by rw [hc]; rfl) (by rw [hc]; rfl)
      (by rw [hc]; rfl) (by simp [Phase.downloads]) (by simp [Phase.verdict])
      (by simp [Phase.verdict])
  case h_2 onDisk available hc => exact check_advances hc onDisk available
  case h_3 hc =>
    exact .of_phase (by simp [hc, Phase.last]) (by rw [hc]; rfl) (by rw [hc]; rfl)
      (by rw [hc]; rfl) (fun _ => .inl (by rw [hc]; rfl)) (by simp [Phase.verdict])
      (by simp [Phase.verdict])
  case h_4 e hc =>
    exact clearing_advances (by rw [hc]; rfl) (by rw [hc]; rfl) (by simp) (by simp)
  case h_5 msg last hc => exact readLine_advances hc msg
  case h_6 last hc => exact broken_advances hc
  case h_7 last hc =>
    split
    · exact clearing_advances (by rw [hc]; rfl) (by rw [hc]; rfl) (by simp) fun _ => ‹_›
    · exact advances_refl
  case h_8 ok last hc => exact reap_advances hc ok fun hok => by rw [hok]
  case h_9 hc =>
    exact .of_phase (by simp [Phase.last]) (by rw [hc]; rfl) (by rw [hc]; rfl) (by rw [hc]; rfl)
      (by simp [Phase.downloads]) (by simp [Phase.verdict]) (by simp [Phase.verdict])
  case h_10 hc =>
    exact clearing_advances (by rw [hc]; rfl) (by rw [hc]; rfl) (by simp) (by simp)
  case h_11 last hc =>
    exact clearing_advances (by rw [hc]; rfl) (by rw [hc]; rfl) (by simp) (by simp)
  case h_12 last hc =>
    exact clearing_advances (by rw [hc]; rfl) (by rw [hc]; rfl) (by simp) (by simp)
  case h_13 => exact advances_refl

end Calls

section Runs

variable {ι : Type} {s : Coordinator ι}

/-- The gate is with the one call behind it, and the slot holds the token of the one download. -/
structure Orderly (s : Coordinator ι) : Prop where
  gate : ∀ i, s.gate = some i ↔ (s.call i).phase.held = true
  slot : ∀ i, s.current = some i ↔ (s.call i).phase.inFlight = true
  sound : ∀ i, (s.call i).Sound

theorem held_of_inFlight {p : Phase} (h : p.inFlight = true) : p.held = true := by
  cases p <;> first | rfl | cases h

theorem held_of_downloads {p : Phase} (h : p.downloads = true) : p.held = true := by
  cases p <;> first | rfl | cases h

theorem downloads_of_verdict {p : Phase} {v : Verdict} (h : p.verdict = some v) :
    p.downloads = false := by
  cases p <;> first | rfl | cases h

theorem Orderly.alone (h : Orderly s) {i j : ι} (hi : (s.call i).phase.held = true)
    (hj : (s.call j).phase.held = true) : i = j :=
  Option.some.inj (((h.gate i).mpr hi).symm.trans ((h.gate j).mpr hj))

theorem orderly_new (snapshot : Bool) : Orderly (Coordinator.new snapshot : Coordinator ι) where
  gate i := by simp [Coordinator.new, Phase.held]
  slot i := by simp [Coordinator.new, Phase.inFlight]
  sound i := by
    constructor
    case flagged => exact fun h => by cases h
    case cancelled => exact fun h => by cases h
    case running => exact fun last h => by cases h; rfl
    case unended => exact fun _ p hp => by cases hp
    case ended => exact fun h => by cases h

variable [DecidableEq ι]

/-- One call changes, and with it who is at the gate or in the slot. -/
theorem Orderly.changed (h : Orderly s) {i : ι} {c : Call} {gate current : Option ι}
    {snapshot : Bool} (hgate : gate = some i ↔ c.phase.held = true)
    (hgates : ∀ j, j ≠ i → (gate = some j ↔ s.gate = some j))
    (hslot : current = some i ↔ c.phase.inFlight = true)
    (hslots : ∀ j, j ≠ i → (current = some j ↔ s.current = some j)) (hsound : c.Sound) :
    Orderly ⟨gate, current, Function.update s.call i c, snapshot⟩ := by
  constructor
  case gate =>
    intro j
    by_cases hj : j = i
    · rw [hj]
      simpa using hgate
    · simpa [Function.update_of_ne hj] using (hgates j hj).trans (h.gate j)
  case slot =>
    intro j
    by_cases hj : j = i
    · rw [hj]
      simpa using hslot
    · simpa [Function.update_of_ne hj] using (hslots j hj).trans (h.slot j)
  case sound =>
    intro j
    by_cases hj : j = i
    · rw [hj]
      simpa using hsound
    · simpa [Function.update_of_ne hj] using h.sound j

/-- A call goes on and neither begins nor ends. -/
theorem Call.Sound.move {c : Call} (h : c.Sound) {p : Phase} (hlast : p.last = c.phase.last)
    (hverdict : p.verdict = c.phase.verdict)
    (hflagged : c.phase.inFlight = true → p.inFlight = true ∨ p.verdict.isSome = true) :
    Call.Sound { c with phase := p } where
  flagged hc := (h.flagged hc).elim hflagged fun hv => .inr (by rw [hverdict]; exact hv)
  cancelled hv := h.cancelled (hverdict ▸ hv)
  running last hl := h.running last (hlast ▸ hl)
  unended hv := h.unended (hverdict ▸ hv)
  ended hv := h.ended (hverdict ▸ hv)

theorem orderly_own (h : Orderly s) (i : ι) (x : Happening) : Orderly (s.step (.own i x)) := by
  have ha := take_advances (s.call i) s.snapshot x
  refine h.changed ?_ (fun _ _ => Iff.rfl) ?_ (fun _ _ => Iff.rfl) (ha.sound (h.sound i))
  · rw [ha.held]
    exact h.gate i
  · rw [ha.inFlight]
    exact h.slot i

theorem orderly_lock (h : Orderly s) (i : ι) : Orderly (s.lock i) := by
  unfold Coordinator.lock
  split
  · rename_i hlock
    have hflight : s.current = some i ↔ False := by
      rw [h.slot i, hlock.2]
      simp [Phase.inFlight]
    refine h.changed (by simp [Phase.held]) (fun j hj => ?_) ?_ (fun _ _ => Iff.rfl)
      ((h.sound i).move (by rw [hlock.2]; rfl) (by rw [hlock.2]; rfl)
        (by simp [hlock.2, Phase.inFlight]))
    · simp [hlock.1, Ne.symm hj]
    · rw [hflight]
      simp [Phase.inFlight]
  · exact h

theorem orderly_publish (h : Orderly s) (i : ι) : Orderly (s.publish i) := by
  unfold Coordinator.publish
  split
  · rename_i hp
    have hheld : (s.call i).phase.held = true := by rw [hp]; rfl
    refine h.changed ?_ (fun _ _ => Iff.rfl) (by simp [Phase.inFlight]) (fun j hj => ?_)
      ((h.sound i).move (by rw [hp]; rfl) (by rw [hp]; rfl) (by simp [hp, Phase.inFlight]))
    · simpa [Phase.held] using (h.gate i).mpr hheld
    · -- another token in the slot would be that of a second call behind the gate
      constructor
      · exact fun heq => absurd (Option.some.inj heq) (Ne.symm hj)
      · exact fun hc => absurd (h.alone (held_of_inFlight ((h.slot j).mp hc)) hheld) hj
  · exact h

theorem orderly_clear (h : Orderly s) (i : ι) : Orderly (s.clear i) := by
  unfold Coordinator.clear
  split
  · rename_i v hp
    have hflight : (s.call i).phase.inFlight = true := by rw [hp]; rfl
    have hcurrent := (h.slot i).mpr hflight
    refine h.changed ?_ (fun _ _ => Iff.rfl) (by simp [hcurrent, Phase.inFlight]) (fun j hj => ?_)
      ((h.sound i).move (by rw [hp]; rfl) (by rw [hp]; rfl) fun _ => .inr rfl)
    · simpa [Phase.held] using (h.gate i).mpr (held_of_inFlight hflight)
    · simp [hcurrent, Ne.symm hj]
  · exact h

theorem orderly_unlock (h : Orderly s) (i : ι) : Orderly (s.unlock i) := by
  unfold Coordinator.unlock
  split
  · rename_i v hp
    have hgate := (h.gate i).mpr (by rw [hp]; rfl)
    have hflight : s.current = some i ↔ False := by
      rw [h.slot i, hp]
      simp [Phase.inFlight]
    refine h.changed (by simp [Phase.held]) (fun j hj => ?_) ?_ (fun _ _ => Iff.rfl)
      ((h.sound i).move (by rw [hp]; rfl) (by rw [hp]; rfl) (by simp [hp, Phase.inFlight]))
    · simp [hgate, Ne.symm hj]
    · rw [hflight]
      simp [Phase.inFlight]
  · exact h

theorem orderly_cancel (h : Orderly s) : Orderly s.cancel.1 := by
  unfold Coordinator.cancel
  split
  · rename_i i hi
    refine h.changed (h.gate i) (fun _ _ => Iff.rfl) (h.slot i) (fun _ _ => Iff.rfl) ?_
    have hs := h.sound i
    exact ⟨fun _ => .inl ((h.slot i).mp hi), fun _ => rfl, hs.running, hs.unended, hs.ended⟩
  · exact h

theorem orderly_step (h : Orderly s) (e : Event ι) : Orderly (s.step e) := by
  cases e with
  | own i x => exact orderly_own h i x
  | lock i => exact orderly_lock h i
  | publish i => exact orderly_publish h i
  | clear i => exact orderly_clear h i
  | unlock i => exact orderly_unlock h i
  | cancel => exact orderly_cancel h
  | snapshot complete => exact ⟨h.gate, h.slot, h.sound⟩

/-! ## What goes on -/

/-- A call that was made and has not returned. -/
def Phase.pending : Phase → Bool
  | .idle | .finished _ => false
  | _ => true

/-- The steps that do not depend on what anybody wants. -/
def Event.Own : Event ι → Prop
  | .own _ .call | .own _ .drop | .cancel | .snapshot _ => False
  | _ => True

theorem step_ne {e : Event ι} {j : ι} (h : ((s.step e).call j).phase ≠ (s.call j).phase) :
    s.step e ≠ s := fun heq => h (by rw [heq])

/-- The call behind the gate can go on. -/
theorem held_goesOn {j : ι} (hj : (s.call j).phase.held = true) :
    ∃ e : Event ι, e.Own ∧ s.step e ≠ s := by
  cases hp : (s.call j).phase with
  | idle | waiting | finished v =>
    rw [hp] at hj
    cases hj
  | checking =>
    refine ⟨.own j (.check 0 none), trivial, step_ne (j := j) ?_⟩
    cases hs : s.snapshot <;>
      simp [Coordinator.step, Coordinator.set, Call.take, Call.check, hp, hs]
  | publishing =>
    refine ⟨.publish j, trivial, step_ne (j := j) ?_⟩
    simp [Coordinator.step, Coordinator.publish, Coordinator.moved, hp]
  | resolving =>
    refine ⟨.own j (.resolved none), trivial, step_ne (j := j) ?_⟩
    simp [Coordinator.step, Coordinator.set, Call.take, hp]
  | reading last =>
    refine ⟨.own j .stop, trivial, step_ne (j := j) ?_⟩
    simp [Coordinator.step, Coordinator.set, Call.take, Call.broken, hp]
  | reaping last =>
    refine ⟨.own j (.exited false), trivial, step_ne (j := j) ?_⟩
    simp [Coordinator.step, Coordinator.set, Call.take, Call.reap, hp]
  | clearing v =>
    refine ⟨.clear j, trivial, step_ne (j := j) ?_⟩
    simp [Coordinator.step, Coordinator.clear, Coordinator.moved, hp]
  | unlocking v =>
    refine ⟨.unlock j, trivial, step_ne (j := j) ?_⟩
    simp [Coordinator.step, Coordinator.unlock, Coordinator.moved, hp]

theorem Orderly.goesOn (h : Orderly s) {i : ι} (hi : (s.call i).phase.pending = true) :
    ∃ e : Event ι, e.Own ∧ s.step e ≠ s := by
  cases hgate : s.gate with
  | some j => exact held_goesOn ((h.gate j).mp hgate)
  | none =>
    have hwaiting : (s.call i).phase = .waiting := by
      have hheld : (s.call i).phase.held ≠ true := fun hheld => by
        have hi := (h.gate i).mpr hheld
        rw [hgate] at hi
        cases hi
      cases hp : (s.call i).phase with
      | waiting => rfl
      | idle | finished v =>
        rw [hp] at hi
        cases hi
      | _ =>
        rw [hp] at hheld
        exact absurd rfl hheld
    refine ⟨.lock i, trivial, step_ne (j := i) ?_⟩
    simp [Coordinator.step, Coordinator.lock, Coordinator.moved, hgate, hwaiting]

/-- What holds at any time: one call is behind the gate, the slot holds the token of the download
that is in flight, so that a new call finds it empty and a cancellation is answered rightly, every
call tells what it should, and as long as a call is pending something goes on. -/
structure Served (s : Coordinator ι) : Prop where
  alone : ∀ i j, (s.call i).phase.held = true → (s.call j).phase.held = true → i = j
  slot : ∀ i, s.current = some i ↔ (s.call i).phase.inFlight = true
  fresh : ∀ i, (s.call i).phase = .checking → s.current = none
  answered : s.cancel.2 = true ↔ ∃ i, (s.call i).phase.inFlight = true
  sound : ∀ i, (s.call i).Sound
  goesOn : ∀ i, (s.call i).phase.pending = true → ∃ e : Event ι, e.Own ∧ s.step e ≠ s

theorem Orderly.served (h : Orderly s) : Served s where
  alone _ _ := h.alone
  slot := h.slot
  fresh i hi := by
    cases hc : s.current with
    | none => rfl
    | some j =>
      have hflight := (h.slot j).mp hc
      have hij := h.alone (held_of_inFlight hflight) (i := j) (j := i) (by rw [hi]; rfl)
      rw [hij, hi] at hflight
      cases hflight
  answered := by
    unfold Coordinator.cancel
    constructor
    · intro ha
      cases hc : s.current with
      | none =>
        rw [hc] at ha
        cases ha
      | some i => exact ⟨i, (h.slot i).mp hc⟩
    · rintro ⟨i, hi⟩
      rw [(h.slot i).mpr hi]
  sound := h.sound
  goesOn _ := h.goesOn

/-! ## One download -/

/-- A child that reports the end has completed the snapshot, and no snapshot is taken away. -/
def Dependable (s : Coordinator ι) : Event ι → Prop
  | .own i (.exited true) => ∀ last, (s.call i).phase = .reaping last → s.snapshot = true
  | .snapshot complete => s.snapshot = true → complete = true
  | _ => True

/-- One call at most has downloaded the model, and after it none does. -/
structure DownloadedOnce (s : Coordinator ι) : Prop where
  once : ∀ i j, (s.call i).phase.verdict = some .prepared →
    (s.call j).phase.verdict = some .prepared → i = j
  rests : ∀ i j, (s.call i).phase.verdict = some .prepared → (s.call j).phase.downloads = false
  kept : ∀ i, (s.call i).phase.verdict = some .prepared → s.snapshot = true

/-- A step changes one call, which does not begin a download anew where the snapshot is there. -/
theorem step_call (s : Coordinator ι) (e : Event ι) (j : ι) :
    (((s.step e).call j).phase.downloads = true →
      (s.call j).phase.downloads = true ∨ s.snapshot = false) ∧
    (((s.step e).call j).phase.verdict = some .prepared →
      (s.call j).phase.verdict = some .prepared ∨
        (∃ last, (s.call j).phase = .reaping last) ∧ e = .own j (.exited true)) := by
  have hmoved : ∀ i p, (p.downloads = true → (s.call i).phase.downloads = true) →
      (p.verdict = some .prepared → (s.call i).phase.verdict = some .prepared) →
      ((s.moved i p j).phase.downloads = true →
        (s.call j).phase.downloads = true ∨ s.snapshot = false) ∧
      ((s.moved i p j).phase.verdict = some .prepared → (s.call j).phase.verdict = some .prepared ∨
        (∃ last, (s.call j).phase = .reaping last) ∧ e = .own j (.exited true)) := by
    intro i p hd hv
    unfold Coordinator.moved
    by_cases hj : j = i
    · subst hj
      rw [Function.update_self]
      exact ⟨fun h => .inl (hd h), fun h => .inl (hv h)⟩
    · rw [Function.update_of_ne hj]
      exact ⟨.inl, .inl⟩
  cases e with
  | own i x =>
    by_cases hj : j = i
    · subst hj
      have ha := take_advances (s.call j) s.snapshot x
      have hcall : (s.step (.own j x)).call j = (s.call j).take s.snapshot x := by
        simp [Coordinator.step, Coordinator.set]
      rw [hcall]
      refine ⟨ha.downloads, fun hv => (ha.prepares hv).imp_right ?_⟩
      exact fun h => ⟨h.1, by rw [h.2]⟩
    · have hcall : (s.step (.own i x)).call j = s.call j := by
        simp [Coordinator.step, Coordinator.set, Function.update_of_ne hj]
      rw [hcall]
      exact ⟨.inl, .inl⟩
  | lock i =>
    unfold Coordinator.step Coordinator.lock
    dsimp only
    split
    · exact hmoved i .checking (by simp [Phase.downloads]) (by simp [Phase.verdict])
    · exact ⟨.inl, .inl⟩
  | publish i =>
    unfold Coordinator.step Coordinator.publish
    dsimp only
    split
    · rename_i hp
      exact hmoved i .resolving (fun _ => by rw [hp]; rfl) (by simp [Phase.verdict])
    · exact ⟨.inl, .inl⟩
  | clear i =>
    unfold Coordinator.step Coordinator.clear
    dsimp only
    split
    · rename_i v hp
      exact hmoved i (.unlocking v) (by simp [Phase.downloads]) fun hv => by rw [hp]; exact hv
    · exact ⟨.inl, .inl⟩
  | unlock i =>
    unfold Coordinator.step Coordinator.unlock
    dsimp only
    split
    · rename_i v hp
      exact hmoved i (.finished v) (by simp [Phase.downloads]) fun hv => by rw [hp]; exact hv
    · exact ⟨.inl, .inl⟩
  | cancel =>
    unfold Coordinator.step Coordinator.cancel
    dsimp only
    split
    · rename_i i _
      by_cases hj : j = i
      · subst hj
        simp only [Coordinator.set, Function.update_self]
        exact ⟨.inl, .inl⟩
      · simp only [Coordinator.set, Function.update_of_ne hj]
        exact ⟨.inl, .inl⟩
    · exact ⟨.inl, .inl⟩
  | snapshot complete => exact ⟨.inl, .inl⟩

theorem snapshot_step {e : Event ι} (h : Dependable s e) (hs : s.snapshot = true) :
    (s.step e).snapshot = true := by
  cases e with
  | own i x => exact hs
  | snapshot complete => exact h hs
  | lock i =>
    show (s.lock i).snapshot = true
    unfold Coordinator.lock
    split <;> exact hs
  | publish i =>
    show (s.publish i).snapshot = true
    unfold Coordinator.publish
    split <;> exact hs
  | clear i =>
    show (s.clear i).snapshot = true
    unfold Coordinator.clear
    split <;> exact hs
  | unlock i =>
    show (s.unlock i).snapshot = true
    unfold Coordinator.unlock
    split <;> exact hs
  | cancel =>
    show s.cancel.1.snapshot = true
    unfold Coordinator.cancel
    split <;> exact hs

theorem DownloadedOnce.step (h : DownloadedOnce s) (ho : Orderly s) {e : Event ι}
    (he : Dependable s e) : DownloadedOnce (s.step e) := by
  -- where a call has come to its end, the snapshot was there before the step
  have hthere : ∀ i, ((s.step e).call i).phase.verdict = some .prepared → s.snapshot = true ∧
      ∀ j, (s.call j).phase.downloads = true → j = i := by
    intro i hi
    rcases (step_call s e i).2 hi with hold | ⟨⟨last, hreaping⟩, rfl⟩
    · refine ⟨h.kept i hold, fun j hj => ?_⟩
      rw [h.rests i j hold] at hj
      cases hj
    · have hdownloads : (s.call i).phase.downloads = true := by rw [hreaping]; rfl
      exact ⟨he last hreaping, fun j hj =>
        ho.alone (held_of_downloads hj) (held_of_downloads hdownloads)⟩
  constructor
  case kept => exact fun i hi => snapshot_step he (hthere i hi).1
  case rests =>
    intro i j hi
    obtain ⟨hsnapshot, honly⟩ := hthere i hi
    by_contra hj
    have hj : ((s.step e).call j).phase.downloads = true := by simpa using hj
    have hji := ((step_call s e j).1 hj).resolve_right (by simp [hsnapshot])
    rw [honly j hji, downloads_of_verdict hi] at hj
    cases hj
  case once =>
    intro i j hi hj
    rcases (step_call s e i).2 hi with hold | ⟨⟨last, hreaping⟩, rfl⟩
    · rcases (step_call s e j).2 hj with hold' | ⟨⟨last, hreaping⟩, rfl⟩
      · exact h.once i j hold hold'
      · exact ((hthere i hi).2 j (by rw [hreaping]; rfl)).symm
    · exact (hthere j hj).2 i (by rw [hreaping]; rfl)

/-- However calls, cancellations and dropped calls are interleaved, one download is in flight at
most, and the slot is that of the one in flight; if children that succeed have completed the
snapshot, and none is taken away, the model is downloaded once. -/
theorem prepare_singleFlight (snapshot : Bool) (events : List (Event ι)) :
    Throughout Coordinator.step Served (Coordinator.new snapshot) events ∧
      (Along Coordinator.step Dependable (Coordinator.new snapshot) events →
        Throughout Coordinator.step DownloadedOnce (Coordinator.new snapshot) events) := by
  constructor
  · exact (throughout_of_keep (I := Orderly) (fun _ e h => orderly_step h e)
      (orderly_new snapshot)).mono fun _ h => h.served
  · intro h
    have hstart : DownloadedOnce (Coordinator.new snapshot : Coordinator ι) := by
      constructor
      case once => exact fun i _ hi => by cases hi
      case rests => exact fun i _ hi => by cases hi
      case kept => exact fun i hi => by cases hi
    exact (h.throughout (I := fun s => Orderly s ∧ DownloadedOnce s)
      (fun _ e hs he => ⟨orderly_step hs.1 e, hs.2.step hs.1 he⟩)
      ⟨orderly_new snapshot, hstart⟩).mono fun _ hs => hs.2

end Runs

end LensLM.QwenPrepare
