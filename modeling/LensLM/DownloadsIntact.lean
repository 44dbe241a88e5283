import LensLM.DownloadRuns

/-!
# Downloads are intact and resumable

Only who holds the lock touches the partial file, so that what it knows of the file stays true until
it renames it. This holds for the digest whatever the server answers, and for the artifact itself
where the server is honest.
-/

namespace LensLM.Download

open ByteText Programs Program

set_option autoImplicit false

section Holders

variable {ι : Type} {host : DownloadHost} {sha : Option Str} {c : DownloadCmd} {x : DownloadChoice}
variable {s s' : Disk} {r : Except Failure c.Reply}

theorem answer_eq_some {α : Type} {a : α} {t : Disk} {r : Except Failure α}
    (h : answer x s a t = some (r, s')) :
    (x.fault = none ∧ r = .ok a ∧ s' = t) ∨ (∃ e, r = .error e ∧ s' = s) := by
  unfold answer at h
  cases hx : x.fault with
  | none =>
    rw [hx] at h
    cases h
    exact .inl ⟨rfl, rfl, rfl⟩
  | some f =>
    rw [hx] at h
    cases h
    exact .inr ⟨_, rfl, rfl⟩

/-- Commands that neither touch the disk nor leave a note. -/
def DownloadCmd.Silent : DownloadCmd → Prop
  | .buildClient | .createDirAll | .isCancelled | .availableSpace | .syncPart | .nextChunk
  | .flush | .syncFile | .sleep | .destLen => True
  | _ => False

theorem react_silent (h : c.react host x s = some (r, s')) (hc : c.Silent) : s' = s := by
  cases c with
  | destLen | isCancelled | availableSpace =>
    cases h
    rfl
  | buildClient | createDirAll | syncPart | nextChunk | flush | syncFile | sleep =>
    rcases answer_eq_some h with ⟨_, _, hs⟩ | ⟨_, _, hs⟩
    · exact hs
    · exact hs
  | _ => exact hc.elim

theorem react_lock {r : Except Failure Unit} (h : DownloadCmd.lock.react host x s = some (r, s')) :
    (r = .ok () ∧ s.locked = false ∧ s' = { s with locked := true }) ∨
      (∃ e, r = .error e ∧ s' = s) := by
  simp only [DownloadCmd.react] at h
  split at h
  · cases h
    exact .inr ⟨_, rfl, rfl⟩
  · split at h
    · cases h
    · rename_i hl
      cases h
      exact .inl ⟨rfl, Bool.eq_false_iff.mpr hl, rfl⟩

theorem react_write {chunk : Bytes} {r : Except Failure Unit}
    (h : (DownloadCmd.write chunk).react host x s = some (r, s')) :
    (r = .ok () ∧ s' = { s with part := s.part.map (· ++ chunk) }) ∨
      (∃ e, r = .error e ∧ ∃ kept, kept <+: chunk ∧
        s' = { s with part := s.part.map (· ++ kept) }) := by
  simp only [DownloadCmd.react] at h
  split at h
  · cases h
    exact .inr ⟨_, rfl, _, List.take_prefix _ _, rfl⟩
  · cases h
    exact .inl ⟨rfl, rfl⟩

theorem react_rename {r : Except Failure Unit}
    (h : DownloadCmd.rename.react host x s = some (r, s')) :
    (r = .ok () ∧ ∃ b, s.part = some b ∧ s' = { s with part := none, dest := some b }) ∨
      (∃ e, r = .error e ∧ s' = s) := by
  simp only [DownloadCmd.react] at h
  cases hp : s.part with
  | none =>
    rw [hp] at h
    cases h
    exact .inr ⟨_, rfl, rfl⟩
  | some b =>
    rw [hp] at h
    rcases answer_eq_some h with ⟨_, hr, hs⟩ | hr
    · exact .inl ⟨hr, b, rfl, hs⟩
    · exact .inr hr

theorem react_hashPart {r : Except Failure Str}
    (h : DownloadCmd.hashPart.react host x s = some (r, s')) :
    s' = s ∧ ((∃ b, s.part = some b ∧ r = .ok (host.sha256Hex b)) ∨ ∃ e, r = .error e) := by
  simp only [DownloadCmd.react] at h
  cases hp : s.part with
  | none =>
    rw [hp] at h
    cases h
    exact ⟨rfl, .inr ⟨_, rfl⟩⟩
  | some b =>
    rw [hp] at h
    rcases answer_eq_some h with ⟨_, hr, hs⟩ | ⟨e, hr, hs⟩
    · exact ⟨hs, .inl ⟨b, rfl, hr⟩⟩
    · exact ⟨hs, .inr ⟨e, hr⟩⟩

/-- A command other than those of the lock leaves the lock as it is. -/
def DownloadCmd.Locks : DownloadCmd → Prop
  | .lock | .unlock => True
  | _ => False

theorem note_holds {g : DownloadNotes} (hc : ¬ c.Locks) :
    (g.note ⟨c, x, s, r⟩).holds = g.holds := by
  cases c with
  | lock | unlock => exact (hc trivial).elim
  | write => cases r <;> rfl
  | head | partLen | removePart | rename | hashPart | get | openAppend | create =>
    cases r <;> rfl
  | _ => rfl

theorem react_locked (hc : ¬ c.Locks) (h : c.react host x s = some (r, s')) :
    s'.locked = s.locked := by
  cases c with
  | lock | unlock => exact (hc trivial).elim
  | head =>
    simp only [DownloadCmd.react] at h
    split at h <;> cases h <;> rfl
  | partLen | removePart =>
    cases h
    first | rfl | (split <;> rfl)
  | hashPart => rw [(react_hashPart h).1]
  | rename =>
    rcases react_rename h with ⟨_, b, _, rfl⟩ | ⟨_, _, rfl⟩
    · rfl
    · rfl
  | write =>
    rcases react_write h with ⟨_, rfl⟩ | ⟨_, _, _, _, rfl⟩
    · rfl
    · rfl
  | get | openAppend | create =>
    rcases answer_eq_some h with ⟨_, _, rfl⟩ | ⟨_, _, rfl⟩
    · rfl
    · rfl
  | _ => rw [react_silent h trivial]

/-- Without the lock a download changes nothing. -/
theorem react_outside {g : DownloadNotes} (hg : g.holds = false) (hc : ¬ c.Locks)
    (ha : downloadAllows sha c g) (h : c.react host x s = some (r, s')) : s' = s := by
  have hne : g.holds ≠ true := by
    rw [hg]
    nofun
  cases c with
  | lock | unlock => exact (hc trivial).elim
  | head =>
    simp only [DownloadCmd.react] at h
    split at h <;> cases h <;> rfl
  | buildClient | destLen | createDirAll => exact react_silent h trivial
  | get | openAppend | create | write | rename => exact (hne ha.1).elim
  | _ => exact (hne ha).elim

end Holders

section Invariant

variable {ι : Type}

/-- One download at most holds the lock, and what it knows of the partial file is `tied` to it;
every download `knows` the length of the artifact, and the files are `fine`. -/
structure Held (knows : Option Nat → Prop) (tied : DownloadNotes → Option Bytes → Prop)
    (fine : Disk → Prop) (g : ι → DownloadNotes) (s : Disk) : Prop where
  locked : ∀ i, (g i).holds = true → s.locked = true
  one : ∀ i j, (g i).holds = true → (g j).holds = true → i = j
  knows : ∀ i, knows (g i).expectedLen
  tied : ∀ i, (g i).holds = true → tied (g i) s.part
  fine : fine s

/-- What keeps `Held`: the steps of the one who holds the lock, and the probes for the length. -/
structure Upheld (host : DownloadHost)
    (guard : Guard ι DownloadCmd DownloadChoice Disk DownloadNotes) (sha : ι → Option Str)
    (knows : Option Nat → Prop) (tied : DownloadNotes → Option Bytes → Prop)
    (fine : Disk → Prop) : Prop where
  relocked : ∀ s b, fine s → fine { s with locked := b }
  unprobed : knows none
  probed : ∀ g i x s, guard g i .head x s → knows (x.number.filter (0 < ·))
  fresh : ∀ e part, tied (measuredNotes e 0 none) part
  moved : ∀ (g : ι → DownloadNotes) i c x s (r : Except Failure c.Reply) s', ¬ c.Locks →
    downloadAllows (sha i) c (g i) → guard g i c x s → c.react host x s = some (r, s') →
    knows (g i).expectedLen → tied (g i) s.part → fine s →
      tied ((g i).note ⟨c, x, s, r⟩) s'.part ∧ fine s'

variable {host : DownloadHost} {guard : Guard ι DownloadCmd DownloadChoice Disk DownloadNotes}
variable {sha : ι → Option Str} {knows : Option Nat → Prop}
variable {tied : DownloadNotes → Option Bytes → Prop} {fine : Disk → Prop}
variable [DecidableEq ι] {g : ι → DownloadNotes} {i : ι} {n : DownloadNotes} {s s' : Disk}

theorem Held.knows_update (h : Held knows tied fine g s) (hk : knows n.expectedLen) (j : ι) :
    knows (Function.update g i n j).expectedLen := by
  by_cases hj : j = i
  · rw [hj, Function.update_self]
    exact hk
  · rw [Function.update_of_ne hj]
    exact h.knows j

/-- A step without a change of the lock, which moves the files only under it. -/
theorem Held.move (h : Held knows tied fine g s) (hn : n.holds = (g i).holds)
    (hl : s'.locked = s.locked) (hout : (g i).holds = false → s' = s) (hk : knows n.expectedLen)
    (ht : (g i).holds = true → tied n s'.part ∧ fine s') :
    Held knows tied fine (Function.update g i n) s' := by
  have hholds : ∀ j, (Function.update g i n j).holds = (g j).holds := by
    intro j
    by_cases hj : j = i
    · rw [hj, Function.update_self, hn]
    · rw [Function.update_of_ne hj]
  constructor
  · intro j hj
    rw [hholds] at hj
    rw [hl]
    exact h.locked j hj
  · intro j k hj hk
    rw [hholds] at hj hk
    exact h.one j k hj hk
  · exact h.knows_update hk
  · intro j hj
    rw [hholds] at hj
    by_cases hji : j = i
    · rw [hji] at hj
      rw [hji, Function.update_self]
      exact (ht hj).1
    · rw [Function.update_of_ne hji]
      have hi : (g i).holds = false := Bool.eq_false_iff.mpr fun hi => hji (h.one j i hj hi)
      rw [hout hi]
      exact h.tied j hj
  · cases hi : (g i).holds with
    | true => exact (ht hi).2
    | false =>
      rw [hout hi]
      exact h.fine

/-- The lock is taken when nobody holds it. -/
theorem Held.lock (h : Held knows tied fine g s) (hs : s.locked = false)
    (hk : knows n.expectedLen) (ht : tied n s.part) (hf : fine { s with locked := true }) :
    Held knows tied fine (Function.update g i n) { s with locked := true } := by
  have hnone : ∀ j, (g j).holds ≠ true := by
    intro j hj
    have hl := h.locked j hj
    rw [hs] at hl
    cases hl
  have honly : ∀ j, (Function.update g i n j).holds = true → j = i := by
    intro j hj
    by_cases hji : j = i
    · exact hji
    · rw [Function.update_of_ne hji] at hj
      exact (hnone j hj).elim
  constructor
  · exact fun _ _ => rfl
  · intro j k hj hk
    rw [honly j hj, honly k hk]
  · exact h.knows_update hk
  · intro j hj
    rw [honly j hj, Function.update_self]
    exact ht
  · exact hf

theorem Held.unlock (h : Held knows tied fine g s) (hi : (g i).holds = true)
    (hn : n.holds = false) (hk : knows n.expectedLen) (hf : fine { s with locked := false }) :
    Held knows tied fine (Function.update g i n) { s with locked := false } := by
  have hnone : ∀ j, (Function.update g i n j).holds ≠ true := by
    intro j hj
    by_cases hji : j = i
    · rw [hji, Function.update_self, hn] at hj
      cases hj
    · rw [Function.update_of_ne hji] at hj
      exact hji (h.one j i hj hi)
  exact ⟨fun j hj => (hnone j hj).elim, fun j _ hj => (hnone j hj).elim, h.knows_update hk,
    fun j hj => (hnone j hj).elim, hf⟩

variable {c : DownloadCmd} {x : DownloadChoice} {r : Except Failure c.Reply}

omit [DecidableEq ι] in
theorem Upheld.knows_note (hu : Upheld host guard sha knows tied fine) (h : knows n.expectedLen)
    (hg : guard g i c x s) (hr : c.react host x s = some (r, s')) :
    knows (n.note ⟨c, x, s, r⟩).expectedLen := by
  cases c with
  | head =>
    simp only [DownloadCmd.react] at hr
    split at hr
    · cases hr
      exact h
    · cases hr
      exact hu.probed g i x s hg
  | write | lock | unlock | partLen | removePart | rename | hashPart | get | openAppend | create =>
    cases r <;> exact h
  | _ => exact h

theorem Held.step (hu : Upheld host guard sha knows tied fine) (h : Held knows tied fine g s)
    (ha : downloadAllows (sha i) c (g i)) (hg : guard g i c x s)
    (hr : c.react host x s = some (r, s')) :
    Held knows tied fine (Function.update g i ((g i).note ⟨c, x, s, r⟩)) s' := by
  have hk := hu.knows_note (h.knows i) hg hr
  by_cases hc : c.Locks
  · cases c with
    | lock =>
      rcases react_lock hr with ⟨rfl, hs, rfl⟩ | ⟨e, rfl, rfl⟩
      · refine h.lock hs hk ?_ (hu.relocked s true h.fine)
        have hn : (g i).note ⟨.lock, x, s, .ok ()⟩ = measuredNotes (g i).expectedLen 0 none := by
          show ({ g i with holds := true } : DownloadNotes) = _
          rw [show g i = _ from ha]
          rfl
        rw [hn]
        exact hu.fresh _ _
      · have hn : (g i).note ⟨.lock, x, s', .error e⟩ = g i := rfl
        rw [hn, Function.update_eq_self]
        exact h
    | unlock =>
      cases hr
      exact h.unlock ha rfl hk (hu.relocked s false h.fine)
    | _ => exact hc.elim
  · refine h.move (note_holds hc) (react_locked hc hr) (fun hi => react_outside hi hc ha hr) hk ?_
    exact fun hi => hu.moved g i c x s r s' hc ha hg hr (h.knows i) (h.tied i hi) h.fine

/-- The invariant holds all along the downloads. -/
theorem Upheld.run {calls : ι → DownloadCall} {part dest : Option Bytes}
    (hu : Upheld host guard (fun i => (calls i).expectedSha256) knows tied fine)
    (hf : fine ⟨part, dest, false⟩)
    {w : Pool ι DownloadCmd DownloadCmd.Reply Failure Unit Disk DownloadNotes}
    (run : (downloadsStart calls part dest).Run (downloadMachine host) guard w) :
    Held knows tied fine w.seen w.state := by
  have hstart : Held knows tied fine (fun _ : ι => DownloadNotes.start) ⟨part, dest, false⟩ :=
    ⟨fun _ h => (by cases h), fun _ _ h => (by cases h), fun _ => hu.unprobed,
      fun _ h => (by cases h), hf⟩
  exact (run.keeps (I := Held knows tied fine)
    (d := fun i => downloadDiscipline (calls i).expectedSha256) (fun _ _ _ _ => trivial)
    (fun _ _ _ _ _ _ _ h ha hg hr => h.step hu ha hg hr) hstart
    fun i => checked_downloadVerified (calls i).policy).1

end Invariant

section Digests

variable {ι : Type} {host : DownloadHost} {calls : ι → DownloadCall} {dest : Option Bytes}
variable {g : DownloadNotes} {part : Option Bytes}

/-- A digest that is known is that of the partial file. -/
def DigestTied (host : DownloadHost) (g : DownloadNotes) (part : Option Bytes) : Prop :=
  ∀ d ∈ g.digest, ∃ b ∈ part, d = host.sha256Hex b

/-- The destination is as it was, or has the digest that some download expects of it. -/
def DigestFine (host : DownloadHost) (calls : ι → DownloadCall) (dest : Option Bytes)
    (s : Disk) : Prop :=
  ∀ b ∈ s.dest, dest = some b ∨
    ∃ i, ∀ d ∈ (calls i).expectedSha256, eqIgnoreAsciiCase (host.sha256Hex b) d = true

theorem digestTied_none (h : g.digest = none) : DigestTied host g part := by
  intro d hd
  rw [h] at hd
  cases hd

theorem digest_moved {i : ι} {c : DownloadCmd} {x : DownloadChoice} {s s' : Disk}
    {r : Except Failure c.Reply} (hc : ¬ c.Locks)
    (ha : downloadAllows (calls i).expectedSha256 c g) (hr : c.react host x s = some (r, s'))
    (ht : DigestTied host g s.part) (hf : DigestFine host calls dest s) :
    DigestTied host (g.note ⟨c, x, s, r⟩) s'.part ∧ DigestFine host calls dest s' := by
  cases c with
  | lock | unlock => exact (hc trivial).elim
  | head =>
    simp only [DownloadCmd.react] at hr
    split at hr <;> cases hr <;> exact ⟨ht, hf⟩
  | partLen =>
    cases hr
    exact ⟨digestTied_none rfl, hf⟩
  | removePart =>
    cases hr
    refine ⟨digestTied_none rfl, ?_⟩
    split <;> exact hf
  | hashPart =>
    obtain ⟨rfl, hb | ⟨e, rfl⟩⟩ := react_hashPart hr
    · obtain ⟨b, hb, rfl⟩ := hb
      refine ⟨?_, hf⟩
      intro d hd
      cases hd
      exact ⟨b, hb, rfl⟩
    · exact ⟨ht, hf⟩
  | rename =>
    rcases react_rename hr with ⟨rfl, b, hb, rfl⟩ | ⟨e, rfl, rfl⟩
    · refine ⟨digestTied_none rfl, ?_⟩
      intro b' hb'
      cases hb'
      refine .inr ⟨i, fun d hd => ?_⟩
      obtain ⟨actual, hactual, heq⟩ := ha.2.1 d hd
      obtain ⟨b', hb', rfl⟩ := ht actual hactual
      rw [hb] at hb'
      cases hb'
      exact heq
    · exact ⟨ht, hf⟩
  | get range =>
    rcases answer_eq_some hr with ⟨_, rfl, rfl⟩ | ⟨e, rfl, rfl⟩
    · exact ⟨ht, hf⟩
    · exact ⟨ht, hf⟩
  | openAppend | create =>
    rcases answer_eq_some hr with ⟨_, rfl, rfl⟩ | ⟨e, rfl, rfl⟩
    · exact ⟨digestTied_none rfl, hf⟩
    · exact ⟨ht, hf⟩
  | write chunk =>
    rcases react_write hr with ⟨rfl, rfl⟩ | ⟨e, rfl, kept, _, rfl⟩
    · exact ⟨digestTied_none rfl, hf⟩
    · exact ⟨digestTied_none rfl, hf⟩
  | _ =>
    rw [react_silent hr trivial]
    exact ⟨ht, hf⟩

theorem digests_upheld (calls : ι → DownloadCall) (dest : Option Bytes) :
    Upheld host Unrestricted (fun i => (calls i).expectedSha256) (fun _ => True)
      (DigestTied host) (DigestFine host calls dest) where
  relocked _ _ h := h
  unprobed := trivial
  probed _ _ _ _ _ := trivial
  fresh _ _ := digestTied_none rfl
  moved _ _ _ _ _ _ _ hc ha _ hr _ ht hf := digest_moved hc ha hr ht hf

end Digests

section Prefixes

variable {ι : Type} {host : DownloadHost} {artifact : Bytes} {calls : ι → DownloadCall}
variable {dest : Option Bytes} {g : DownloadNotes} {part : Option Bytes}

/-- What a download knows of the partial file of an honest artifact. -/
structure PrefixTied (artifact : Bytes) (g : DownloadNotes) (part : Option Bytes) : Prop where
  measured : g.base = none → 0 < g.measured → ∃ b ∈ part, b.length = g.measured
  asked : ∀ n ∈ g.range, n = g.measured ∧ 0 < n
  honest : ∀ r ∈ g.response, r.Honest artifact g.range
  received : ∀ offset ∈ g.base, part = some (artifact.take offset ++ g.written)

/-- The partial file is a prefix of the artifact, and the destination is as it was or all of it. -/
structure PrefixFine (artifact : Bytes) (dest : Option Bytes) (s : Disk) : Prop where
  part : ∀ b ∈ s.part, b <+: artifact
  dest : ∀ b ∈ s.dest, dest = some b ∨ b = artifact

theorem Response.Honest.delivers {r : Response} {range : Option Nat} {offset : Nat}
    (h : r.Honest artifact range) (hs : r.StartsAt offset) : r.Delivers artifact offset := by
  unfold Response.Honest at h
  rcases hs with ⟨hresumed, total, hcr⟩ | ⟨hresumed, hrejected, hsuccess, rfl⟩
  · rw [if_pos hresumed] at h
    obtain ⟨_, served, hserved, _, hd⟩ := h
    rw [hcr] at hserved
    cases hserved
    exact hd
  · rw [if_neg hresumed, if_neg hrejected] at h
    exact (h hsuccess).2

theorem prefixTied_forgotten {holds : Bool} {expectedLen : Option Nat} :
    PrefixTied artifact ⟨holds, expectedLen, 0, none, none, none, [], none⟩ part := by
  constructor
  · intro _ h
    cases h
  · intro _ h
    cases h
  · intro _ h
    cases h
  · intro _ h
    cases h

/-- A partial file of the length of an offset is the artifact up to there. -/
theorem prefix_take {b : Bytes} (hp : ∀ b ∈ part, b <+: artifact) (hb : b ∈ part) :
    b = artifact.take b.length := List.prefix_iff_eq_take.mp (hp b hb)

/-- What was received together with the next part of a body is still the artifact's. -/
theorem received_prefix {offset : Nat} {written body : Bytes} (hw : written <+: body)
    (hb : body <+: artifact.drop offset) : artifact.take offset ++ written <+: artifact := by
  have h := (List.prefix_append_right_inj (artifact.take offset)).mpr (hw.trans hb)
  rwa [List.take_append_drop] at h

/-- A partial file that is known to be whole is the artifact. -/
theorem PrefixTied.whole {b : Bytes} (ht : PrefixTied artifact g (some b))
    (hk : ∀ n ∈ g.expectedLen, n = artifact.length) (hp : b <+: artifact) (hw : g.Whole) :
    b = artifact := by
  cases hw with
  | measured hbase hpos hlen =>
    obtain ⟨_, hb, hm⟩ := ht.measured hbase hpos
    cases hb
    apply hp.eq_of_length
    rw [hm]
    exact hk _ hlen
  | rejected r hbase hr hstatus =>
    have hh := ht.honest r hr
    have hne : r.status ≠ PARTIAL_CONTENT := by
      rw [hstatus]
      decide
    unfold Response.Honest at hh
    rw [if_neg hne, if_pos hstatus] at hh
    obtain ⟨start, hstart, hle⟩ := hh
    obtain ⟨rfl, hpos⟩ := ht.asked start hstart
    obtain ⟨_, hb, hm⟩ := ht.measured hbase hpos
    cases hb
    rw [← hm] at hle
    exact hp.eq_of_length_le hle
  | received r offset hbase hr hs hwritten hc =>
    have hb := ht.received offset hbase
    rw [hwritten, ((ht.honest r hr).delivers hs).2 hc, List.take_append_drop] at hb
    exact Option.some.inj hb

theorem PrefixFine.write {kept : Bytes} {s : Disk} (hf : PrefixFine artifact dest s)
    (hp : ∀ b ∈ s.part, b ++ kept <+: artifact) :
    PrefixFine artifact dest { s with part := s.part.map (· ++ kept) } := by
  refine ⟨?_, hf.dest⟩
  intro b hb
  obtain ⟨b', hb', rfl⟩ := Option.map_eq_some_iff.mp hb
  exact hp b' hb'

/-- A body that is appended where the response starts. -/
theorem PrefixTied.appends {chunk kept : Bytes} {s : Disk} (ht : PrefixTied artifact g s.part)
    {r : Response} {offset : Nat} (hr : g.response = some r) (hbase : g.base = some offset)
    (hs : r.StartsAt offset) (hbody : g.written ++ chunk <+: r.body) (hkept : kept <+: chunk) :
    ∀ b ∈ s.part, b ++ kept <+: artifact := by
  intro b hb
  rw [ht.received offset hbase] at hb
  cases hb
  rw [List.append_assoc]
  refine received_prefix ?_ ((ht.honest r hr).delivers hs).1
  exact ((List.prefix_append_right_inj g.written).mpr hkept).trans hbody

theorem PrefixTied.get {range : Option Nat} {r : Response} (ht : PrefixTied artifact g part)
    (hbase : g.base = none) (hrange : range = rangeFor g.measured)
    (hr : r.Honest artifact range) :
    PrefixTied artifact { g with range, response := some r, base := none } part := by
  constructor
  · exact fun _ hpos => ht.measured hbase hpos
  · intro n hn
    rw [hrange, rangeFor] at hn
    split at hn
    · rename_i hpos
      cases hn
      exact ⟨rfl, hpos⟩
    · cases hn
  · intro r' hr'
    cases hr'
    exact hr
  · intro _ h
    cases h

/-- Where the server resumes, the partial file ends at the offset. -/
theorem PrefixTied.resume {r : Response} (ht : PrefixTied artifact g part)
    (hp : ∀ b ∈ part, b <+: artifact) (hbase : g.base = none) (hr : g.response = some r)
    (hstatus : r.status = PARTIAL_CONTENT) :
    part = some (artifact.take g.measured) := by
  have hh := ht.honest r hr
  unfold Response.Honest at hh
  rw [if_pos hstatus] at hh
  obtain ⟨n, hn⟩ := Option.ne_none_iff_exists'.mp hh.1
  obtain ⟨rfl, hpos⟩ := ht.asked n hn
  obtain ⟨b, hb, hlen⟩ := ht.measured hbase hpos
  rw [← hlen, ← prefix_take hp hb]
  exact hb

theorem prefix_moved {sha : Option Str} {i : ι} {seen : ι → DownloadNotes} {c : DownloadCmd}
    {x : DownloadChoice} {s s' : Disk} {r : Except Failure c.Reply} (hc : ¬ c.Locks)
    (ha : downloadAllows sha c g) (hg : HonestServer artifact seen i c x s)
    (hr : c.react host x s = some (r, s')) (hk : ∀ n ∈ g.expectedLen, n = artifact.length)
    (ht : PrefixTied artifact g s.part) (hf : PrefixFine artifact dest s) :
    PrefixTied artifact (g.note ⟨c, x, s, r⟩) s'.part ∧ PrefixFine artifact dest s' := by
  cases c with
  | lock | unlock => exact (hc trivial).elim
  | head =>
    simp only [DownloadCmd.react] at hr
    split at hr <;> cases hr <;> exact ⟨⟨ht.1, ht.2, ht.3, ht.4⟩, hf⟩
  | partLen =>
    cases hr
    refine ⟨⟨?_, nofun, nofun, nofun⟩, hf⟩
    intro _ hpos
    show ∃ b ∈ s.part, b.length = if x.works then (s.part.map List.length).getD 0 else 0
    replace hpos : 0 < if x.works then (s.part.map List.length).getD 0 else 0 := hpos
    cases hp : s.part with
    | none =>
      rw [hp] at hpos
      split at hpos <;> cases hpos
    | some b =>
      rw [hp] at hpos
      split at hpos
      · rename_i hw
        rw [if_pos hw]
        exact ⟨b, rfl, rfl⟩
      · cases hpos
  | removePart =>
    cases hr
    refine ⟨prefixTied_forgotten, ?_⟩
    split
    · exact ⟨nofun, hf.dest⟩
    · exact hf
  | hashPart =>
    obtain ⟨rfl, ⟨b, _, rfl⟩ | ⟨e, rfl⟩⟩ := react_hashPart hr
    · exact ⟨⟨ht.1, ht.2, ht.3, ht.4⟩, hf⟩
    · exact ⟨ht, hf⟩
  | rename =>
    rcases react_rename hr with ⟨rfl, b, hb, rfl⟩ | ⟨e, rfl, rfl⟩
    · refine ⟨prefixTied_forgotten, nofun, ?_⟩
      intro b' hb'
      cases hb'
      right
      rw [hb] at ht
      exact ht.whole hk (hf.part b hb) ha.2.2
    · exact ⟨ht, hf⟩
  | get range =>
    rcases answer_eq_some hr with ⟨hx, rfl, rfl⟩ | ⟨e, rfl, rfl⟩
    · exact ⟨ht.get ha.2.1 ha.2.2 (hg hx), hf⟩
    · exact ⟨ht, hf⟩
  | openAppend =>
    obtain ⟨_, hbase, r', hr', hstatus, _⟩ := ha
    have hpart := ht.resume hf.part hbase hr' hstatus
    rcases answer_eq_some hr with ⟨_, rfl, rfl⟩ | ⟨e, rfl, rfl⟩
    · have hsame : some (s.part.getD []) = s.part := by
        rw [hpart]
        rfl
      refine ⟨⟨nofun, ht.asked, ht.honest, ?_⟩, ?_⟩
      · intro offset ho
        cases ho
        rw [hsame, hpart]
        exact congrArg some (List.append_nil _).symm
      · rw [hsame]
        exact hf
    · exact ⟨ht, hf⟩
  | create =>
    rcases answer_eq_some hr with ⟨_, rfl, rfl⟩ | ⟨e, rfl, rfl⟩
    · refine ⟨⟨nofun, ht.asked, ht.honest, ?_⟩, ?_, hf.dest⟩
      · intro offset ho
        cases ho
        rfl
      · intro b hb
        cases hb
        exact List.nil_prefix
    · exact ⟨ht, hf⟩
  | write chunk =>
    obtain ⟨_, r', offset, hr', hbase, hs, hbody⟩ := ha
    rcases react_write hr with ⟨rfl, rfl⟩ | ⟨e, rfl, kept, hkept, rfl⟩
    · refine ⟨⟨?_, ht.asked, ht.honest, ?_⟩,
        hf.write (ht.appends hr' hbase hs hbody (List.prefix_refl _))⟩
      · intro hnone
        exact absurd (hbase.symm.trans hnone) nofun
      · intro o ho
        have hpart := ht.received o ho
        show s.part.map (· ++ chunk) = some (artifact.take o ++ (g.written ++ chunk))
        rw [hpart, ← List.append_assoc]
        rfl
    · exact ⟨prefixTied_forgotten, hf.write (ht.appends hr' hbase hs hbody hkept)⟩
  | _ =>
    rw [react_silent hr trivial]
    exact ⟨ht, hf⟩

theorem prefixes_upheld (calls : ι → DownloadCall) (dest : Option Bytes) :
    Upheld host (HonestServer artifact) (fun i => (calls i).expectedSha256)
      (fun length => ∀ n ∈ length, n = artifact.length) (PrefixTied artifact)
      (PrefixFine artifact dest) where
  relocked _ _ h := ⟨h.1, h.2⟩
  unprobed := nofun
  probed _ _ x _ h := by
    intro n hn
    obtain ⟨hn, hpos⟩ := Option.mem_filter_iff.mp hn
    exact h n hn (of_decide_eq_true hpos)
  fresh _ _ := prefixTied_forgotten
  moved _ _ _ _ _ _ _ hc ha hg hr hk ht hf := prefix_moved hc ha hg hr hk ht hf

end Prefixes

section Main

variable {ι : Type} [DecidableEq ι]

/-- Whatever the server answers, only a file with the expected digest is published; and from an
honest server the partial file is always a prefix of the artifact, and what is published is it. -/
theorem downloads_intact_and_resumable (host : DownloadHost) (calls : ι → DownloadCall)
    (part dest : Option Bytes)
    (w : Pool ι DownloadCmd DownloadCmd.Reply Failure Unit Disk DownloadNotes) :
    ((downloadsStart calls part dest).Run (downloadMachine host) Unrestricted w →
      ∀ b ∈ w.state.dest, dest = some b ∨
        ∃ i, ∀ d ∈ (calls i).expectedSha256, eqIgnoreAsciiCase (host.sha256Hex b) d = true) ∧
    ∀ artifact : Bytes, (∀ b ∈ part, b <+: artifact) →
      (downloadsStart calls part dest).Run (downloadMachine host) (HonestServer artifact) w →
        (∀ b ∈ w.state.part, b <+: artifact) ∧
          ∀ b ∈ w.state.dest, dest = some b ∨ b = artifact := by
  refine ⟨?_, ?_⟩
  · intro run
    exact ((digests_upheld calls dest).run (fun b hb => .inl hb) run).fine
  · intro artifact hpart run
    have h := ((prefixes_upheld calls dest).run ⟨hpart, fun b hb => .inl hb⟩ run).fine
    exact ⟨h.part, h.dest⟩

/-- Two downloads of a small artifact; the first one is dropped while it streams. -/
def smallArtifact : Bytes := [1, 2, 3]

def smallDigest : Str :=
  "039058c6f2c0cb492c533b0a4d14ef77cc0f78abccced5287d84a1a2011cfb81".toList

def smallHost : DownloadHost where
  sha256Hex b := if b = smallArtifact then smallDigest else []

def smallCalls (_ : Bool) : DownloadCall := ⟨some smallDigest, ⟨0, 1024, 0, 1⟩⟩

def wholeResponse : Response := ⟨200, none, some 3, [[1], [2, 3]], true⟩

def restResponse : Response := ⟨206, some (1, 3), some 2, [[2, 3]], true⟩

def quietChoice : DownloadChoice := ⟨none, none, true, wholeResponse, 0⟩

def smallSchedule : List (Bool × DownloadChoice) :=
  let lead := [quietChoice, { quietChoice with number := some 3 }, quietChoice, quietChoice,
    quietChoice, quietChoice, { quietChoice with works := false }, quietChoice, quietChoice]
  let first := lead ++ [quietChoice, quietChoice, quietChoice, quietChoice,
    { quietChoice with fault := some .dropped }, quietChoice]
  let second := lead ++ { quietChoice with response := restResponse } ::
    List.replicate 9 quietChoice
  first.map (false, ·) ++ second.map (true, ·)

instance (artifact : Bytes) (range : Option Nat) (r : Response) :
    Decidable (r.Honest artifact range) := by
  unfold Response.Honest Response.Delivers
  infer_instance

instance {ι : Type} (artifact : Bytes) (g : ι → DownloadNotes) (i : ι) (c : DownloadCmd)
    (x : DownloadChoice) (s : Disk) : Decidable (HonestServer artifact g i c x s) :=
  match c with
  | .head => inferInstanceAs (Decidable (∀ n ∈ x.number, 0 < n → n = artifact.length))
  | .get range => inferInstanceAs (Decidable (x.fault = none → x.response.Honest artifact range))
  | .buildClient | .destLen | .createDirAll | .lock | .unlock | .isCancelled | .partLen
  | .removePart | .hashPart | .syncPart | .rename | .availableSpace | .openAppend | .create
  | .nextChunk | .write _ | .flush | .syncFile | .sleep => .isTrue trivial

/-- The second download resumes behind what the first one wrote. -/
theorem downloads_resume : ∃ w : Pool Bool DownloadCmd DownloadCmd.Reply Failure Unit Disk
    DownloadNotes,
    (downloadsStart smallCalls none none).Run (downloadMachine smallHost)
      (HonestServer smallArtifact) w ∧ w.state.dest.isSome = true ∧
      ∀ b ∈ w.state.dest, (b = smallArtifact ∧
        eqIgnoreAsciiCase (smallHost.sha256Hex b) smallDigest = true) := by
  have h : ((downloadsStart smallCalls none none).play (downloadMachine smallHost)
      (HonestServer smallArtifact) smallSchedule).any (fun w => w.state.dest.isSome) = true := by
    decide +kernel
  obtain ⟨w, hw, hp⟩ := Pool.run_of_play h
  refine ⟨w, hw, hp, ?_⟩
  have hmain := downloads_intact_and_resumable smallHost smallCalls none none w
  intro b hb
  refine ⟨?_, ?_⟩
  · rcases (hmain.2 smallArtifact nofun hw).2 b hb with hnone | heq
    · cases hnone
    · exact heq
  · rcases hmain.1 (hw.mono fun _ _ _ _ _ _ => trivial) b hb with hnone | ⟨i, hi⟩
    · cases hnone
    · exact hi smallDigest rfl

end Main

end LensLM.Download
