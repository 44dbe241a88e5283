import LensLM.Downloads

/-!
# What downloads publish

Every download touches the partial file while it holds the lock only, and renames it when it has
seen that it is complete. From this follows what the file and the destination hold all along.
-/

namespace LensLM.Download

open ByteText Programs Program

set_option autoImplicit false

section Discipline

/-- A response whose body continues the artifact from an offset. -/
def Response.StartsAt (r : Response) (offset : Nat) : Prop :=
  (r.status = PARTIAL_CONTENT ∧ ∃ total, r.contentRange = some (offset, total)) ∨
    (r.status ≠ PARTIAL_CONTENT ∧ r.status ≠ RANGE_NOT_SATISFIABLE ∧ r.isSuccess = true ∧
      offset = 0)

def rangeFor (partLen : Nat) : Option Nat := if 0 < partLen then some partLen else none

/-- What tells a download that the partial file is complete: its length, an answer that there is
nothing after it, or the body that it has written. -/
inductive DownloadNotes.Whole (g : DownloadNotes) : Prop
  | measured : g.base = none → 0 < g.measured → g.expectedLen = some g.measured → Whole g
  | rejected (r : Response) : g.base = none → g.response = some r →
    r.status = RANGE_NOT_SATISFIABLE → Whole g
  | received (r : Response) (offset : Nat) : g.base = some offset → g.response = some r →
    r.StartsAt offset → g.written = r.body → r.complete = true → Whole g

/-- The digest of the partial file, if one is expected. -/
def DownloadNotes.Matches (sha : Option Str) (g : DownloadNotes) : Prop :=
  ∀ expected ∈ sha, ∃ actual ∈ g.digest, eqIgnoreAsciiCase actual expected = true

def downloadAllows (sha : Option Str) : DownloadCmd → DownloadNotes → Prop
  | .buildClient, _ | .head, _ | .destLen, _ | .createDirAll, _ => True
  | .lock, g => g = { DownloadNotes.start with expectedLen := g.expectedLen }
  | .get range, g => g.holds = true ∧ g.base = none ∧ range = rangeFor g.measured
  | .openAppend, g => g.holds = true ∧ g.base = none ∧
    ∃ r, g.response = some r ∧ r.status = PARTIAL_CONTENT ∧ r.StartsAt g.measured
  | .create, g => g.holds = true ∧
    ∃ r, g.response = some r ∧ r.status ≠ PARTIAL_CONTENT ∧ r.StartsAt 0
  | .write chunk, g => g.holds = true ∧ ∃ r offset, g.response = some r ∧
    g.base = some offset ∧ r.StartsAt offset ∧ g.written ++ chunk <+: r.body
  | .rename, g => g.holds = true ∧ g.Matches sha ∧ g.Whole
  | _, g => g.holds = true

def downloadDiscipline (sha : Option Str) : Discipline DownloadCmd Disk DownloadNotes where
  known _ := True
  allows := downloadAllows sha

variable (host : DownloadHost) (sha : Option Str) (expectedLen : Option Nat)

/-- A download holds the lock and remembers the length of the artifact. -/
def DownloadNotes.Holding (g : DownloadNotes) : Prop := g.holds = true ∧ g.expectedLen = expectedLen

/-- The program does what it may, and holds the lock where it fails. -/
abbrev DownloadChecked {α : Type} (post : α → DownloadNotes → Prop) :
    DownloadProgram α → DownloadNotes → Prop :=
  Follows (downloadMachine host) (downloadDiscipline sha) post
    fun _ => DownloadNotes.Holding expectedLen

/-- What is known when the partial file has been measured, with its digest if it was taken. -/
def measuredNotes (partLen : Nat) (digest : Option Str) : DownloadNotes :=
  ⟨true, expectedLen, partLen, none, none, none, [], digest⟩

def askedNotes (partLen : Nat) (r : Response) (digest : Option Str) : DownloadNotes :=
  ⟨true, expectedLen, partLen, rangeFor partLen, some r, none, [], digest⟩

def receivingNotes (partLen : Nat) (r : Response) (offset : Nat) (written : Bytes)
    (digest : Option Str) : DownloadNotes :=
  ⟨true, expectedLen, partLen, rangeFor partLen, some r, some offset, written, digest⟩

/-- Commands of which nothing is noted, under the lock. -/
def DownloadCmd.Plain : DownloadCmd → Prop
  | .isCancelled | .availableSpace | .syncPart | .nextChunk | .flush | .syncFile | .sleep
  | .destLen => True
  | _ => False

variable {host sha expectedLen} {g : DownloadNotes}

theorem DownloadCmd.Plain.note {c : DownloadCmd} (hc : c.Plain) (x : DownloadChoice) (s : Disk)
    (r : Except Failure c.Reply) : g.note ⟨c, x, s, r⟩ = g := by
  cases c with
  | isCancelled | availableSpace | syncPart | nextChunk | flush | syncFile | sleep | destLen => rfl
  | _ => exact hc.elim

theorem DownloadCmd.Plain.allows {c : DownloadCmd} (hc : c.Plain) (hg : g.holds = true) :
    downloadAllows sha c g := by
  cases c with
  | isCancelled | availableSpace | syncPart | nextChunk | flush | syncFile | sleep => exact hg
  | destLen => trivial
  | _ => exact hc.elim

theorem checked_plain {c : DownloadCmd} (hc : c.Plain) (hg : g.Holding expectedLen) :
    DownloadChecked host sha expectedLen (fun _ g' => g' = g) c.issue g := by
  refine Follows.perform (hc.allows hg.1) ?_ ?_
  · intro x s a _
    exact hc.note x s _
  · intro x s e _
    show (g.note _).Holding expectedLen
    rw [hc.note]
    exact hg

theorem checked_mapFault {α : Type} {post : α → DownloadNotes → Prop} {f : Fault → Failure}
    {p : DownloadProgram α} (h : DownloadChecked host sha expectedLen post p g) :
    DownloadChecked host sha expectedLen post (mapFault f p) g := by
  apply Follows.handle h
  intro e g hg
  split <;> exact hg

theorem checked_completedSkip (e : Option Nat) (hg : g.Holding expectedLen) :
    DownloadChecked host sha expectedLen (fun _ g' => g' = g) (completedSkip e) g := by
  apply Follows.bind (checked_plain (c := .destLen) trivial hg)
  rintro onDisk g' rfl
  split <;> exact rfl

/-- The rename, which ends what is known of the partial file. -/
theorem checked_finalize (hg : g.Holding expectedLen) (hm : g.Matches sha) (hw : g.Whole) :
    DownloadChecked host sha expectedLen (fun _ => DownloadNotes.Holding expectedLen)
      finalize g := by
  apply checked_mapFault
  refine Follows.perform ⟨hg.1, hm, hw⟩ ?_ ?_
  · intro x s a _
    exact hg
  · intro x s e _
    exact hg

theorem checked_syncAndFinalize (hg : g.Holding expectedLen) (hm : g.Matches sha) (hw : g.Whole) :
    DownloadChecked host sha expectedLen (fun _ => DownloadNotes.Holding expectedLen)
      (syncAndFinalize) g := by
  apply Follows.bind (checked_mapFault (checked_plain (c := .syncPart) trivial hg))
  rintro _ g' rfl
  exact checked_finalize hg hm hw

theorem checked_sha256File (hg : g.Holding expectedLen) :
    DownloadChecked host sha expectedLen (fun actual g' => g' = { g with digest := some actual })
      sha256File g := by
  apply checked_mapFault
  refine Follows.perform hg.1 ?_ ?_
  · intro x s a _
    rfl
  · intro x s e _
    exact hg

theorem checked_completePartMatches (hg : g.Holding expectedLen) {policy : DownloadPolicy} :
    DownloadChecked host sha expectedLen
      (fun proves g' => ∃ digest, g' = { g with digest } ∧ (proves = true → g'.Matches sha))
      (completePartMatches ⟨sha, expectedLen, policy⟩) g := by
  unfold completePartMatches
  cases sha with
  | none => exact ⟨g.digest, rfl, fun _ _ h => by cases h⟩
  | some expected =>
    apply Follows.bind (checked_sha256File hg)
    rintro actual g' rfl
    refine ⟨some actual, rfl, ?_⟩
    intro hproves e he
    cases he
    exact ⟨actual, rfl, hproves⟩

theorem checked_removePart {α : Type} {post : α → DownloadNotes → Prop} {p : DownloadProgram α}
    (hg : g.Holding expectedLen)
    (h : DownloadChecked host sha expectedLen post p (measuredNotes expectedLen 0 none)) :
    DownloadChecked host sha expectedLen post (DownloadCmd.removePart.issue.bind fun _ => p) g := by
  refine ⟨hg.1, fun x s r _ => ?_⟩
  cases r with
  | error e => exact hg
  | ok a =>
    have hnote : (downloadMachine host).note g ⟨.removePart, x, s, .ok a⟩ =
        measuredNotes expectedLen 0 none := by
      obtain ⟨hholds, hlen⟩ := hg
      show (⟨g.holds, g.expectedLen, 0, none, none, none, [], none⟩ : DownloadNotes) = _
      rw [hholds, hlen]
      rfl
    rw [hnote]
    exact h

end Discipline

section Attempts

variable {host : DownloadHost} {sha : Option Str} {expectedLen : Option Nat}
variable {policy : DownloadPolicy} {g : DownloadNotes}

theorem checked_space {required : Nat → Prop} [DecidablePred required]
    (message : Nat → LensError) (hg : g.Holding expectedLen) :
    DownloadChecked host sha expectedLen (fun _ g' => g' = g) (do
      match ← DownloadCmd.availableSpace.issue with
      | none => return ()
      | some available =>
        if required available then .fail (.fatal (message available)) else return ()) g := by
  apply Follows.bind (checked_plain (c := .availableSpace) trivial hg)
  rintro available g' rfl
  cases available with
  | none => exact rfl
  | some available =>
    dsimp only
    split
    · exact hg
    · exact rfl

theorem checked_preflightSpace (partLen : Nat) (hg : g.Holding expectedLen) :
    DownloadChecked host sha expectedLen (fun _ g' => g' = g)
      (preflightSpace ⟨sha, expectedLen, policy⟩ partLen) g := by
  unfold preflightSpace
  cases expectedLen with
  | none => exact rfl
  | some expected =>
    exact checked_space _ hg

theorem checked_midStreamSpace (total : Option Nat) (received : Nat)
    (hg : g.Holding expectedLen) : DownloadChecked host sha expectedLen (fun _ g' => g' = g)
      (midStreamSpace ⟨sha, expectedLen, policy⟩ total received) g :=
  checked_space _ hg

theorem checked_nextChunk (hg : g.Holding expectedLen) :
    DownloadChecked host sha expectedLen (fun _ g' => g' = g) nextChunk g :=
  checked_mapFault (checked_plain (c := .nextChunk) trivial hg)

theorem holding_receiving (partLen offset : Nat) (r : Response) (written : Bytes)
    (digest : Option Str) :
    (receivingNotes expectedLen partLen r offset written digest).Holding expectedLen := ⟨rfl, rfl⟩

variable {partLen offset : Nat} {r : Response}

theorem checked_write {written chunk : Bytes} {rest : Bytes} {needed : Option Nat}
    {digest : Option Str} (hr : r.StartsAt offset) (hbody : written ++ chunk ++ rest = r.body) :
    DownloadChecked host sha expectedLen
      (fun _ g => g = receivingNotes expectedLen partLen r offset (written ++ chunk) none)
      (mapFault (mapWriteError needed) (DownloadCmd.write chunk).issue)
      (receivingNotes expectedLen partLen r offset written digest) := by
  apply checked_mapFault
  refine Follows.perform ⟨rfl, r, offset, rfl, rfl, hr, ⟨rest, hbody⟩⟩ ?_ ?_
  · intro x s a _
    rfl
  · intro x s e _
    exact ⟨rfl, rfl⟩

/-- The loop over the chunks: what was written and what is to come make up the body. -/
theorem checked_streamBody (total : Option Nat) (hr : r.StartsAt offset) (chunks : List Bytes)
    (received since : Nat) {written : Bytes} {digest : Option Str}
    (hbody : written ++ chunks.flatten = r.body) :
    DownloadChecked host sha expectedLen
      (fun _ g => ∃ digest, g = receivingNotes expectedLen partLen r offset r.body digest)
      (streamBody ⟨sha, expectedLen, policy⟩ total chunks received since)
      (receivingNotes expectedLen partLen r offset written digest) := by
  induction chunks generalizing received since written digest with
  | nil =>
    apply Follows.bind (checked_nextChunk (holding_receiving _ _ _ _ _))
    rintro _ g rfl
    rw [List.flatten_nil, List.append_nil] at hbody
    exact ⟨digest, by rw [hbody]⟩
  | cons chunk chunks ih =>
    have hbody' : written ++ chunk ++ chunks.flatten = r.body := by
      rw [List.append_assoc]
      exact hbody
    apply Follows.bind (checked_nextChunk (holding_receiving _ _ _ _ _))
    rintro _ g rfl
    apply Follows.bind (checked_write hr hbody')
    rintro _ g rfl
    dsimp only
    split
    · apply Follows.bind (checked_midStreamSpace _ _ (holding_receiving _ _ _ _ _))
      rintro _ g rfl
      exact ih _ _ hbody'
    · exact ih _ _ hbody'

theorem whole_received {g : DownloadNotes} (hr : r.StartsAt offset) (hc : r.complete = true)
    {digest : Option Str} (hg : g = receivingNotes expectedLen partLen r offset r.body digest) :
    g.Whole := by
  subst hg
  exact .received r offset rfl rfl hr rfl hc

theorem checked_finishBody (total : Option Nat) (received : Nat) (hr : r.StartsAt offset)
    (hc : r.complete = true) {digest : Option Str} :
    DownloadChecked host sha expectedLen (fun _ => DownloadNotes.Holding expectedLen)
      (finishBody ⟨sha, expectedLen, policy⟩ partLen total received)
      (receivingNotes expectedLen partLen r offset r.body digest) := by
  apply Follows.bind (checked_mapFault (checked_plain (c := .flush) trivial
    (holding_receiving _ _ _ _ _)))
  rintro _ g rfl
  apply Follows.bind (checked_mapFault (checked_plain (c := .syncFile) trivial
    (holding_receiving _ _ _ _ _)))
  rintro _ g rfl
  cases sha with
  | none =>
    exact checked_finalize (holding_receiving _ _ _ _ _) (fun _ h => by cases h)
      (whole_received hr hc rfl)
  | some expected =>
    apply Follows.bind (checked_sha256File (holding_receiving _ _ _ _ _))
    rintro actual g rfl
    dsimp only
    split
    · rename_i heq
      refine checked_finalize (holding_receiving partLen offset r r.body (some actual)) ?_
        (whole_received hr hc rfl)
      intro e he
      cases he
      exact ⟨actual, rfl, heq⟩
    · exact checked_removePart (holding_receiving partLen offset r r.body (some actual)) ⟨rfl, rfl⟩

theorem checked_receiveBody (total : Option Nat) (received : Nat) (hr : r.StartsAt offset) :
    DownloadChecked host sha expectedLen (fun _ => DownloadNotes.Holding expectedLen)
      (receiveBody ⟨sha, expectedLen, policy⟩ partLen received total r)
      (receivingNotes expectedLen partLen r offset [] none) := by
  apply Follows.bind (checked_streamBody total hr r.chunks received 0 (List.nil_append _))
  rintro received' g ⟨digest, rfl⟩
  split
  · rename_i hc
    exact checked_finishBody total received' hr hc
  · exact holding_receiving _ _ _ _ _

theorem checked_hashProvesComplete :
    DownloadChecked host sha expectedLen
      (fun proves g => g.Holding expectedLen ∧ (proves = true →
        ∃ digest, g = askedNotes expectedLen partLen r digest ∧ g.Matches sha))
      (hashProvesComplete ⟨sha, expectedLen, policy⟩) (askedNotes expectedLen partLen r none) := by
  have hasked : ∀ digest, (askedNotes expectedLen partLen r digest).Holding expectedLen :=
    fun _ => ⟨rfl, rfl⟩
  unfold hashProvesComplete
  cases sha with
  | none => exact ⟨hasked none, fun h => by cases h⟩
  | some expected =>
    apply Follows.handle
    · apply (checked_completePartMatches (hasked none)).mono
      · rintro proves g ⟨digest, rfl, hm⟩
        exact ⟨hasked digest, fun h => ⟨digest, rfl, hm h⟩⟩
      · exact fun _ _ h => h
    · intro e g hg
      cases e with
      | fault f => exact hg
      | retryable | fatal => exact ⟨hg, fun h => by cases h⟩

theorem checked_rangeNotSatisfiable (hstatus : r.status = RANGE_NOT_SATISFIABLE) :
    DownloadChecked host sha expectedLen (fun _ => DownloadNotes.Holding expectedLen)
      (rangeNotSatisfiable ⟨sha, expectedLen, policy⟩)
      (askedNotes expectedLen partLen r none) := by
  apply Follows.bind checked_hashProvesComplete
  intro proves g hg
  cases proves with
  | true =>
    obtain ⟨digest, rfl, hm⟩ := hg.2 rfl
    exact checked_syncAndFinalize hg.1 hm (.rejected r rfl rfl hstatus)
  | false => exact checked_removePart hg.1 ⟨rfl, rfl⟩

theorem checked_handleResponse : DownloadChecked host sha expectedLen
    (fun _ => DownloadNotes.Holding expectedLen)
    (handleResponse ⟨sha, expectedLen, policy⟩ partLen r)
    (askedNotes expectedLen partLen r none) := by
  have hasked : (askedNotes expectedLen partLen r none).Holding expectedLen := ⟨rfl, rfl⟩
  unfold handleResponse
  split
  · rename_i hresumed
    split
    · rename_i hrange
      obtain ⟨⟨start, total⟩, hcr, hstart⟩ := (Option.any_eq_true _ _).mp hrange
      obtain rfl : start = partLen := by simpa using hstart
      have hr : r.StartsAt start := .inl ⟨hresumed, total, hcr⟩
      apply Follows.bind (Q := fun _ g => g = receivingNotes expectedLen start r start [] none)
      · apply checked_mapFault
        refine Follows.perform ⟨rfl, rfl, r, rfl, hresumed, hr⟩ ?_ ?_
        · intro x s a _
          rfl
        · intro x s e _
          exact hasked
      · rintro _ g rfl
        exact checked_receiveBody _ _ hr
    · exact checked_removePart hasked ⟨rfl, rfl⟩
  · rename_i hresumed
    split
    · rename_i hstatus
      exact checked_rangeNotSatisfiable hstatus
    · rename_i hrejected
      split
      · rename_i hsuccess
        have hr : r.StartsAt 0 := .inr ⟨hresumed, hrejected, hsuccess, rfl⟩
        apply Follows.bind (Q := fun _ g => g = receivingNotes expectedLen partLen r 0 [] none)
        · apply checked_mapFault
          refine Follows.perform ⟨rfl, r, rfl, hresumed, hr⟩ ?_ ?_
          · intro x s a _
            rfl
          · intro x s e _
            exact hasked
        · rintro _ g rfl
          exact checked_receiveBody _ _ hr
      · split
        · exact hasked
        · exact hasked

theorem checked_fetch (partLen : Nat) : DownloadChecked host sha expectedLen
    (fun _ => DownloadNotes.Holding expectedLen) (fetch ⟨sha, expectedLen, policy⟩ partLen)
    (measuredNotes expectedLen partLen none) := by
  have hmeasured : (measuredNotes expectedLen partLen none).Holding expectedLen := ⟨rfl, rfl⟩
  apply Follows.bind (checked_preflightSpace partLen hmeasured)
  rintro _ g rfl
  apply Follows.bind (Q := fun r g => g = askedNotes expectedLen partLen r none)
  · apply checked_mapFault
    refine Follows.perform ⟨rfl, rfl, rfl⟩ ?_ ?_
    · intro x s r _
      rfl
    · intro x s e _
      exact hmeasured
  · rintro r g rfl
    exact checked_handleResponse

theorem checked_partLen (hg : g.Holding expectedLen) :
    DownloadChecked host sha expectedLen
      (fun partLen g => g = measuredNotes expectedLen partLen none)
      DownloadCmd.partLen.issue g := by
  refine Follows.perform hg.1 ?_ ?_
  · intro x s partLen _
    obtain ⟨hholds, hlen⟩ := hg
    show (⟨g.holds, g.expectedLen, partLen, none, none, none, [], none⟩ : DownloadNotes) = _
    rw [hholds, hlen]
    rfl
  · intro x s e _
    exact hg

/-- A partial file of the length of the artifact is published after its digest was compared. -/
theorem checked_downloadAttempt (hpos : ∀ n ∈ expectedLen, 0 < n) (hg : g.Holding expectedLen) :
    DownloadChecked host sha expectedLen (fun _ => DownloadNotes.Holding expectedLen)
      (downloadAttempt ⟨sha, expectedLen, policy⟩) g := by
  apply Follows.bind (checked_plain (c := .isCancelled) trivial hg)
  rintro isCancelled g' rfl
  cases isCancelled with
  | true => exact hg
  | false =>
    apply Follows.bind (checked_partLen hg)
    rintro partLen g rfl
    cases hlen : expectedLen with
    | none => exact checked_fetch partLen
    | some expected =>
      have hmeasured : (measuredNotes (some expected) partLen none).Holding (some expected) :=
        ⟨rfl, rfl⟩
      dsimp only
      split
      · exact checked_removePart hmeasured (checked_fetch 0)
      · split
        · rename_i heq
          apply Follows.bind (checked_completePartMatches hmeasured)
          rintro proves g ⟨digest, rfl, hm⟩
          cases proves with
          | true =>
            refine checked_syncAndFinalize ⟨rfl, rfl⟩ (hm rfl) (.measured rfl ?_ ?_)
            · exact heq ▸ hpos expected hlen
            · exact congrArg some heq.symm
          | false => exact checked_removePart ⟨rfl, rfl⟩ (checked_fetch 0)
        · exact checked_fetch partLen

theorem checked_attempts (hpos : ∀ n ∈ expectedLen, 0 < n) (left : Nat)
    (hg : g.Holding expectedLen) :
    DownloadChecked host sha expectedLen (fun _ => DownloadNotes.Holding expectedLen)
      (attempts ⟨sha, expectedLen, policy⟩ left) g := by
  induction left generalizing g with
  | zero =>
    apply Follows.handle (checked_downloadAttempt hpos hg)
    intro e g hg
    cases e with
    | fault | retryable | fatal => exact hg
  | succ left ih =>
    apply Follows.handle (checked_downloadAttempt hpos hg)
    intro e g hg
    cases e with
    | fault | fatal => exact hg
    | retryable err =>
      apply Follows.bind (checked_mapFault (checked_plain (c := .sleep) trivial hg))
      rintro _ g' rfl
      exact ih hg

/-- The commands of a download that does not hold the lock. -/
def DownloadCmd.Outside : DownloadCmd → Prop
  | .buildClient | .destLen | .createDirAll => True
  | _ => False

theorem checked_outside {c : DownloadCmd} (hc : c.Outside) :
    Follows (downloadMachine host) (downloadDiscipline sha) (fun _ g' => g' = g)
      (fun _ _ => True) c.issue g := by
  cases c with
  | buildClient | destLen | createDirAll =>
    exact Follows.perform trivial (fun _ _ _ _ => rfl) fun _ _ _ _ => trivial
  | _ => exact hc.elim

theorem checked_outside_mapFault {c : DownloadCmd} (hc : c.Outside) (f : Fault → Failure) :
    Follows (downloadMachine host) (downloadDiscipline sha) (fun _ g' => g' = g)
      (fun _ _ => True) (mapFault f c.issue) g := by
  apply Follows.handle (checked_outside hc)
  intro e g _
  split <;> trivial

/-- What is known after the probe for the length. -/
def probedNotes (expectedLen : Option Nat) : DownloadNotes := { DownloadNotes.start with expectedLen }

theorem checked_head : Follows (downloadMachine host) (downloadDiscipline sha)
    (fun length g => g = probedNotes (length.filter (0 < ·))) (fun _ _ => True)
    DownloadCmd.head.issue .start :=
  Follows.perform trivial (fun _ _ _ _ => rfl) fun _ _ _ _ => trivial

theorem checked_skip_outside (e : Option Nat) :
    Follows (downloadMachine host) (downloadDiscipline sha) (fun _ g' => g' = g)
      (fun _ _ => True) (completedSkip e) g := by
  apply Follows.bind (checked_outside (c := .destLen) trivial)
  rintro onDisk g' rfl
  split <;> exact rfl

theorem checked_lock : Follows (downloadMachine host) (downloadDiscipline sha)
    (fun _ g => g = measuredNotes expectedLen 0 none) (fun _ _ => True)
    DownloadCmd.lock.issue (probedNotes expectedLen) :=
  Follows.perform rfl (fun _ _ _ _ => rfl) fun _ _ _ _ => trivial

theorem checked_unlock (hg : g.Holding expectedLen) :
    Follows (downloadMachine host) (downloadDiscipline sha) (fun _ _ => True) (fun _ _ => True)
      DownloadCmd.unlock.issue g :=
  Follows.perform hg.1 (fun _ _ _ _ => trivial) fun _ _ _ _ => trivial

/-- Under the lock the attempts are checked, outside of it nothing is touched. -/
theorem checked_downloadVerified (policy : DownloadPolicy) :
    Follows (downloadMachine host) (downloadDiscipline sha) (fun _ _ => True) (fun _ _ => True)
      (downloadVerified sha policy) .start := by
  apply Follows.bind (checked_outside_mapFault (c := .buildClient) trivial _)
  rintro _ g rfl
  apply Follows.bind checked_head
  rintro length g rfl
  apply Follows.bind (checked_skip_outside _)
  rintro skip g rfl
  cases skip with
  | true => trivial
  | false =>
    apply Follows.bind (checked_outside_mapFault (c := .createDirAll) trivial _)
    rintro _ g rfl
    apply Follows.bind checked_lock
    rintro _ g rfl
    have hlocked : (measuredNotes (length.filter (0 < ·)) 0 none).Holding
      (length.filter (0 < ·)) := ⟨rfl, rfl⟩
    have hheld : DownloadChecked host sha (length.filter (0 < ·))
        (fun _ => DownloadNotes.Holding (length.filter (0 < ·))) (do
          if ← completedSkip (length.filter (0 < ·)) then return ()
          else attempts ⟨sha, length.filter (0 < ·), policy⟩ (policy.maxAttempts - 1))
        (measuredNotes (length.filter (0 < ·)) 0 none) := by
      apply Follows.bind (checked_completedSkip _ hlocked)
      rintro skip g rfl
      cases skip with
      | true => exact hlocked
      | false =>
        refine checked_attempts ?_ _ hlocked
        intro n hn
        exact of_decide_eq_true (Option.mem_filter_iff.mp hn).2
    apply Follows.ensuring hheld
    · intro _ g hg
      exact checked_unlock hg
    · intro _ g hg
      exact checked_unlock hg

end Attempts

end LensLM.Download
