import LensLM.Error
import LensLM.Lib.ByteText
import LensLM.Lib.Programs

/-!
# Downloads of model files

A download streams an artifact into a partial file beside its destination and renames it when it is
complete. Several attempts resume from what the partial file holds, and a lock keeps the downloads
to one destination apart.
-/

namespace LensLM.Download

open ByteText Programs Program

set_option autoImplicit false

abbrev Bytes := List UInt8

section Commands

/-- What a server answers to a GET: a status, two headers that are read, and a body in chunks that
comes to its end or breaks off. -/
structure Response where
  status : Nat
  contentRange : Option (Nat × Nat)
  contentLength : Option Nat
  chunks : List Bytes
  complete : Bool

def Response.body (r : Response) : Bytes := r.chunks.flatten

def PARTIAL_CONTENT : Nat := 206

def RANGE_NOT_SATISFIABLE : Nat := 416

def REQUEST_TIMEOUT : Nat := 408

def TOO_MANY_REQUESTS : Nat := 429

def Response.isSuccess (r : Response) : Bool := 200 ≤ r.status && r.status < 300

def Response.isClientError (r : Response) : Bool := 400 ≤ r.status && r.status < 500

/-- How a command ends without a result: its future is dropped by a cancellation, a file operation
fails, or the connection does. -/
inductive Fault where
  | dropped
  | io (storageFull : Bool)
  | network (text : String)
  deriving DecidableEq

/-- `AttemptFailure`, and the fault of a command before it is one. -/
inductive Failure where
  | fault (f : Fault)
  | retryable (e : LensError)
  | fatal (e : LensError)

inductive DownloadCmd where
  | buildClient
  | head
  | destLen
  | createDirAll
  | lock
  | unlock
  | isCancelled
  | partLen
  | removePart
  | hashPart
  | syncPart
  | rename
  | availableSpace
  | get (range : Option Nat)
  | openAppend
  | create
  | nextChunk
  | write (chunk : Bytes)
  | flush
  | syncFile
  | sleep

@[reducible] def DownloadCmd.Reply : DownloadCmd → Type
  | .head | .destLen | .availableSpace => Option Nat
  | .isCancelled => Bool
  | .partLen => Nat
  | .hashPart => Str
  | .get _ => Response
  | _ => Unit

abbrev DownloadProgram := Program DownloadCmd DownloadCmd.Reply Failure

def DownloadCmd.issue (c : DownloadCmd) : DownloadProgram c.Reply := perform c

end Commands

section Attempt

structure DownloadHost where
  sha256Hex : Bytes → Str

/-- A quotient in tenths, to the nearest, and between two of them to the even one. -/
def roundTenths (n d : Nat) : Nat :=
  let q := 10 * n / d
  let r := 10 * n % d
  if 2 * r < d ∨ (2 * r = d ∧ q % 2 = 0) then q else q + 1

/-- Goes to the next unit while there is one and its size is reached. -/
def humanBytesIn (bytes size : Nat) (unit : String) : List String → String
  | [] => s!"{roundTenths bytes size / 10}.{roundTenths bytes size % 10} {unit}"
  | larger :: units =>
    if 1024 * size ≤ bytes then humanBytesIn bytes (1024 * size) larger units
    else if size = 1 then s!"{bytes} {unit}"
    else s!"{roundTenths bytes size / 10}.{roundTenths bytes size % 10} {unit}"

def humanBytes (bytes : Nat) : String := humanBytesIn bytes 1 "B" ["KB", "MB", "GB", "TB"]

structure DownloadPolicy where
  headroom : Nat
  checkInterval : Nat
  midStreamFloor : Nat
  maxAttempts : Nat

structure AttemptCtx where
  expectedSha256 : Option Str
  expectedLen : Option Nat
  policy : DownloadPolicy

def eqIgnoreAsciiCase (a b : Str) : Bool := a.map Char.toLower == b.map Char.toLower

def cancelled : LensError := .cancelled "download cancelled"

/-- A drop stays one; every other failure is told anew. -/
def mapFault {α : Type} (f : Fault → Failure) (p : DownloadProgram α) : DownloadProgram α :=
  p.handle fun e =>
    match e with
    | .fault .dropped => .fail (.fault .dropped)
    | .fault fault => .fail (f fault)
    | e => .fail e

def mapWriteError (stillNeeded : Option Nat) : Fault → Failure
  | .io true => .fatal (.insufficientSpace (match stillNeeded with
    | some bytes => s!"the disk filled up while downloading: free about " ++
        s!"{humanBytes bytes} and try again"
    | none => "the disk filled up while downloading; free some space and try again"))
  | _ => .retryable (.io ("the download could not be written to disk; check the model folder and " ++
      "try again"))

def completedSkip (expectedLen : Option Nat) : DownloadProgram Bool := do
  match ← DownloadCmd.destLen.issue with
  | none => return false
  | some onDisk => return decide (0 < onDisk ∧ expectedLen = some onDisk)

def finalize : DownloadProgram Unit :=
  mapFault (fun _ => .retryable (.io "the downloaded file could not be moved into place"))
    DownloadCmd.rename.issue

def syncAndFinalize : DownloadProgram Unit := do
  mapFault (mapWriteError none) DownloadCmd.syncPart.issue
  finalize

def sha256File : DownloadProgram Str :=
  mapFault (fun _ => .retryable (.io ("the downloaded file could not be read back for " ++
    "verification"))) DownloadCmd.hashPart.issue

/-- An absent digest has nothing to check, so it counts as a match. -/
def completePartMatches (ctx : AttemptCtx) : DownloadProgram Bool :=
  match ctx.expectedSha256 with
  | none => pure true
  | some expected => do
    let actual ← sha256File
    return eqIgnoreAsciiCase actual expected

def preflightSpace (ctx : AttemptCtx) (partLen : Nat) : DownloadProgram Unit :=
  match ctx.expectedLen with
  | none => pure ()
  | some expected => do
    match ← DownloadCmd.availableSpace.issue with
    | none => return ()
    | some available =>
      let required := (expected - partLen) + ctx.policy.headroom
      if available < required then
        .fail (.fatal (.insufficientSpace (s!"this download needs {humanBytes required} of " ++
          s!"free space but only {humanBytes available} are available")))
      else return ()

def midStreamSpace (ctx : AttemptCtx) (total : Option Nat) (received : Nat) :
    DownloadProgram Unit := do
  match ← DownloadCmd.availableSpace.issue with
  | none => return ()
  | some available =>
    let required := match total with
      | some total => if received ≤ total then total - received else ctx.policy.midStreamFloor
      | none => ctx.policy.midStreamFloor
    if available < required then
      .fail (.fatal (.insufficientSpace (s!"the disk ran low while downloading: " ++
        s!"{humanBytes required} still needed but only {humanBytes available} are " ++
        "available")))
    else return ()

/-- The next chunk, unless the download is cancelled while it waits. -/
def nextChunk : DownloadProgram Unit :=
  mapFault (fun _ => .fatal cancelled) DownloadCmd.nextChunk.issue

def stillNeeded (total : Option Nat) (written : Nat) : Option Nat := total.map (· - written)

def streamBody (ctx : AttemptCtx) (total : Option Nat) :
    List Bytes → Nat → Nat → DownloadProgram Nat
  | [], received, _ => do
    nextChunk
    return received
  | chunk :: chunks, received, sinceSpaceCheck => do
    nextChunk
    mapFault (mapWriteError (stillNeeded total received)) (DownloadCmd.write chunk).issue
    let received := received + chunk.length
    let sinceSpaceCheck := sinceSpaceCheck + chunk.length
    if ctx.policy.checkInterval ≤ sinceSpaceCheck then
      midStreamSpace ctx total received
      streamBody ctx total chunks received 0
    else streamBody ctx total chunks received sinceSpaceCheck

/-- What follows the last chunk: the file is made durable, checked and published. -/
def finishBody (ctx : AttemptCtx) (partLen : Nat) (total : Option Nat) (received : Nat) :
    DownloadProgram Unit := do
  mapFault (mapWriteError (stillNeeded total received)) DownloadCmd.flush.issue
  mapFault (mapWriteError (stillNeeded total received)) DownloadCmd.syncFile.issue
  match ctx.expectedSha256 with
  | none => finalize
  | some expected =>
    let actual ← sha256File
    if eqIgnoreAsciiCase actual expected then finalize
    else
      DownloadCmd.removePart.issue
      let hint := if 0 < partLen then
        " the resumed partial file was discarded, so starting the download again is safe" else ""
      .fail (.fatal (.integrityCheckFailed (s!"expected sha256 {String.ofList expected}, got " ++
        s!"{String.ofList actual}.{hint}")))

def receiveBody (ctx : AttemptCtx) (partLen received : Nat) (total : Option Nat) (r : Response) :
    DownloadProgram Unit := do
  let received ← streamBody ctx total r.chunks received 0
  if r.complete then finishBody ctx partLen total received
  else .fail (.retryable (.network "download stream error"))

def hashProvesComplete (ctx : AttemptCtx) : DownloadProgram Bool :=
  match ctx.expectedSha256 with
  | none => pure false
  | some _ => (completePartMatches ctx).handle fun e =>
    match e with
    | .fault f => .fail (.fault f)
    | _ => pure false

/-- The digest proves that the partial file is complete, or it is discarded. -/
def rangeNotSatisfiable (ctx : AttemptCtx) : DownloadProgram Unit := do
  if ← hashProvesComplete ctx then syncAndFinalize
  else
    DownloadCmd.removePart.issue
    .fail (.retryable (.network ("the server rejected the resume range; the partial file was " ++
      "discarded")))

def handleResponse (ctx : AttemptCtx) (partLen : Nat) (r : Response) : DownloadProgram Unit :=
  if r.status = PARTIAL_CONTENT then
    if r.contentRange.any fun range => range.1 == partLen then do
      let total := ctx.expectedLen <|> r.contentRange.map Prod.snd
      mapFault (mapWriteError (ctx.expectedLen.map (· - partLen))) DownloadCmd.openAppend.issue
      receiveBody ctx partLen partLen total r
    else do
      DownloadCmd.removePart.issue
      .fail (.retryable (.network ("the server resumed from the wrong offset; the partial file " ++
        "was discarded")))
  else if r.status = RANGE_NOT_SATISFIABLE then rangeNotSatisfiable ctx
  else if r.isSuccess then do
    let total := r.contentLength <|> ctx.expectedLen
    mapFault (mapWriteError ctx.expectedLen) DownloadCmd.create.issue
    receiveBody ctx partLen 0 total r
  else if r.isClientError ∧ r.status ≠ REQUEST_TIMEOUT ∧ r.status ≠ TOO_MANY_REQUESTS then
    .fail (.fatal (.network s!"download failed with status {r.status}"))
  else .fail (.retryable (.network s!"download failed with status {r.status}"))

/-- Asks for what is missing, all of it where the partial file is empty. -/
def fetch (ctx : AttemptCtx) (partLen : Nat) : DownloadProgram Unit := do
  preflightSpace ctx partLen
  let range := if 0 < partLen then some partLen else none
  let r ← mapFault (fun fault => .retryable (.network (match fault with
    | .network text => s!"download request failed: {text}"
    | _ => "download request failed"))) (DownloadCmd.get range).issue
  handleResponse ctx partLen r

def downloadAttempt (ctx : AttemptCtx) : DownloadProgram Unit := do
  if ← DownloadCmd.isCancelled.issue then .fail (.fatal cancelled)
  else
    let partLen ← DownloadCmd.partLen.issue
    match ctx.expectedLen with
    | none => fetch ctx partLen
    | some expected =>
      if expected < partLen then
        DownloadCmd.removePart.issue
        fetch ctx 0
      else if partLen = expected then
        if ← completePartMatches ctx then syncAndFinalize
        else
          DownloadCmd.removePart.issue
          fetch ctx 0
      else fetch ctx partLen

/-- An attempt and as many more as are left while they fail in a way that invites another. -/
def attempts (ctx : AttemptCtx) : Nat → DownloadProgram Unit
  | 0 => (downloadAttempt ctx).handle fun e =>
    match e with
    | .retryable err => .fail (.fatal err)
    | e => .fail e
  | left + 1 => (downloadAttempt ctx).handle fun e =>
    match e with
    | .retryable _ => do
      mapFault (fun _ => .fatal cancelled) DownloadCmd.sleep.issue
      attempts ctx left
    | e => .fail e

def downloadVerified (expectedSha256 : Option Str) (policy : DownloadPolicy) :
    DownloadProgram Unit := do
  mapFault (fun _ => .fatal (.network "download client init failed")) DownloadCmd.buildClient.issue
  let expectedLen := (← DownloadCmd.head.issue).filter (0 < ·)
  if ← completedSkip expectedLen then return ()
  else
    mapFault (fun _ => .fatal (.io "the model folder could not be created"))
      DownloadCmd.createDirAll.issue
    DownloadCmd.lock.issue
    ensuring (do
      if ← completedSkip expectedLen then return ()
      else attempts ⟨expectedSha256, expectedLen, policy⟩ (policy.maxAttempts - 1))
      DownloadCmd.unlock.issue

end Attempt

section Machine

/-- The partial file, the destination and the lock of the partial file. -/
structure Disk where
  part : Option Bytes
  dest : Option Bytes
  locked : Bool

/-- A fault, a number that is asked for, whether a file can be looked at or removed, a response,
and how much of a chunk is written before a fault. -/
structure DownloadChoice where
  fault : Option Fault
  number : Option Nat
  works : Bool
  response : Response
  kept : Nat

/-- A command that fails with the chosen fault, and else changes the disk. -/
def answer {α : Type} (x : DownloadChoice) (s : Disk) (a : α) (s' : Disk) :
    Option (Except Failure α × Disk) :=
  match x.fault with
  | some f => some (.error (.fault f), s)
  | none => some (.ok a, s')

variable (host : DownloadHost)

def DownloadCmd.react : (c : DownloadCmd) → DownloadChoice → Disk →
    Option (Except Failure c.Reply × Disk)
  | .buildClient, x, s => answer x s () s
  | .head, x, s =>
    if x.fault = some .dropped then some (.error (.fault .dropped), s) else some (.ok x.number, s)
  | .destLen, x, s => some (.ok (if x.works then s.dest.map List.length else none), s)
  | .createDirAll, x, s => answer x s () s
  | .lock, x, s =>
    if x.fault = some .dropped then some (.error (.fault .dropped), s)
    else if s.locked then none
    else some (.ok (), { s with locked := true })
  | .unlock, _, s => some (.ok (), { s with locked := false })
  | .isCancelled, x, s => some (.ok x.works, s)
  | .partLen, x, s => some (.ok (if x.works then (s.part.map List.length).getD 0 else 0), s)
  | .removePart, x, s => some (.ok (), if x.works then { s with part := none } else s)
  | .hashPart, x, s =>
    match s.part with
    | none => some (.error (.fault (.io false)), s)
    | some b => answer x s (host.sha256Hex b) s
  | .syncPart, x, s => answer x s () s
  | .rename, x, s =>
    match s.part with
    | none => some (.error (.fault (.io false)), s)
    | some b => answer x s () { s with part := none, dest := some b }
  | .availableSpace, x, s => some (.ok x.number, s)
  | .get _, x, s => answer x s x.response s
  | .openAppend, x, s => answer x s () { s with part := some (s.part.getD []) }
  | .create, x, s => answer x s () { s with part := some [] }
  | .nextChunk, x, s => answer x s () s
  | .write chunk, x, s =>
    match x.fault with
    | some f => some (.error (.fault f), { s with part := s.part.map (· ++ chunk.take x.kept) })
    | none => some (.ok (), { s with part := s.part.map (· ++ chunk) })
  | .flush, x, s => answer x s () s
  | .syncFile, x, s => answer x s () s
  | .sleep, x, s => answer x s () s

/-- What a download knows: whether it holds the lock, the length of the artifact, that of the
partial file, its request and the response, from where that is written and how much of it was, and
the digest of the partial file as it is. -/
structure DownloadNotes where
  holds : Bool
  expectedLen : Option Nat
  measured : Nat
  range : Option Nat
  response : Option Response
  base : Option Nat
  written : Bytes
  digest : Option Str

def DownloadNotes.start : DownloadNotes := ⟨false, none, 0, none, none, none, [], none⟩

abbrev DownloadRecord := Record DownloadCmd DownloadCmd.Reply Failure DownloadChoice Disk

/-- What is known of the partial file is lost with every change to it but a write. -/
def DownloadNotes.note (g : DownloadNotes) : DownloadRecord → DownloadNotes
  | ⟨.head, _, _, .ok n⟩ => { g with expectedLen := n.filter (0 < ·) }
  | ⟨.lock, _, _, .ok _⟩ => { g with holds := true }
  | ⟨.unlock, _, _, .ok _⟩ => { g with holds := false }
  | ⟨.partLen, _, _, .ok n⟩ => ⟨g.holds, g.expectedLen, n, none, none, none, [], none⟩
  | ⟨.removePart, _, _, .ok _⟩ => ⟨g.holds, g.expectedLen, 0, none, none, none, [], none⟩
  | ⟨.rename, _, _, .ok _⟩ => ⟨g.holds, g.expectedLen, 0, none, none, none, [], none⟩
  | ⟨.hashPart, _, _, .ok d⟩ => { g with digest := some d }
  | ⟨.get range, _, _, .ok r⟩ => { g with range, response := some r, base := none }
  | ⟨.openAppend, _, _, .ok _⟩ =>
    { g with base := some g.measured, written := [], digest := none }
  | ⟨.create, _, _, .ok _⟩ => { g with base := some 0, written := [], digest := none }
  | ⟨.write chunk, _, _, .ok _⟩ => { g with written := g.written ++ chunk, digest := none }
  | ⟨.write _, _, _, .error _⟩ =>
    ⟨g.holds, g.expectedLen, 0, none, none, none, [], none⟩
  | _ => g

def downloadMachine : Machine DownloadCmd DownloadCmd.Reply Failure DownloadChoice Disk
    DownloadNotes where
  react := DownloadCmd.react host
  note := DownloadNotes.note

/-- Any number of downloads of one artifact, each with its digest and policy. -/
structure DownloadCall where
  expectedSha256 : Option Str
  policy : DownloadPolicy

abbrev downloadsStart {ι : Type} (calls : ι → DownloadCall) (part dest : Option Bytes) :
    Pool ι DownloadCmd DownloadCmd.Reply Failure Unit Disk DownloadNotes :=
  Pool.start ⟨part, dest, false⟩ .start fun i =>
    downloadVerified (calls i).expectedSha256 (calls i).policy

end Machine

section Honesty

/-- The body brings the artifact from an offset on, and comes to its end only after all of it. -/
def Response.Delivers (artifact : Bytes) (offset : Nat) (r : Response) : Prop :=
  r.body <+: artifact.drop offset ∧ (r.complete = true → r.body = artifact.drop offset)

/-- What an honest server answers to a request for the artifact from an offset on, or for all. -/
def Response.Honest (artifact : Bytes) (range : Option Nat) (r : Response) : Prop :=
  if r.status = PARTIAL_CONTENT then
    range ≠ none ∧ ∃ served ∈ r.contentRange, served.2 = artifact.length ∧
      r.Delivers artifact served.1
  else if r.status = RANGE_NOT_SATISFIABLE then ∃ start ∈ range, artifact.length ≤ start
  else r.isSuccess = true → r.contentLength.all (· == artifact.length) = true ∧
    r.Delivers artifact 0

/-- All responses are honest for the artifact. -/
def HonestServer {ι : Type} (artifact : Bytes) :
    Guard ι DownloadCmd DownloadChoice Disk DownloadNotes :=
  fun _ _ c x _ =>
    match c with
    | .head => ∀ n ∈ x.number, 0 < n → n = artifact.length
    | .get range => x.fault = none → x.response.Honest artifact range
    | _ => True

end Honesty

end LensLM.Download
