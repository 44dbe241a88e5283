import LensLM.QwenLines

/-!
# Isolated turns

While no turn is cancelled in the middle of a reply, the two pipes hold whole lines, apart from the
one at an end that is being written or read. The answers come in the order of the requests, so that a
turn meets the answers to the turns before it first, and deletes their files.
-/

namespace LensLM.QwenSidecar

open ByteText EventRuns LinePipe

set_option autoImplicit false

variable {B A : Type} {o : Outside B}

/-- What the pipes of a running child hold: the answers that were read and those that were not, the
lines that were written whole, and what was written of cancelled requests and of the current one. -/
structure Account (B A : Type) where
  seen : List (Answer A)
  pend : List (Answer A)
  lines : List (List B)
  scraps : List (List B)
  written : List B

def replyLine (o : Outside B) (p : Answer A) : List B := o.reply p.1 (p.2.map Wav.path)

def wavOf (p : Answer A) : Option (Wav A) := p.2.toOption

/-- The current turn is in the middle of its request, or nothing is written of one. -/
def Host.Writes (o : Outside B) (asked : List Request) (written : List B) : Host B → Prop
  | .writing id rest => ∃ q ∈ asked, q.id = id ∧ rest ≠ [] ∧
      written ++ rest = o.request q ++ [o.newline]
  | .idle | .reading _ _ => written = []
  | .dead => False

/-- The requests that were received or will be. -/
def heard (o : Outside B) (received : List Request) (lines : List (List B)) : List Request :=
  received ++ lines.filterMap o.readRequest

/-- No request that is written whole has this identifier or a later one. -/
def Sidecar.floor (s : Sidecar B A) : Nat :=
  match s.host with
  | .writing id _ => id
  | .idle | .reading _ _ | .dead => s.nextId

structure Flow (o : Outside B) (s : Sidecar B A) (acc : Account B A) : Prop where
  replies : s.replies = acc.seen ++ acc.pend
  output : s.host.line ++ s.stdout = framed o.newline (acc.pend.map (replyLine o))
  lineOpen : o.newline ∉ s.host.line
  input : s.stdin = framed o.newline acc.lines ++ (acc.scraps.flatten ++ acc.written)
  linesOpen : ∀ l ∈ acc.lines, o.newline ∉ l
  scraps : ∀ p ∈ acc.scraps, ∃ q, p <+: o.request q
  writes : s.host.Writes o s.asked acc.written
  files : s.wavs = acc.pend.filterMap wavOf
  paths : (s.wavs.map Wav.path).Nodup
  kind : ∀ w ∈ s.wavs, isValidTurnWav o w.path = true
  owners : ∀ p ∈ s.replies, ∀ w, p.2 = .ok w → w.owner = p.1
  short : ∀ p ∈ acc.pend, (replyLine o p).length < MAX_REPLY_BYTES
  inOrder : s.received.map Request.id = s.replies.map Prod.fst ++ s.waiting.map Request.id
  known : ∀ q ∈ heard o s.received acc.lines, q ∈ s.asked
  ordered : (heard o s.received acc.lines).Pairwise fun q q' => q.id < q'.id
  below : ∀ q ∈ heard o s.received acc.lines, q.id < s.floor
  askedOnce : (s.asked.map Request.id).Nodup
  askedBelow : ∀ q ∈ s.asked, q.id < s.nextId
  finished : ∀ p ∈ s.returned, ∃ r, (p.1, r) ∈ acc.seen ∧ p.2 = outcome r

variable {s : Sidecar B A} {acc : Account B A}

/-! ## What the account says -/

theorem eq_of_nodup_map {α β : Type} {f : α → β} {l : List α} (h : (l.map f).Nodup) {a b : α}
    (ha : a ∈ l) (hb : b ∈ l) (heq : f a = f b) : a = b :=
  List.inj_on_of_nodup_map h ha hb heq

theorem Flow.ids (h : Flow o s acc) : (s.received.map Request.id).Pairwise (· < ·) := by
  apply List.pairwise_map.mpr
  exact (List.pairwise_append.mp h.ordered).1

theorem Flow.replyIds (h : Flow o s acc) : (s.replies.map Prod.fst).Pairwise (· < ·) := by
  have hids := h.ids
  rw [h.inOrder] at hids
  exact (List.pairwise_append.mp hids).1

theorem Flow.isolated (h : Flow o s acc) : Isolated s := by
  intro p hp
  obtain ⟨r, hseen, hresult⟩ := h.finished p hp
  have hreplies := h.replyIds
  have hnodup : (s.replies.map Prod.fst).Nodup := hreplies.imp fun hlt => Nat.ne_of_lt hlt
  have hreply : (p.1, r) ∈ s.replies := by
    rw [h.replies]
    exact List.mem_append_left _ hseen
  refine ⟨⟨r, hreply, ?_, hresult⟩, ?_, ?_⟩
  · intro r' hr'
    have heq := eq_of_nodup_map hnodup hr' hreply rfl
    exact congrArg Prod.snd heq
  · have hid : p.1 ∈ s.received.map Request.id := by
      rw [h.inOrder]
      exact List.mem_append_left _ (List.mem_map_of_mem hreply)
    obtain ⟨q, hq, hqid⟩ := List.mem_map.mp hid
    have hasked := h.known q (List.mem_append_left _ hq)
    refine ⟨q, hasked, hqid, ?_, hq, ?_⟩
    · intro q' hq' hid'
      exact eq_of_nodup_map h.askedOnce hq' hasked (hid'.trans hqid.symm)
    · exact List.count_eq_one_of_mem (h.ids.imp fun hlt => Nat.ne_of_lt hlt) hid
  · intro w hw
    rw [h.files] at hw
    obtain ⟨p', hp', hwav⟩ := List.mem_filterMap.mp hw
    have hok : p'.2 = .ok w := by
      unfold wavOf at hwav
      cases hp2 : p'.2 with
      | error e => rw [hp2] at hwav; cases hwav
      | ok v => rw [hp2] at hwav; cases hwav; rfl
    have hmem : p' ∈ s.replies := by
      rw [h.replies]
      exact List.mem_append_right _ hp'
    rw [h.owners p' hmem w hok]
    rw [h.replies, List.map_append] at hreplies
    exact (List.pairwise_append.mp hreplies).2.2 _ (List.mem_map_of_mem hseen) _
      (List.mem_map_of_mem hp')

/-- A child that was killed has nothing left to do. -/
structure Killed (s : Sidecar B A) : Prop where
  host : s.host = .dead
  stdin : s.stdin = []
  waiting : s.waiting = []

def Sound (o : Outside B) (s : Sidecar B A) : Prop :=
  (∃ acc, Flow o s acc) ∨ (Killed s ∧ Isolated s)

theorem Sound.isolated (h : Sound o s) : Isolated s := by
  rcases h with ⟨acc, h⟩ | ⟨-, h⟩
  · exact h.isolated
  · exact h

/-- What is written of the current request, of which the rest is not written, is the beginning of it. -/
theorem Flow.begun (h : Flow o s acc) {id : Nat} {rest : List B} (hhost : s.host = .writing id rest) :
    ∃ q ∈ s.asked, q.id = id ∧ acc.written <+: o.request q := by
  have hwrites := h.writes
  rw [hhost] at hwrites
  obtain ⟨q, hq, hid, hne, heq⟩ := hwrites
  obtain ⟨front, b, rfl⟩ := (List.eq_nil_or_concat' rest).resolve_left hne
  rw [← List.append_assoc] at heq
  exact ⟨q, hq, hid, front, (List.append_inj' heq rfl).1⟩

/-- No line ends in what is left over. -/
theorem Flow.tail_open (hlaw : o.Lawful) (h : Flow o s acc) :
    o.newline ∉ acc.scraps.flatten ++ acc.written := by
  intro hmem
  rcases List.mem_append.mp hmem with hmem | hmem
  · obtain ⟨p, hp, hnl⟩ := List.mem_flatten.mp hmem
    obtain ⟨q, hq⟩ := h.scraps p hp
    exact hlaw.request_open q (hq.subset hnl)
  · have hwrites := h.writes
    cases hhost : s.host with
    | writing id rest =>
      obtain ⟨q, -, -, hbegun⟩ := h.begun hhost
      exact hlaw.request_open q (hbegun.subset hmem)
    | idle =>
      rw [hhost] at hwrites
      rw [show acc.written = [] from hwrites] at hmem
      cases hmem
    | reading id line =>
      rw [hhost] at hwrites
      rw [show acc.written = [] from hwrites] at hmem
      cases hmem
    | dead =>
      rw [hhost] at hwrites
      exact hwrites

/-! ## The steps -/

theorem heard_push (received : List Request) (lines : List (List B)) (l : List B) :
    heard o received (lines ++ [l]) = heard o received lines ++ (o.readRequest l).toList := by
  unfold heard
  rw [List.filterMap_append, ← List.append_assoc]
  cases hread : o.readRequest l with
  | none => rw [List.filterMap_cons_none hread]; rfl
  | some q => rw [List.filterMap_cons_some hread]; rfl

theorem flow_spawned : Flow o (Sidecar.spawned : Sidecar B A) ⟨[], [], [], [], []⟩ := by
  constructor <;> simp [Sidecar.spawned, heard, Host.line, Host.Writes]

theorem Flow.beginTurn (h : Flow o s acc) (text speaker instruct : Str) :
    Flow o (s.beginTurn o text speaker instruct) acc := by
  unfold Sidecar.beginTurn
  split
  · next hidle =>
    have hwrites := h.writes
    have hline := h.output
    have hfloor : s.floor = s.nextId := by
      unfold Sidecar.floor
      rw [hidle]
    rw [hidle] at hwrites hline
    refine { h with
      output := hline, lineOpen := List.not_mem_nil, writes := ?_, known := ?_, below := ?_
      askedOnce := ?_, askedBelow := ?_ }
    · refine ⟨_, List.mem_append_right _ List.mem_cons_self, rfl, by simp, ?_⟩
      rw [show acc.written = [] from hwrites]
      rfl
    · intro q hq
      exact List.mem_append_left _ (h.known q hq)
    · intro q hq
      have hlt := h.below q hq
      rw [hfloor] at hlt
      exact hlt
    · rw [List.map_append]
      apply Slots.nodup_push h.askedOnce
      intro hmem
      obtain ⟨q, hq, heq⟩ := List.mem_map.mp hmem
      exact Nat.ne_of_lt (h.askedBelow q hq) heq
    · apply Slots.forall_mem_push
      · exact fun q hq => Nat.lt_succ_of_lt (h.askedBelow q hq)
      · exact Nat.lt_succ_self _
  · exact h
  · exact h
  · exact h

/-- A line that is written whole is the request, unless something was left in front of it. -/
theorem readRequest_line (hlaw : o.Lawful) {scraps : List (List B)}
    (hscraps : ∀ p ∈ scraps, ∃ q, p <+: o.request q) (q : Request) :
    o.readRequest (scraps.flatten ++ o.request q) = none ∨
      o.readRequest (scraps.flatten ++ o.request q) = some q := by
  by_cases hnil : scraps.flatten = []
  · right
    rw [hnil, List.nil_append]
    exact hlaw.readRequest_request q
  · left
    exact hlaw.readRequest_glued scraps q hscraps hnil

/-- The last byte of a request ends its line. -/
theorem Flow.lastByte (hlaw : o.Lawful) (h : Flow o s acc) {id : Nat} {b : B}
    (hhost : s.host = .writing id [b]) :
    ∃ acc', Flow o { s with stdin := s.stdin ++ [b], host := .reading id [] } acc' := by
  have hopen := h.tail_open hlaw
  have hwrites := h.writes
  have hout := h.output
  have hbelow := h.below
  unfold Sidecar.floor at hbelow
  rw [hhost] at hwrites hout hbelow
  obtain ⟨q, hq, rfl, -, heq⟩ := hwrites
  obtain ⟨hwritten, hb⟩ := List.append_inj' heq rfl
  have hline : o.newline ∉ acc.scraps.flatten ++ o.request q := by
    rw [← hwritten]
    exact hopen
  have hlast : ∀ q' ∈ (o.readRequest (acc.scraps.flatten ++ o.request q)).toList, q' = q := by
    intro q' hq'
    rcases readRequest_line hlaw h.scraps q with hread | hread
    · rw [hread] at hq'
      cases hq'
    · rw [hread] at hq'
      exact List.mem_singleton.mp hq'
  refine ⟨{ acc with
    lines := acc.lines ++ [acc.scraps.flatten ++ o.request q], scraps := [], written := [] },
    { h with
      output := hout, lineOpen := List.not_mem_nil, input := ?_, linesOpen := ?_, scraps := nofun
      writes := rfl, known := ?_, ordered := ?_, below := ?_ }⟩
  · show s.stdin ++ [b] = _
    rw [h.input, framed_concat, hwritten, hb]
    simp
  · exact Slots.forall_mem_push h.linesOpen hline
  · rw [heard_push]
    intro q' hq'
    rcases List.mem_append.mp hq' with hq' | hq'
    · exact h.known q' hq'
    · rw [hlast q' hq']
      exact hq
  · rw [heard_push]
    apply List.pairwise_append.mpr
    refine ⟨h.ordered, ?_, ?_⟩
    · cases o.readRequest (acc.scraps.flatten ++ o.request q) with
      | none => exact List.Pairwise.nil
      | some q' => exact List.pairwise_singleton _ _
    · intro q₁ hq₁ q' hq'
      rw [hlast q' hq']
      exact hbelow q₁ hq₁
  · rw [heard_push]
    intro q' hq'
    rcases List.mem_append.mp hq' with hq' | hq'
    · exact Nat.lt_trans (hbelow q' hq') (h.askedBelow q hq)
    · rw [hlast q' hq']
      exact h.askedBelow q hq

theorem Flow.writeByte (hlaw : o.Lawful) (h : Flow o s acc) : ∃ acc', Flow o s.writeByte acc' := by
  unfold Sidecar.writeByte
  split
  · next id b rest hhost =>
    cases rest with
    | nil => exact h.lastByte hlaw hhost
    | cons c rest =>
      have hwrites := h.writes
      have hout := h.output
      have hbelow := h.below
      unfold Sidecar.floor at hbelow
      rw [hhost] at hwrites hout hbelow
      obtain ⟨q, hq, hid, -, heq⟩ := hwrites
      refine ⟨{ acc with written := acc.written ++ [b] }, { h with
        output := hout, lineOpen := List.not_mem_nil, input := ?_, writes := ?_, below := hbelow }⟩
      · show s.stdin ++ [b] = _
        rw [h.input]
        simp
      · refine ⟨q, hq, hid, List.cons_ne_nil _ _, ?_⟩
        rw [← heq]
        simp
  · exact ⟨acc, h⟩
  · exact ⟨acc, h⟩
  · exact ⟨acc, h⟩
  · exact ⟨acc, h⟩

theorem Flow.answer (h : Flow o s acc) (result : Except Str (Str × Option A)) :
    ∃ acc', Flow o (s.answer o result) acc' := by
  unfold Sidecar.answer
  split
  · exact ⟨acc, h⟩
  · next q waiting hwaiting =>
    split
    · next hcan =>
      have hinOrder := h.inOrder
      rw [hwaiting] at hinOrder
      refine ⟨{ acc with pend := acc.pend ++
        [(q.id, result.map fun file => ⟨file.1, file.2, q.id⟩)] }, { h with
        replies := ?_, output := ?_, files := ?_, paths := ?_, kind := ?_, owners := ?_, short := ?_
        inOrder := ?_ }⟩
      · show s.replies ++ _ = _
        rw [h.replies, List.append_assoc]
      · show s.host.line ++ (s.stdout ++ _) = _
        rw [← List.append_assoc, h.output, List.map_append, List.map_singleton, framed_concat]
        rfl
      · show s.wavs ++ _ = _
        rw [h.files, List.filterMap_append]
        rfl
      · show ((s.wavs ++ _).map Wav.path).Nodup
        cases result with
        | error e =>
          rw [show ((Except.error e : Except Str (Str × Option A)).map fun file =>
            (⟨file.1, file.2, q.id⟩ : Wav A)).toOption.toList = [] from rfl, List.append_nil]
          exact h.paths
        | ok file =>
          rw [List.map_append]
          exact Slots.nodup_push h.paths hcan.2.2
      · cases result with
        | error e =>
          intro w hw
          rcases List.mem_append.mp hw with hw | hw
          · exact h.kind w hw
          · cases hw
        | ok file => exact Slots.forall_mem_push h.kind hcan.2.1
      · apply Slots.forall_mem_push h.owners
        intro w hw
        cases result with
        | error e => cases hw
        | ok file => cases hw; rfl
      · apply Slots.forall_mem_push h.short
        cases result with
        | error e => exact hcan
        | ok file => exact hcan.1
      · show s.received.map Request.id = (s.replies ++ _).map Prod.fst ++ waiting.map Request.id
        rw [hinOrder]
        simp
    · exact ⟨acc, h⟩

theorem Flow.cancel (h : Flow o s acc) (hmid : s.host.line = []) : ∃ acc', Flow o s.cancel acc' := by
  have hout := h.output
  have hwrites := h.writes
  have hbelow := h.below
  unfold Sidecar.floor at hbelow
  unfold Sidecar.cancel
  cases hhost : s.host with
  | dead =>
    rw [hhost] at hwrites
    exact hwrites.elim
  | idle =>
    rw [hhost] at hout hwrites hbelow
    exact ⟨acc, { h with
      output := hout, lineOpen := List.not_mem_nil, writes := hwrites, below := hbelow }⟩
  | reading id line =>
    rw [hmid] at hout
    rw [hhost] at hwrites hbelow
    exact ⟨acc, { h with
      output := hout, lineOpen := List.not_mem_nil, writes := hwrites, below := hbelow }⟩
  | writing id rest =>
    obtain ⟨q, hq, hid, hbegun⟩ := h.begun hhost
    rw [hhost] at hout hbelow
    -- what was written of the request stays in the pipe
    refine ⟨{ acc with scraps := acc.scraps ++ [acc.written], written := [] }, { h with
      output := hout, lineOpen := List.not_mem_nil, input := ?_, scraps := ?_, writes := rfl
      below := ?_ }⟩
    · show s.stdin = _
      rw [h.input]
      simp
    · exact Slots.forall_mem_push h.scraps ⟨q, hbegun⟩
    · intro q' hq'
      have hlt : q.id < s.nextId := h.askedBelow q hq
      rw [hid] at hlt
      exact Nat.lt_trans (hbelow q' hq') hlt

/-! ### A line that is read to its end -/

theorem removeFile_first {w : Wav A} {ws : List (Wav A)} (h : ((w :: ws).map Wav.path).Nodup) :
    removeFile (w :: ws) w.path = ws := by
  obtain ⟨hnot, -⟩ := List.nodup_cons.mp h
  unfold removeFile
  rw [List.filter_cons_of_neg (by simp)]
  apply List.filter_eq_self.mpr
  intro v hv
  apply decide_eq_true
  intro heq
  apply hnot
  rw [← heq]
  exact List.mem_map_of_mem hv

theorem readWav_first (w : Wav A) (ws : List (Wav A)) :
    readWav (w :: ws) w.path = outcome (.ok w) := by
  unfold readWav
  rw [List.find?_cons_of_pos (by simp)]
  rfl

/-- The first answer of those that wait is read, and its file is gone. -/
theorem Flow.answered (h : Flow o s acc) {id : Nat} {line : List B}
    (hhost : s.host = .reading id line) {p : Answer A} {pend : List (Answer A)}
    (hpend : acc.pend = p :: pend) {host : Host B} (hquiet : host = .idle ∨ host = .reading id [])
    {returned : List (Nat × Except TurnError A)}
    (hreturned : ∀ q ∈ returned, ∃ r, (q.1, r) ∈ acc.seen ++ [p] ∧ q.2 = outcome r) :
    Flow o { s with
        host := host, stdout := framed o.newline (pend.map (replyLine o))
        wavs := pend.filterMap wavOf, returned := returned }
      { acc with seen := acc.seen ++ [p], pend := pend } := by
  have hwrites := h.writes
  have hbelow := h.below
  have hfiles := h.files
  have hsub : ∀ w ∈ pend.filterMap wavOf, w ∈ s.wavs := by
    intro w hw
    rw [hfiles, hpend]
    obtain ⟨p', hp', hwav⟩ := List.mem_filterMap.mp hw
    exact List.mem_filterMap.mpr ⟨p', List.mem_cons_of_mem _ hp', hwav⟩
  unfold Sidecar.floor at hbelow
  rw [hhost] at hwrites hbelow
  have hline : host.line = [] := by
    rcases hquiet with rfl | rfl <;> rfl
  refine { h with
    replies := ?_, output := ?_, lineOpen := ?_, writes := ?_, files := rfl, paths := ?_, kind := ?_
    short := ?_, below := ?_, finished := hreturned }
  · show s.replies = _
    rw [h.replies, hpend]
    simp
  · show host.line ++ _ = _
    rw [hline]
    rfl
  · show o.newline ∉ host.line
    rw [hline]
    exact List.not_mem_nil
  · rcases hquiet with rfl | rfl
    · exact hwrites
    · exact hwrites
  · have hpaths := h.paths
    rw [hfiles, hpend] at hpaths
    apply List.Nodup.sublist _ hpaths
    apply List.Sublist.map
    exact (List.sublist_cons_self p pend).filterMap wavOf
  · intro w hw
    exact h.kind w (hsub w hw)
  · intro p' hp'
    apply h.short
    rw [hpend]
    exact List.mem_cons_of_mem _ hp'
  · rcases hquiet with rfl | rfl
    · exact hbelow
    · exact hbelow

/-- The file of the first answer that waits, if there is one, is deleted by its path alone. -/
theorem Flow.first_file (h : Flow o s acc) {p : Answer A} {pend : List (Answer A)}
    (hpend : acc.pend = p :: pend) {w : Wav A} (hw : p.2 = .ok w) :
    isValidTurnWav o w.path = true ∧ readWav s.wavs w.path = outcome p.2 ∧
      removeFile s.wavs w.path = pend.filterMap wavOf := by
  have hwavs : s.wavs = w :: pend.filterMap wavOf := by
    rw [h.files, hpend]
    apply List.filterMap_cons_some
    unfold wavOf
    rw [hw]
    rfl
  have hpaths := h.paths
  have hkind := h.kind w (by rw [hwavs]; exact List.mem_cons_self)
  rw [hwavs] at hpaths ⊢
  refine ⟨hkind, ?_, removeFile_first hpaths⟩
  rw [hw]
  exact readWav_first w _

theorem Flow.no_file (h : Flow o s acc) {p : Answer A} {pend : List (Answer A)}
    (hpend : acc.pend = p :: pend) {e : Str} (he : p.2 = .error e) :
    s.wavs = pend.filterMap wavOf := by
  rw [h.files, hpend]
  apply List.filterMap_cons_none
  unfold wavOf
  rw [he]
  rfl

theorem settle_error (t : Sidecar B A) (id : Nat) (e : Str) :
    t.settle o id (synthReply id (.error e)) =
      { t with host := .idle, returned := t.returned ++ [(id, .error .failed)] } := rfl

theorem settle_ok (t : Sidecar B A) (id : Nat) {path : Str} (h : isValidTurnWav o path = true) :
    t.settle o id (synthReply id (.ok path)) =
      { t with
        host := .idle, returned := t.returned ++ [(id, readWav t.wavs path)]
        wavs := removeFile t.wavs path } := by
  simp [Sidecar.settle, synthReply, h]

theorem skipStale_none (t : Sidecar B A) (id : Nat) :
    t.skipStale o id none = { t with host := .reading id [] } := rfl

theorem skipStale_some (t : Sidecar B A) (id : Nat) {path : Str}
    (h : isValidTurnWav o path = true) :
    t.skipStale o id (some path) =
      { t with host := .reading id [], wavs := removeFile t.wavs path } := by
  simp [Sidecar.skipStale, h]

theorem drainLine_reply (hlaw : o.Lawful) (t : Sidecar B A) (id : Nat) (p : Answer A) :
    t.drainLine o id (replyLine o p ++ [o.newline]) =
      if p.1 = id then t.settle o id (synthReply id (p.2.map Wav.path))
      else t.skipStale o id (p.2.map Wav.path).toOption := by
  obtain ⟨owner, answer⟩ := p
  unfold Sidecar.drainLine replyLine
  rw [hlaw.readReply_reply]
  cases answer with
  | error e =>
    by_cases hid : owner = id
    · subst hid
      rfl
    · show (if owner = id then _ else _) = (if owner = id then _ else _)
      rw [if_neg hid, if_neg hid]
      rfl
  | ok w =>
    by_cases hid : owner = id
    · subst hid
      rfl
    · show (if owner = id then _ else _) = (if owner = id then _ else _)
      rw [if_neg hid, if_neg hid]
      rfl

/-- The answer to the turn itself ends it, the answer to an earlier turn does not. -/
theorem Flow.drainLine (hlaw : o.Lawful) (h : Flow o s acc) {id : Nat} {line rest : List B}
    (hhost : s.host = .reading id line) {p : Answer A} {pend : List (Answer A)}
    (hpend : acc.pend = p :: pend) (hrest : rest = framed o.newline (pend.map (replyLine o))) :
    ∃ acc', Flow o (({ s with stdout := rest } : Sidecar B A).drainLine o id
      (replyLine o p ++ [o.newline])) acc' := by
  have hold : ∀ q ∈ s.returned, ∃ r, (q.1, r) ∈ acc.seen ++ [p] ∧ q.2 = outcome r := by
    intro q hq
    obtain ⟨r, hr, heq⟩ := h.finished q hq
    exact ⟨r, List.mem_append_left _ hr, heq⟩
  have hnew : ∀ q ∈ s.returned ++ [(p.1, outcome p.2)],
      ∃ r, (q.1, r) ∈ acc.seen ++ [p] ∧ q.2 = outcome r := by
    apply Slots.forall_mem_push hold
    exact ⟨p.2, List.mem_append_right _ List.mem_cons_self, rfl⟩
  have hskipped := h.answered hhost hpend (.inr rfl) hold
  have hended := h.answered hhost hpend (.inl rfl) hnew
  rw [← hrest] at hskipped hended
  refine ⟨{ acc with seen := acc.seen ++ [p], pend := pend }, ?_⟩
  rw [drainLine_reply hlaw]
  cases hp : p.2 with
  | error e =>
    rw [← h.no_file hpend hp] at hskipped hended
    rw [hp] at hended
    by_cases hid : p.1 = id
    · rw [hid] at hended
      rw [if_pos hid]
      exact hended
    · rw [if_neg hid]
      exact hskipped
  | ok w =>
    obtain ⟨hvalid, hread, hremove⟩ := h.first_file hpend hp
    rw [← hremove] at hskipped hended
    rw [← hread] at hended
    by_cases hid : p.1 = id
    · rw [hid] at hended
      rw [if_pos hid]
      show Flow o (Sidecar.settle o _ id (synthReply id (.ok w.path))) _
      rw [settle_ok _ _ hvalid]
      exact hended
    · rw [if_neg hid]
      show Flow o (Sidecar.skipStale o _ id (some w.path)) _
      rw [skipStale_some _ _ hvalid]
      exact hskipped

variable [DecidableEq B]

/-- The first line that was written whole is taken. -/
theorem Flow.nextLine (hlaw : o.Lawful) (h : Flow o s acc) {line rest : List B}
    (htake : nextLine o.newline s.stdin = some (line, rest)) :
    ∃ lines, acc.lines = line :: lines ∧
      rest = framed o.newline lines ++ (acc.scraps.flatten ++ acc.written) := by
  have hopen := h.tail_open hlaw
  rw [h.input] at htake
  cases hlines : acc.lines with
  | nil =>
    rw [hlines, framed_nil, List.nil_append, nextLine_open hopen] at htake
    cases htake
  | cons l lines =>
    have hl := h.linesOpen l (by rw [hlines]; exact List.mem_cons_self)
    rw [hlines, framed_cons, List.append_assoc, List.cons_append, nextLine_line hl] at htake
    cases htake
    exact ⟨lines, rfl, rfl⟩

theorem Flow.takeLine (hlaw : o.Lawful) (h : Flow o s acc) : ∃ acc', Flow o (s.takeLine o) acc' := by
  unfold Sidecar.takeLine
  split
  · exact ⟨acc, h⟩
  · next line rest htake =>
    obtain ⟨lines, hlines, rfl⟩ := h.nextLine hlaw htake
    have hopen : ∀ l ∈ lines, o.newline ∉ l := by
      intro l hl
      apply h.linesOpen
      rw [hlines]
      exact List.mem_cons_of_mem _ hl
    have hknown := h.known
    have hordered := h.ordered
    have hbelow := h.below
    rw [hlines] at hknown hordered hbelow
    split
    · next hread =>
      have hheard : heard o s.received (line :: lines) = heard o s.received lines := by
        unfold heard
        rw [List.filterMap_cons_none hread]
      rw [hheard] at hknown hordered hbelow
      exact ⟨{ acc with lines }, { h with
        input := rfl, linesOpen := hopen, known := hknown, ordered := hordered, below := hbelow }⟩
    · next q hread =>
      have hheard : heard o s.received (line :: lines) = heard o (s.received ++ [q]) lines := by
        unfold heard
        rw [List.filterMap_cons_some hread, List.append_assoc]
        rfl
      rw [hheard] at hknown hordered hbelow
      refine ⟨{ acc with lines }, { h with
        input := rfl, linesOpen := hopen, known := hknown, ordered := hordered, below := hbelow
        inOrder := ?_ }⟩
      show (s.received ++ [q]).map Request.id = _ ++ (s.waiting ++ [q]).map Request.id
      rw [List.map_append, h.inOrder, List.map_append, List.append_assoc]

theorem readByte_newline {id : Nat} {line rest : List B} (hhost : s.host = .reading id line)
    (hstdout : s.stdout = o.newline :: rest) :
    s.readByte o = ({ s with stdout := rest } : Sidecar B A).drainLine o id
      (line ++ [o.newline]) := by
  simp [Sidecar.readByte, hhost, hstdout]

theorem readByte_within {id : Nat} {line rest : List B} {b : B}
    (hhost : s.host = .reading id line) (hstdout : s.stdout = b :: rest) (hb : b ≠ o.newline)
    (hshort : (line ++ [b]).length < MAX_REPLY_BYTES) :
    s.readByte o = { s with stdout := rest, host := .reading id (line ++ [b]) } := by
  unfold Sidecar.readByte
  rw [hhost, hstdout]
  simp only [if_neg hb, if_neg (Nat.not_le.mpr hshort)]

theorem Flow.readByte (hlaw : o.Lawful) (h : Flow o s acc) :
    ∃ acc', Flow o (s.readByte o) acc' := by
  cases hhost : s.host with
  | idle => exact ⟨acc, by simpa [Sidecar.readByte, hhost] using h⟩
  | writing id rest => exact ⟨acc, by simpa [Sidecar.readByte, hhost] using h⟩
  | dead => exact ⟨acc, by simpa [Sidecar.readByte, hhost] using h⟩
  | reading id line =>
    cases hstdout : s.stdout with
    | nil => exact ⟨acc, by simpa [Sidecar.readByte, hhost, hstdout] using h⟩
    | cons b rest =>
      have hout := h.output
      have hopen := h.lineOpen
      have hwrites := h.writes
      have hbelow := h.below
      unfold Sidecar.floor at hbelow
      rw [hhost] at hout hopen hwrites hbelow
      rw [hstdout] at hout
      have hlines : ∀ l ∈ acc.pend.map (replyLine o), o.newline ∉ l := by
        intro l hl
        obtain ⟨p, -, rfl⟩ := List.mem_map.mp hl
        exact hlaw.reply_open _ _
      obtain ⟨l, later, hmap, hcase⟩ := first_line hopen hlines hout
      obtain ⟨p, pend, hpend, rfl, rfl⟩ := List.map_eq_cons_iff.mp hmap
      rcases hcase with ⟨hb, hline, hrest⟩ | ⟨hb, hbegin⟩
      · rw [hb] at hstdout
        rw [readByte_newline hhost hstdout, show line = replyLine o p from hline]
        exact h.drainLine hlaw hhost hpend hrest
      · have hshort := h.short p (by rw [hpend]; exact List.mem_cons_self)
        rw [readByte_within hhost hstdout hb (Nat.lt_of_le_of_lt hbegin.length_le hshort)]
        refine ⟨acc, { h with
          output := ?_, lineOpen := ?_, writes := hwrites, below := hbelow }⟩
        · show line ++ [b] ++ rest = _
          rw [← hout, List.append_assoc]
          rfl
        · intro hmem
          exact hlaw.reply_open _ _ (hbegin.subset hmem)

/-! ## Whole runs -/

theorem Killed.step (h : Killed s) (e : Event A) : s.step o e = s := by
  obtain ⟨hhost, hstdin, hwaiting⟩ := h
  cases e with
  | turn text speaker instruct => simp [Sidecar.step, Sidecar.beginTurn, hhost]
  | write => simp [Sidecar.step, Sidecar.writeByte, hhost]
  | take => simp [Sidecar.step, Sidecar.takeLine, hstdin, LinePipe.nextLine]
  | answer result => simp [Sidecar.step, Sidecar.answer, hwaiting]
  | read => simp [Sidecar.step, Sidecar.readByte, hhost]
  | cancel => simp [Sidecar.step, Sidecar.cancel, hhost]
  | timeout => simp [Sidecar.step, Sidecar.timeout, hhost]

theorem Sound.step (hlaw : o.Lawful) (h : Sound o s) (e : Event A) (hmid : NotMidReply s e) :
    Sound o (s.step o e) := by
  rcases h with ⟨acc, h⟩ | ⟨hkilled, hisolated⟩
  · cases e with
    | turn text speaker instruct => exact .inl ⟨acc, h.beginTurn text speaker instruct⟩
    | write => exact .inl (h.writeByte hlaw)
    | take => exact .inl (h.takeLine hlaw)
    | answer result => exact .inl (h.answer result)
    | read => exact .inl (h.readByte hlaw)
    | cancel => exact .inl (h.cancel hmid)
    | timeout =>
      have hisolated := h.isolated
      show Sound o s.timeout
      unfold Sidecar.timeout
      split
      · refine .inr ⟨⟨rfl, rfl, rfl⟩, ?_⟩
        intro p hp
        obtain ⟨hown, hrequest, hfiles⟩ := hisolated p hp
        exact ⟨hown, hrequest, hfiles⟩
      · exact .inl ⟨acc, h⟩
      · exact .inl ⟨acc, h⟩
      · exact .inl ⟨acc, h⟩
  · rw [hkilled.step e]
    exact .inr ⟨hkilled, hisolated⟩

/-- In every run in which no turn is cancelled in the middle of a line that it reads, the turns are
isolated from those that were cancelled. -/
theorem turns_isolated (hlaw : o.Lawful) (events : List (Event A))
    (h : Along (Sidecar.step o) NotMidReply Sidecar.spawned events) :
    Throughout (Sidecar.step o) Isolated Sidecar.spawned events := by
  have hstart : Sound o (Sidecar.spawned : Sidecar B A) := .inl ⟨_, flow_spawned⟩
  have hsound := h.throughout (fun _ e hs hmid => hs.step hlaw e hmid) hstart
  exact hsound.mono fun _ hs => hs.isolated

/-! ## Two runs -/

/-- A turn that writes its request, which the sidecar takes. -/
def speak (text : Str) : List (Event Nat) :=
  .turn text "ryan".toList [] :: (List.replicate 90 .write ++ [.take])

def spoken (path : Str) (audio : Nat) : Event Nat := .answer (.ok (path, some audio))

/-- A turn is cancelled in its request, which spoils the next one, and one before its reply. -/
def staleReply : List (Event Nat) :=
  .turn "Zero".toList "ryan".toList [] :: (List.replicate 10 .write ++ .cancel ::
    (speak "One".toList ++ .cancel :: (speak "Two".toList ++ .cancel :: (speak "Three".toList ++
      spoken "/tmp/qwen-turn-a.wav".toList 22 :: spoken "/tmp/qwen-turn-b.wav".toList 33 ::
        List.replicate 120 .read))))

theorem staleReply_isolated :
    Throughout (Sidecar.step plainLines) Isolated (Sidecar.spawned : Sidecar Char Nat)
        staleReply ∧
      (after (Sidecar.step plainLines) Sidecar.spawned staleReply).returned.map Prod.fst = [4] :=
  ⟨turns_isolated plainLines_lawful staleReply (by decide +kernel), by decide +kernel⟩

/-- A turn is cancelled when it has read five bytes of its reply. -/
def lostReply : List (Event Nat) :=
  speak "One".toList ++ spoken "/tmp/qwen-turn-a.wav".toList 11 ::
    (List.replicate 5 .read ++ .cancel :: (speak "Two".toList ++
      spoken "/tmp/qwen-turn-b.wav".toList 22 :: List.replicate 120 .read))

/-- The next turn returns, and the file of the cancelled one is still there. -/
theorem lostReply_leaks : plainLines.Lawful ∧
    ¬Throughout (Sidecar.step plainLines) Isolated (Sidecar.spawned : Sidecar Char Nat)
      lostReply := by
  refine ⟨plainLines_lawful, ?_⟩
  intro h
  have hreturned : 2 ∈ (after (Sidecar.step plainLines) Sidecar.spawned lostReply).returned.map
      Prod.fst := by decide +kernel
  have hleft : 1 ∈ (after (Sidecar.step plainLines) Sidecar.spawned lostReply).wavs.map
      Wav.owner := by decide +kernel
  obtain ⟨p, hp, hid⟩ := List.mem_map.mp hreturned
  obtain ⟨w, hw, howner⟩ := List.mem_map.mp hleft
  have hlater := (h.stop p hp).files w hw
  omega

end LensLM.QwenSidecar
