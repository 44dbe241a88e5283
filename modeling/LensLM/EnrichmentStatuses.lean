import LensLM.EnrichmentWorker

/-!
# The status that an enrichment job leaves

After the source is marked as enriching, a repository call of the job itself that fails ends the
job with the mark still in place; every other exit writes another status.
-/

namespace LensLM

open ByteText Programs Program

set_option autoImplicit false

inductive JobPhase where
  | idle
  | enriching
  | settled
  | gone
deriving DecidableEq

/-- What a job is seen to do: its phase, the status it has read before its own writes, and whether
one of its own calls has failed while the source was marked. -/
structure JobNotes where
  phase : JobPhase := .idle
  found : Option EnrichmentStatus := none
  stranded : Bool := false

namespace JobNotes

def wrote (g : JobNotes) (status : EnrichmentStatus) : JobNotes :=
  { g with phase := if status = .enriching then .enriching else .settled }

def saw (g : JobNotes) : Option Source → JobNotes
  | none => { g with phase := .gone }
  | some x => if g.phase = .idle then { g with found := some x.enrichmentStatus } else g

def done (sourceId : String) (g : JobNotes) : (c : EnrichCmd) → c.Reply → JobNotes
  | .getSource id, reply => if id = sourceId then g.saw (reply.map Prod.fst) else g
  | .updateEnrichmentStatus id status, _ => if id = sourceId then g.wrote status else g
  | .updateEnrichmentStatusAndMeta id status _, _ => if id = sourceId then g.wrote status else g
  | .within (.getSource id), reply => if id = sourceId then g.saw reply else g
  | .within (.updateEnrichmentStatus id status), _ => if id = sourceId then g.wrote status else g
  | _, _ => g

def failed (g : JobNotes) : EnrichCmd → JobNotes
  | .within _ => g
  | _ => if g.phase = .enriching then { g with stranded := true } else g

end JobNotes

/-- The environment's part in a step: a fault, and what other tasks do before it. -/
structure JobChoice where
  fault : Option LensError
  others : Option (EnrichmentState → EnrichmentState)

def JobChoice.before (x : JobChoice) (s : EnrichmentState) : EnrichmentState :=
  match x.others with
  | some f => f s
  | none => s

def enrichMachine (sourceId : String) :
    Machine EnrichCmd EnrichCmd.Reply Stop JobChoice EnrichmentState JobNotes where
  react c x s := c.react x.fault (x.before s)
  note g r := match r.reply with
    | .ok a => g.done sourceId r.command a
    | .error _ => g.failed r.command

/-- Others may delete the source but not make it anew, and never mark it as enriching; where they
keep the statuses, they do not write its status at all. -/
def Meddles (sourceId : String) (keeps : Prop) (s s' : EnrichmentState) : Prop :=
  ∀ x', s'.source? sourceId = some x' → ∃ x, s.source? sourceId = some x ∧
    (x'.enrichmentStatus = .enriching → x.enrichmentStatus = .enriching) ∧
    (keeps → x'.enrichmentStatus = x.enrichmentStatus)

def OthersMeddle (sourceId : String) (keeps : Prop) :
    Guard Unit EnrichCmd JobChoice EnrichmentState JobNotes :=
  fun _ _ _ x s => Meddles sourceId keeps s (x.before s)

section Effects

variable {sourceId : String} {keeps : Prop}

theorem Meddles.of_source?_eq {s s' : EnrichmentState}
    (h : s'.source? sourceId = s.source? sourceId) : Meddles sourceId keeps s s' :=
  fun x' hx' => ⟨x', h ▸ hx', fun he => he, fun _ => rfl⟩

/-- An update that leaves the enrichment status alone. -/
theorem Meddles.updateSource {s : EnrichmentState} {id : String} {f : Source → Source}
    (hid : ∀ x, (f x).id = x.id) (hf : ∀ x, (f x).enrichmentStatus = x.enrichmentStatus) :
    Meddles sourceId keeps s { s with engine := s.engine.updateSource id f } := by
  intro x' hx'
  unfold EnrichmentState.source? at hx'
  rw [source?_updateSource s.engine id sourceId hid] at hx'
  obtain ⟨x, hx, rfl⟩ := Option.map_eq_some_iff.mp hx'
  refine ⟨x, hx, ?_⟩
  split
  · rw [hf]
    exact ⟨fun he => he, fun _ => rfl⟩
  · exact ⟨fun he => he, fun _ => rfl⟩

/-- Only these commands write an enrichment status. -/
def WritesStatus : Cmd → Prop
  | .updateEnrichmentStatus _ _ | .recoverEnrichment => True
  | _ => False

theorem Meddles.command {s : EnrichmentState} {c : Cmd} (hc : ¬ WritesStatus c) {a : c.Reply}
    {t : EngineState} (h : c.run s.engine = .ok (a, t)) :
    Meddles sourceId keeps s { s with engine := t } := by
  have hsame : ∀ {t : EngineState}, t.sources = s.engine.sources →
      Meddles sourceId keeps s { s with engine := t } := by
    intro t ht
    apply Meddles.of_source?_eq
    unfold EnrichmentState.source? EngineState.source?
    rw [ht]
  cases c with
  | updateEnrichmentStatus | recoverEnrichment => exact absurd trivial hc
  | updateSourceStatus | updateSourceMetadata | trashSource =>
    simp only [Cmd.run] at h
    split at h
    · cases h
      exact .updateSource (fun _ => rfl) fun _ => rfl
    · cases h
  | setSourceError | clearSourceErrorMeta =>
    cases h
    exact .updateSource (fun _ => rfl) fun _ => rfl
  | recoverSources =>
    cases h
    intro x' hx'
    unfold EnrichmentState.source? EngineState.source? at hx'
    dsimp only at hx'
    rw [find?_map_source] at hx'
    · obtain ⟨x, hx, rfl⟩ := Option.map_eq_some_iff.mp hx'
      refine ⟨x, hx, ?_⟩
      split
      · exact ⟨fun he => he, fun _ => rfl⟩
      · exact ⟨fun he => he, fun _ => rfl⟩
    · intro x
      split
      · rfl
      · rfl
  | purgeSource id =>
    simp only [Cmd.run] at h
    split at h
    · cases h
      intro x' hx'
      refine ⟨x', ?_, fun he => he, fun _ => rfl⟩
      unfold EnrichmentState.source? EngineState.source? at hx' ⊢
      dsimp only [EngineState.withoutChunks] at hx'
      rw [List.find?_filter] at hx'
      have hboth := List.find?_some hx'
      simp only [decide_not, Bool.not_eq_true', decide_eq_false_iff_not, decide_eq_true_eq] at hboth
      rw [← hx']
      congr 1
      funext x
      by_cases hx : x.id = sourceId
      · simp [hx, hboth.2 ▸ hboth.1]
      · simp [hx]
    · cases h
  | flipActiveTxn c building =>
    simp only [Cmd.run] at h
    cases hr : s.engine.registry.flip c building with
    | error e =>
      rw [hr] at h
      cases h
    | ok r =>
      rw [hr] at h
      cases h
      exact hsame rfl
  | _ =>
    simp only [Cmd.run] at h
    try split at h
    all_goals cases h
    all_goals exact hsame rfl

theorem source?_writeUpdates (updates : List ChunkEnrichmentUpdate) (s : EnrichmentState) :
    (updates.foldl EnrichmentState.writeUpdate s).source? sourceId = s.source? sourceId := by
  induction updates generalizing s with
  | nil => rfl
  | cons u updates ih =>
    rw [List.foldl_cons, ih]
    rfl

theorem source?_setStatus (s : EnrichmentState) (id : String) (status : EnrichmentStatus) :
    (s.setStatus id status).source? sourceId = (s.source? sourceId).map fun x =>
      if x.id = id then { x with enrichmentStatus := status } else x :=
  source?_updateSource s.engine id sourceId (f := fun x => { x with enrichmentStatus := status })
    fun _ => rfl

/-- What a write of a status leaves: the source has it, if it is there. -/
theorem status_of_setStatus {s : EnrichmentState} {status : EnrichmentStatus} {x : Source}
    (h : (s.setStatus sourceId status).source? sourceId = some x) : x.enrichmentStatus = status := by
  rw [source?_setStatus] at h
  obtain ⟨y, hy, rfl⟩ := Option.map_eq_some_iff.mp h
  have hid : y.id = sourceId := by simpa using List.find?_some hy
  rw [if_pos hid]

theorem Meddles.setStatus {s : EnrichmentState} {id : String} (hid : id ≠ sourceId)
    (status : EnrichmentStatus) : Meddles sourceId keeps s (s.setStatus id status) := by
  intro x' hx'
  rw [source?_setStatus] at hx'
  obtain ⟨x, hx, rfl⟩ := Option.map_eq_some_iff.mp hx'
  have hx_id : x.id = sourceId := by simpa using List.find?_some hx
  refine ⟨x, hx, ?_⟩
  rw [if_neg fun h => hid (h.symm.trans hx_id)]
  exact ⟨fun he => he, fun _ => rfl⟩

end Effects

section React

variable {c : EnrichCmd} {fault : Option LensError} {s s' : EnrichmentState}

/-- A command that is carried out. -/
theorem EnrichCmd.react_ok {a : c.Reply} (h : c.react fault s = some (.ok a, s')) :
    c.run s = .ok (a, s') := by
  unfold EnrichCmd.react at h
  split at h
  · cases h
  · cases fault with
    | some e =>
      dsimp only at h
      split at h
      · cases h
      · cases h
    | none =>
      dsimp only at h
      split at h
      · rename_i hr
        cases h
        exact hr
      · cases h

/-- A command that fails leaves the state as it is. -/
theorem EnrichCmd.react_error {stop : Stop} (h : c.react fault s = some (.error stop, s')) :
    s' = s := by
  unfold EnrichCmd.react at h
  split at h
  · cases h
  · cases fault with
    | some e =>
      dsimp only at h
      split at h
      · cases h
        rfl
      · cases h
    | none =>
      dsimp only at h
      split at h
      · cases h
      · cases h
        rfl

end React

section Invariant

variable {sourceId : String} {initial : Option EnrichmentStatus} {keeps : Prop}

/-- What the notes of a job tell about the status of its source. -/
structure StatusKnown (sourceId : String) (initial : Option EnrichmentStatus) (keeps : Prop)
    (g : JobNotes) (s : EnrichmentState) : Prop where
  idle : g.phase = .idle → ∀ x, s.source? sourceId = some x →
    (x.enrichmentStatus = .enriching → initial = some .enriching) ∧
      (keeps → initial = some x.enrichmentStatus)
  enriching : g.phase = .enriching → ∀ x, s.source? sourceId = some x → keeps →
    x.enrichmentStatus = .enriching
  settled : g.phase = .settled → ∀ x, s.source? sourceId = some x → x.enrichmentStatus ≠ .enriching
  gone : g.phase = .gone → s.source? sourceId = none
  found : ∀ status, g.found = some status → keeps → initial = some status

theorem StatusKnown.start (s : EnrichmentState) :
    StatusKnown sourceId ((s.source? sourceId).map Source.enrichmentStatus) keeps {} s where
  idle := by
    intro _ x hx
    rw [hx]
    exact ⟨fun he => congrArg some he, fun _ => rfl⟩
  enriching := nofun
  settled := nofun
  gone := nofun
  found := nofun

theorem StatusKnown.meddle {g : JobNotes} {s s' : EnrichmentState}
    (h : StatusKnown sourceId initial keeps g s) (hm : Meddles sourceId keeps s s') :
    StatusKnown sourceId initial keeps g s' := by
  constructor
  case idle =>
    intro hg x' hx'
    obtain ⟨x, hx, hset, hkept⟩ := hm x' hx'
    obtain ⟨hup, hlow⟩ := h.idle hg x hx
    exact ⟨fun he => hup (hset he), fun hk => hkept hk ▸ hlow hk⟩
  case enriching =>
    intro hg x' hx' hk
    obtain ⟨x, hx, _, hkept⟩ := hm x' hx'
    exact (hkept hk).trans (h.enriching hg x hx hk)
  case settled =>
    intro hg x' hx' he
    obtain ⟨x, hx, hset, _⟩ := hm x' hx'
    exact h.settled hg x hx (hset he)
  case gone =>
    intro hg
    cases hx' : s'.source? sourceId with
    | none => rfl
    | some x' =>
      obtain ⟨x, hx, _⟩ := hm x' hx'
      rw [h.gone hg] at hx
      cases hx
  case found => exact h.found

theorem StatusKnown.wrote {g : JobNotes} {s : EnrichmentState}
    (h : StatusKnown sourceId initial keeps g s) {s' : EnrichmentState} (status : EnrichmentStatus)
    (hs : s'.source? sourceId = (s.setStatus sourceId status).source? sourceId) :
    StatusKnown sourceId initial keeps (g.wrote status) s' := by
  have hstatus : ∀ x, s'.source? sourceId = some x → x.enrichmentStatus = status :=
    fun x hx => status_of_setStatus (hs ▸ hx)
  have hphase : (g.wrote status).phase = if status = .enriching then .enriching else .settled := rfl
  constructor
  case idle =>
    rw [hphase]
    split
    · nofun
    · nofun
  case enriching =>
    rw [hphase]
    split
    · rename_i he
      exact fun _ x hx _ => (hstatus x hx).trans he
    · nofun
  case settled =>
    rw [hphase]
    split
    · nofun
    · rename_i hne
      exact fun _ x hx he => hne ((hstatus x hx).symm.trans he)
  case gone =>
    rw [hphase]
    split
    · nofun
    · nofun
  case found => exact h.found

theorem StatusKnown.saw {g : JobNotes} {s : EnrichmentState}
    (h : StatusKnown sourceId initial keeps g s) :
    StatusKnown sourceId initial keeps (g.saw (s.source? sourceId)) s := by
  cases hx : s.source? sourceId with
  | none => exact ⟨nofun, nofun, nofun, fun _ => hx, h.found⟩
  | some x =>
    dsimp only [JobNotes.saw]
    split
    · rename_i hidle
      refine ⟨h.idle, h.enriching, h.settled, h.gone, ?_⟩
      intro status hstatus hk
      rw [← Option.some.inj hstatus]
      exact (h.idle hidle x hx).2 hk
    · exact h

/-- The statuses of all sources are not written at once. -/
def jobAllows : EnrichCmd → JobNotes → Prop
  | .within .recoverEnrichment, _ => False
  | _, _ => True

theorem StatusKnown.seen {g : JobNotes} {s : EnrichmentState}
    (h : StatusKnown sourceId initial keeps g s) (id : String) {reply : Option Source}
    (hr : reply = s.source? id) :
    StatusKnown sourceId initial keeps (if id = sourceId then g.saw reply else g) s := by
  split
  · rename_i hid
    rw [hr, hid]
    exact h.saw
  · exact h

theorem StatusKnown.written {g : JobNotes} {s s' : EnrichmentState}
    (h : StatusKnown sourceId initial keeps g s) (id : String) (status : EnrichmentStatus)
    (hs : s'.source? sourceId = (s.setStatus id status).source? sourceId) :
    StatusKnown sourceId initial keeps (if id = sourceId then g.wrote status else g) s' := by
  split
  · rename_i hid
    rw [hid] at hs
    exact h.wrote status hs
  · rename_i hid
    apply h.meddle
    intro x' hx'
    exact Meddles.setStatus hid status x' (hs ▸ hx')

theorem StatusKnown.doneWithin {g : JobNotes} {s : EnrichmentState}
    (h : StatusKnown sourceId initial keeps g s) {c : Cmd} (hc : jobAllows (.within c) g)
    {a : c.Reply} {t : EngineState} (hr : c.run s.engine = .ok (a, t)) :
    StatusKnown sourceId initial keeps (g.done sourceId (.within c) a) { s with engine := t } := by
  by_cases hw : WritesStatus c
  · cases c with
    | updateEnrichmentStatus id status =>
      cases hr
      exact h.written id status rfl
    | recoverEnrichment => exact absurd hc id
    | _ => exact absurd hw id
  · have hm := h.meddle (Meddles.command hw hr)
    cases c with
    | getSource id =>
      cases hr
      exact h.seen id rfl
    | updateEnrichmentStatus => exact absurd trivial hw
    | _ => exact hm

theorem StatusKnown.done {g : JobNotes} {s s' : EnrichmentState}
    (h : StatusKnown sourceId initial keeps g s) {c : EnrichCmd} (hc : jobAllows c g)
    {a : c.Reply} (hr : c.run s = .ok (a, s')) :
    StatusKnown sourceId initial keeps (g.done sourceId c a) s' := by
  cases c with
  | getSource id =>
    cases hr
    apply h.seen id
    rw [Option.map_map]
    exact congrFun Option.map_id _
  | updateEnrichmentStatus id status =>
    cases hr
    exact h.written id status rfl
  | updateEnrichmentStatusAndMeta id status json =>
    cases hr
    exact h.written id status rfl
  | listChunksForEnrichment | listRelationTypeNames | listRelationTypeAliases =>
    cases hr
    exact h
  | writeChunkEnrichment updates =>
    cases hr
    exact h.meddle (.of_source?_eq (source?_writeUpdates updates s))
  | writeEnrichmentAndGraph updates graph =>
    simp only [EnrichCmd.run] at hr
    split at hr
    · cases hr
      exact h.meddle (.of_source?_eq (source?_writeUpdates updates s))
    · cases hr
  | within c =>
    cases hrun : c.run s.engine with
    | error e =>
      simp only [EnrichCmd.run, hrun] at hr
      cases hr
    | ok r =>
      simp only [EnrichCmd.run, hrun] at hr
      cases hr
      exact h.doneWithin hc hrun

theorem StatusKnown.failed {g : JobNotes} {s : EnrichmentState}
    (h : StatusKnown sourceId initial keeps g s) (c : EnrichCmd) :
    StatusKnown sourceId initial keeps (g.failed c) s := by
  unfold JobNotes.failed
  split
  · exact h
  · split
    · exact ⟨h.idle, h.enriching, h.settled, h.gone, h.found⟩
    · exact h

/-- What one step of a job makes known. -/
theorem StatusKnown.step {g : JobNotes} {s s' : EnrichmentState} {c : EnrichCmd} {x : JobChoice}
    {r : Except Stop c.Reply} (h : StatusKnown sourceId initial keeps g s) (hc : jobAllows c g)
    (hm : Meddles sourceId keeps s (x.before s))
    (hr : (enrichMachine sourceId).react c x s = some (r, s')) :
    StatusKnown sourceId initial keeps ((enrichMachine sourceId).note g ⟨c, x, s, r⟩) s' := by
  have hbefore := h.meddle hm
  cases r with
  | ok a => exact hbefore.done hc (EnrichCmd.react_ok hr)
  | error e =>
    rw [EnrichCmd.react_error hr]
    exact hbefore.failed c

end Invariant

end LensLM
