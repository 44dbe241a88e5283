import LensLM.Lib.Programs
import LensLM.Providers

/-!
# Consent to the cloud

The provider of the enrichment is kept apart from the settings. A change of the settings swaps
them and then has the provider rebuilt, and the requests read both in steps of their own.
-/

namespace LensLM

open ByteText Programs

set_option autoImplicit false

section Commands

/-- The steps on the settings in memory and on the provider that is installed. -/
inductive ProviderCmd where
  | config
  | setConfig (config : LlmConfig)
  | llmProvider
  | setLlmProvider (provider : Option LlmProvider)
  | rebuildEnrichmentQueue

@[reducible] def ProviderCmd.Reply : ProviderCmd → Type
  | .config => LlmConfig
  | .setConfig _ => Unit
  | .llmProvider => Option LlmProvider
  | .setLlmProvider _ => Unit
  | .rebuildEnrichmentQueue => Unit

abbrev ProviderProgram := Program ProviderCmd ProviderCmd.Reply LensError

def ProviderCmd.issue (c : ProviderCmd) : ProviderProgram c.Reply := Program.perform c

variable (builds : ClientBuilds)

def llmConfigChanged (old new : LlmConfig) : Bool :=
  old.others.models != new.others.models || old.others.routing != new.others.routing ||
    old.others.corefModel != new.others.corefModel || old.others.mapModel != new.others.mapModel ||
      old.others.enabled != new.others.enabled ||
        old.others.cloudConsent != new.others.cloudConsent

def rescanEnrichmentOnProviderChange : ProviderProgram Unit := do
  let config ← ProviderCmd.config.issue
  let provider := if config.others.enabled then
      providerFromConfig builds config config.others.cloudConsent
    else none
  (ProviderCmd.setLlmProvider provider).issue
  if provider.isSome then ProviderCmd.rebuildEnrichmentQueue.issue else pure ()

def applyLlmConfig (config : LlmConfig) : ProviderProgram Unit := do
  let old ← ProviderCmd.config.issue
  (ProviderCmd.setConfig config).issue
  if llmConfigChanged old config then rescanEnrichmentOnProviderChange builds else pure ()

def chatProvider : ProviderProgram (Option LlmProvider) := do
  let config ← ProviderCmd.config.issue
  if config.chatModel.isSome then
    pure (chatProviderFromConfig builds config config.others.cloudConsent)
  else
    match ← ProviderCmd.llmProvider.issue with
    | some p => pure (some p)
    | none => pure (chatProviderFromConfig builds config config.others.cloudConsent)

/-- The providers of a job's map and coreference passes, if it comes to them. -/
def jobProviders (reachable : LlmProvider → Bool) : ProviderProgram (List LlmProvider) := do
  let cfg ← ProviderCmd.config.issue
  if !cfg.others.enabled then pure []
  else
    match ← ProviderCmd.llmProvider.issue with
    | none => pure []
    | some provider =>
      if !reachable provider then pure []
      else
        let config ← ProviderCmd.config.issue
        pure [
          taskProviderFromConfig builds provider cfg.others.mapModel config.others.models
            cfg.others.cloudConsent,
          taskProviderFromConfig builds provider cfg.others.corefModel config.others.models
            cfg.others.cloudConsent]

inductive ProviderRequest where
  | applyConfig (config : LlmConfig)
  | rescan
  | chat
  | enrich (reachable : LlmProvider → Bool)

/-- What a request has obtained when it is through. -/
def ProviderRequest.program : ProviderRequest → ProviderProgram (List LlmProvider)
  | .applyConfig config => (applyLlmConfig builds config).bind fun _ => pure []
  | .rescan => (rescanEnrichmentOnProviderChange builds).bind fun _ => pure []
  | .chat => (chatProvider builds).bind fun p => pure p.toList
  | .enrich reachable => jobProviders builds reachable

end Commands

section Machine

structure ProviderState where
  config : LlmConfig
  llmProvider : Option LlmProvider

namespace ProviderState

def consent (s : ProviderState) : Bool := s.config.others.cloudConsent

end ProviderState

/-- What a request has seen: the consent it read last and the one that its last step met, whether
it has gone on with one that was not in force any more, whether it has withdrawn the consent and not
yet installed a provider, and the providers it has read, each with the consent in force then. -/
structure ConsentNotes where
  read : Option Bool
  met : Bool
  stale : Bool
  window : Bool
  obtained : List (LlmProvider × Bool)

def ConsentNotes.start : ConsentNotes := ⟨none, false, false, false, []⟩

/-- Only the rebuild of the queue can fail. -/
def ProviderCmd.react : (c : ProviderCmd) → Option LensError → ProviderState →
    Option (Except LensError c.Reply × ProviderState)
  | .config, _, s => some (.ok s.config, s)
  | .setConfig c, _, s => some (.ok (), { s with config := c })
  | .llmProvider, _, s => some (.ok s.llmProvider, s)
  | .setLlmProvider p, _, s => some (.ok (), { s with llmProvider := p })
  | .rebuildEnrichmentQueue, none, s => some (.ok (), s)
  | .rebuildEnrichmentQueue, some e, s => some (.error e, s)

/-- A step finds a consent in force. -/
def ConsentNotes.meet (g : ConsentNotes) (consent : Bool) : ConsentNotes :=
  { g with met := consent, stale := g.stale || g.read.any fun b => b != consent }

def ConsentNotes.note (g : ConsentNotes) :
    Record ProviderCmd ProviderCmd.Reply LensError (Option LensError) ProviderState → ConsentNotes
  | ⟨.config, _, s, _⟩ => { g.meet s.consent with read := some s.consent }
  | ⟨.setConfig c, _, s, _⟩ => { g.meet s.consent with
      read := none
      window := g.window || (s.consent && !c.others.cloudConsent) }
  | ⟨.llmProvider, _, s, _⟩ => { g.meet s.consent with
      obtained := g.obtained ++ s.llmProvider.toList.map fun p => (p, s.consent) }
  | ⟨.setLlmProvider _, _, s, _⟩ => { g.meet s.consent with window := false }
  | ⟨.rebuildEnrichmentQueue, _, _, _⟩ => g

def providerMachine : Machine ProviderCmd ProviderCmd.Reply LensError (Option LensError)
    ProviderState ConsentNotes where
  react := ProviderCmd.react
  note := ConsentNotes.note

variable {ι : Type}

/-- A request goes on only while the consent that it read last is in force, and the installed
provider is not read while a withdrawal waits for the provider of its rescan. -/
def ConsentSettled : Guard ι ProviderCmd (Option LensError) ProviderState ConsentNotes :=
  fun g i c _ s =>
    match c with
    | .rebuildEnrichmentQueue => True
    | .llmProvider => ((g i).read = none ∨ (g i).read = some s.consent) ∧
        ∀ j, (g j).window = false
    | _ => (g i).read = none ∨ (g i).read = some s.consent

abbrev ProviderPool (ι : Type) := Pool ι ProviderCmd ProviderCmd.Reply LensError
  (List LlmProvider) ProviderState ConsentNotes

def providerStart (builds : ClientBuilds) (requests : ι → ProviderRequest) (s : ProviderState) :
    ProviderPool ι :=
  Pool.start s .start fun i => (requests i).program builds

/-- Every provider that a request has read, or comes away with, was a local one or met consent. -/
def Consented (w : ProviderPool ι) : Prop :=
  ∀ i, (∀ p b, (p, b) ∈ (w.seen i).obtained → p.isLocal = true ∨ b = true) ∧
    ∀ ps, (w.thread i).program = .ret ps → ∀ p ∈ ps,
      p.isLocal = true ∨ (w.seen i).met = true

end Machine

section Checked

variable {builds : ClientBuilds}

/-- A change follows the settings that it has read, and a provider is installed that the consent
which was read allows. -/
def consentDiscipline : Discipline ProviderCmd ProviderState ConsentNotes where
  known _ := True
  allows
    | .setConfig _, g => g.read.isSome
    | .setLlmProvider p, g => ∀ q, p = some q → q.isLocal = true ∨ g.read = some true
    | _, _ => True

/-- A request that did not go on with an old consent leaves no withdrawal open. -/
def ConsentNotes.Closed (g : ConsentNotes) : Prop := g.stale = false → g.window = false

abbrev ConsentChecked {α : Type} (post : α → ConsentNotes → Prop) :
    ProviderProgram α → ConsentNotes → Prop :=
  Follows providerMachine consentDiscipline post fun _ => ConsentNotes.Closed

/-- What a request may come away with. -/
def ConsentNotes.MayObtain (ps : List LlmProvider) (g : ConsentNotes) : Prop :=
  g.stale = false → g.window = false ∧
    ∀ p ∈ ps, p.isLocal = true ∨ g.met = true ∨ (p, g.met) ∈ g.obtained

variable {g : ConsentNotes}

theorem consentChecked_config {α : Type} {post : α → ConsentNotes → Prop}
    {k : LlmConfig → ProviderProgram α}
    (h : ∀ s : ProviderState, ConsentChecked post (k s.config)
      { g.meet s.consent with read := some s.consent }) :
    ConsentChecked post (ProviderCmd.config.issue >>= k) g := by
  refine ⟨trivial, ?_⟩
  intro x s r hr
  obtain ⟨_, s', h'⟩ := hr
  cases h'
  exact h s

theorem consentChecked_llmProvider {α : Type} {post : α → ConsentNotes → Prop}
    {k : Option LlmProvider → ProviderProgram α}
    (h : ∀ s : ProviderState, ConsentChecked post (k s.llmProvider) { g.meet s.consent with
      obtained := g.obtained ++ s.llmProvider.toList.map fun p => (p, s.consent) }) :
    ConsentChecked post (ProviderCmd.llmProvider.issue >>= k) g := by
  refine ⟨trivial, ?_⟩
  intro x s r hr
  obtain ⟨_, s', h'⟩ := hr
  cases h'
  exact h s

theorem checked_install {provider : Option LlmProvider}
    (h : ∀ q, provider = some q → q.isLocal = true ∨ g.read = some true) :
    ConsentChecked (fun _ => ConsentNotes.Closed)
      ((ProviderCmd.setLlmProvider provider).issue >>= fun _ =>
        if provider.isSome then ProviderCmd.rebuildEnrichmentQueue.issue else pure ()) g := by
  refine ⟨h, ?_⟩
  intro x s r hr
  obtain ⟨_, s', h'⟩ := hr
  cases h'
  show ConsentChecked _ (ite _ _ _) _
  split
  · refine ⟨trivial, ?_⟩
    intro x s r hr
    cases r with
    | ok a => exact fun _ => rfl
    | error e => exact fun _ => rfl
  · exact fun _ => rfl

theorem checked_rescanProvider (g : ConsentNotes) : ConsentChecked (fun _ => ConsentNotes.Closed)
    (rescanEnrichmentOnProviderChange builds) g := by
  unfold rescanEnrichmentOnProviderChange
  apply consentChecked_config
  intro s
  apply checked_install
  intro q hq
  obtain ⟨_, hq⟩ := Option.ite_none_right_eq_some.mp hq
  rcases providerFromConfig_local hq with hl | hc
  · exact .inl hl
  · right
    exact congrArg some hc

theorem checked_applyLlmConfig (config : LlmConfig) (hw : g.window = false) :
    ConsentChecked (fun _ => ConsentNotes.Closed) (applyLlmConfig builds config) g := by
  unfold applyLlmConfig
  apply consentChecked_config
  intro s
  refine ⟨rfl, ?_⟩
  intro x s' r hr
  obtain ⟨_, s'', h'⟩ := hr
  cases h'
  show ConsentChecked _ (ite _ _ _) _
  cases hc : llmConfigChanged s.config config with
  | true => exact checked_rescanProvider _
  | false =>
    -- The consent that was read is the new one, and it was in force unless the read is old.
    intro hstale
    have hsame : s.config.others.cloudConsent = config.others.cloudConsent := by
      unfold llmConfigChanged at hc
      simp only [Bool.or_eq_false_iff] at hc
      simpa using hc.2
    change (_ || (Option.any _ (some s.consent))) = false at hstale
    simp only [Bool.or_eq_false_iff, Option.any_some, bne_eq_false_iff_eq] at hstale
    show (g.window || (s'.consent && !config.others.cloudConsent)) = false
    rw [hw, ← hstale.2, ← hsame]
    exact Bool.and_not_self _

theorem checked_chatProvider (hw : g.window = false) :
    ConsentChecked (fun p => ConsentNotes.MayObtain p.toList) (chatProvider builds) g := by
  have hbuilt : ∀ (s : ProviderState) (g' : ConsentNotes), g'.window = false →
      (g'.stale = false → g'.met = s.consent) → ConsentNotes.MayObtain
        (chatProviderFromConfig builds s.config s.config.others.cloudConsent).toList g' := by
    intro s g' hw' hmet hstale
    refine ⟨hw', ?_⟩
    intro p hp
    rcases chatProviderFromConfig_local (Option.mem_toList.mp hp) with hl | hc
    · exact .inl hl
    · right
      left
      rw [hmet hstale]
      exact hc
  unfold chatProvider
  apply consentChecked_config
  intro s
  dsimp only
  split
  · exact hbuilt s _ hw fun _ => rfl
  · apply consentChecked_llmProvider
    intro s'
    cases hp : s'.llmProvider with
    | some p =>
      intro _
      refine ⟨hw, ?_⟩
      intro q hq
      right
      right
      obtain rfl : q = p := by simpa using hq
      simp [ConsentNotes.meet]
    | none =>
      refine hbuilt s _ hw ?_
      intro hstale
      have hsame : s.consent = s'.consent := by
        simp only [ConsentNotes.meet, Bool.or_eq_false_iff, Option.any_some,
          bne_eq_false_iff_eq] at hstale
        exact hstale.2
      exact hsame.symm

theorem checked_jobProviders (reachable : LlmProvider → Bool) (hw : g.window = false) :
    ConsentChecked ConsentNotes.MayObtain (jobProviders builds reachable) g := by
  have hnone : ∀ g' : ConsentNotes, g'.window = false → ConsentNotes.MayObtain [] g' := by
    intro g' hw' _
    refine ⟨hw', ?_⟩
    intro p hp
    cases hp
  unfold jobProviders
  apply consentChecked_config
  intro s
  dsimp only
  split
  · exact hnone _ hw
  · apply consentChecked_llmProvider
    intro s'
    cases hp : s'.llmProvider with
    | none => exact hnone _ hw
    | some p =>
      dsimp only
      split
      · exact hnone _ hw
      · apply consentChecked_config
        intro s'' hstale
        refine ⟨hw, ?_⟩
        simp only [ConsentNotes.meet, Bool.or_eq_false_iff, Option.any_some,
          bne_eq_false_iff_eq] at hstale
        have htask : ∀ t, taskProviderFromConfig builds p t s''.config.others.models
            s.config.others.cloudConsent = p ∨ (taskProviderFromConfig builds p t
              s''.config.others.models s.config.others.cloudConsent).isLocal = true ∨
                s.consent = true := taskProviderFromConfig_local p
        intro q hq
        have hmay : q = p ∨ q.isLocal = true ∨ s.consent = true := by
          simp only [List.mem_cons, List.not_mem_nil, or_false] at hq
          rcases hq with rfl | rfl
          · exact htask _
          · exact htask _
        rcases hmay with rfl | hl | hc
        · right
          right
          simp [ConsentNotes.meet, ← hstale.1.2, hstale.2]
        · exact .inl hl
        · right
          left
          rw [← hc, hstale.2]
          rfl

theorem checked_request (r : ProviderRequest) :
    ConsentChecked ConsentNotes.MayObtain (r.program builds) .start := by
  have hend : ∀ g : ConsentNotes, g.Closed → ConsentNotes.MayObtain [] g := by
    intro g hg hstale
    refine ⟨hg hstale, ?_⟩
    intro p hp
    cases hp
  cases r with
  | applyConfig config =>
    exact Follows.bind (checked_applyLlmConfig config rfl) fun _ g hg => hend g hg
  | rescan => exact Follows.bind (checked_rescanProvider .start) fun _ g hg => hend g hg
  | chat => exact Follows.bind (checked_chatProvider rfl) fun _ g hg => hg
  | enrich reachable => exact checked_jobProviders reachable rfl

end Checked

section Runs

variable {ι : Type} {seen : ι → ConsentNotes} {s : ProviderState} {i : ι} {n : ConsentNotes}

/-- The provider that is installed is local, or there is consent. -/
def ProviderState.Fits (s : ProviderState) : Prop :=
  ∀ p, s.llmProvider = some p → p.isLocal = true ∨ s.consent = true

structure ConsentInv (seen : ι → ConsentNotes) (s : ProviderState) : Prop where
  fresh : ∀ i, (seen i).stale = false
  obtained : ∀ i p b, (p, b) ∈ (seen i).obtained → p.isLocal = true ∨ b = true
  fits : s.Fits ∨ ∃ i, (seen i).window = true

theorem meet_fresh {g : ConsentNotes} (hf : g.stale = false)
    (hr : g.read = none ∨ g.read = some s.consent) : (g.meet s.consent).stale = false := by
  show (g.stale || _) = false
  rw [hf]
  rcases hr with hr | hr
  · rw [hr]
    rfl
  · rw [hr]
    simp

variable [DecidableEq ι]

/-- A step that leaves the installed provider and the consent as they are. -/
theorem ConsentInv.noted (h : ConsentInv seen s) (hstale : n.stale = false)
    (hobtained : ∀ p b, (p, b) ∈ n.obtained → p.isLocal = true ∨ b = true)
    (hwindow : n.window = (seen i).window) : ConsentInv (Function.update seen i n) s := by
  constructor
  · intro j
    by_cases hj : j = i
    · rw [hj, Function.update_self]
      exact hstale
    · rw [Function.update_of_ne hj]
      exact h.fresh j
  · intro j p b hm
    by_cases hj : j = i
    · rw [hj, Function.update_self] at hm
      exact hobtained p b hm
    · rw [Function.update_of_ne hj] at hm
      exact h.obtained j p b hm
  · apply h.fits.imp_right
    intro hw
    obtain ⟨j, hj⟩ := hw
    refine ⟨j, ?_⟩
    by_cases hji : j = i
    · rw [hji, Function.update_self, hwindow, ← hji]
      exact hj
    · rw [Function.update_of_ne hji]
      exact hj

/-- A step after which the installed provider fits, or a withdrawal of its own is open. -/
theorem ConsentInv.moved (h : ConsentInv seen s) {s' : ProviderState} (hstale : n.stale = false)
    (hobtained : n.obtained = (seen i).obtained)
    (hfits : s'.Fits ∨ n.window = true ∨ ∃ j, j ≠ i ∧ (seen j).window = true) :
    ConsentInv (Function.update seen i n) s' := by
  constructor
  · intro j
    by_cases hj : j = i
    · rw [hj, Function.update_self]
      exact hstale
    · rw [Function.update_of_ne hj]
      exact h.fresh j
  · intro j p b hm
    by_cases hj : j = i
    · rw [hj, Function.update_self, hobtained] at hm
      exact h.obtained i p b hm
    · rw [Function.update_of_ne hj] at hm
      exact h.obtained j p b hm
  · rcases hfits with hf | hw | hj
    · exact .inl hf
    · refine .inr ⟨i, ?_⟩
      rw [Function.update_self]
      exact hw
    · obtain ⟨j, hji, hj⟩ := hj
      refine .inr ⟨j, ?_⟩
      rw [Function.update_of_ne hji]
      exact hj

/-- New settings keep the provider that fits, or withdraw the consent. -/
theorem ConsentInv.swapped (h : ConsentInv seen s) (config : LlmConfig)
    (hr : (seen i).read = none ∨ (seen i).read = some s.consent) :
    ConsentInv (Function.update seen i { (seen i).meet s.consent with
      read := none
      window := (seen i).window || (s.consent && !config.others.cloudConsent) })
      { s with config := config } := by
  refine ConsentInv.moved h ?_ rfl ?_
  · exact meet_fresh (h.fresh i) hr
  rcases h.fits with hf | hw
  · cases hc : config.others.cloudConsent with
    | true => exact .inl fun _ _ => .inr hc
    | false =>
      cases hs : s.consent with
      | true => exact .inr (.inl (by simp))
      | false =>
        left
        intro p hp
        left
        rcases hf p hp with hl | hcon
        · exact hl
        · rw [hs] at hcon
          cases hcon
  · obtain ⟨j, hj⟩ := hw
    by_cases hji : j = i
    · right
      left
      show ((seen i).window || _) = true
      rw [← hji, hj]
      rfl
    · exact .inr (.inr ⟨j, hji, hj⟩)

theorem consentInv_step {c : ProviderCmd} {x : Option LensError} {r : Except LensError c.Reply}
    {s' : ProviderState} (h : ConsentInv seen s) (hallow : consentDiscipline.allows c (seen i))
    (hg : ConsentSettled seen i c x s) (hr : providerMachine.react c x s = some (r, s')) :
    ConsentInv (Function.update seen i (providerMachine.note (seen i) ⟨c, x, s, r⟩)) s' := by
  cases c with
  | config =>
    cases hr
    exact h.noted (meet_fresh (h.fresh i) hg) (h.obtained i) rfl
  | setConfig config =>
    cases hr
    exact h.swapped config hg
  | llmProvider =>
    cases hr
    refine h.noted (meet_fresh (h.fresh i) hg.1) ?_ rfl
    intro p b hm
    rcases List.mem_append.mp hm with hm | hm
    · exact h.obtained i p b hm
    · obtain ⟨q, hq, heq⟩ := List.mem_map.mp hm
      cases heq
      -- No withdrawal is open, so that what is installed fits.
      rcases h.fits with hf | hw
      · exact hf p (Option.mem_toList.mp hq)
      · obtain ⟨j, hj⟩ := hw
        rw [hg.2 j] at hj
        cases hj
  | setLlmProvider p =>
    cases hr
    refine ConsentInv.moved h ?_ rfl ?_
    · exact meet_fresh (h.fresh i) hg
    left
    intro q hq
    rcases hallow q hq with hl | hread
    · exact .inl hl
    · right
      rcases hg with hn | hs
      · rw [hread] at hn
        cases hn
      · rw [hread] at hs
        exact (Option.some.inj hs).symm
  | rebuildEnrichmentQueue =>
    cases x with
    | none =>
      cases hr
      exact h.noted (h.fresh i) (h.obtained i) rfl
    | some e =>
      cases hr
      exact h.noted (h.fresh i) (h.obtained i) rfl

/-- As long as requests go on with a consent that is in force, and read the installed provider when
no withdrawal waits for its rescan, they obtain a provider of the cloud under consent only. -/
theorem cloud_needs_consent {builds : ClientBuilds} (requests : ι → ProviderRequest)
    (hs : s.Fits) {w : ProviderPool ι}
    (run : (providerStart builds requests s).Run providerMachine ConsentSettled w) :
    Consented w ∧ ∀ i, (w.thread i).program.Ended → (w.seen i).window = false := by
  obtain ⟨hinv, hf⟩ := run.keeps (d := fun _ => consentDiscipline) (I := ConsentInv)
    (fun _ _ _ _ => trivial) (fun _ _ _ _ _ _ _ h ha hg hr => consentInv_step h ha hg hr)
    ⟨fun _ => rfl, fun _ _ _ hm => (List.not_mem_nil hm).elim, .inl hs⟩
    fun i => checked_request (requests i)
  refine ⟨?_, ?_⟩
  · intro i
    refine ⟨hinv.obtained i, ?_⟩
    intro ps hps p hp
    have hmay := hf i
    rw [hps] at hmay
    rcases (hmay (hinv.fresh i)).2 p hp with hl | hm | ho
    · exact .inl hl
    · exact .inr hm
    · exact hinv.obtained i p _ ho
  · intro i hend
    have hclosed : Follows providerMachine consentDiscipline (fun _ => ConsentNotes.Closed)
        (fun _ => ConsentNotes.Closed) (w.thread i).program (w.seen i) :=
      (hf i).mono (fun _ _ hg hstale => (hg hstale).1) fun _ _ hg => hg
    exact hclosed.ended hend (hinv.fresh i)

end Runs

section Examples

def openaiModel : ModelConfig := ⟨providerOpenai, [], "gpt".toList, 8192, 7 / 10, "k".toList⟩

def cloudConfig (consent : Bool) : LlmConfig :=
  { llmConfig [openaiModel] with others := ⟨[openaiModel], .cloudFirst, true, none, none, consent⟩ }

def consentedState : ProviderState :=
  ⟨cloudConfig true, some ⟨.openAi, "gpt".toList, [], "k".toList, false⟩⟩

/-- One withdraws the consent, the other asks. -/
def withdrawAndAsk : Bool → ProviderRequest
  | false => .applyConfig (cloudConfig false)
  | true => .chat

theorem consentedState_fits : consentedState.Fits := fun _ _ => .inr rfl

/-- The question comes between the swap and the rescan. -/
theorem withdrawn_consent_is_late : consentedState.Fits ∧ ∃ w,
    (providerStart alwaysBuilds withdrawAndAsk consentedState).Run providerMachine Unrestricted w ∧
      ¬ Consented w := by
  have h : ((providerStart alwaysBuilds withdrawAndAsk consentedState).play providerMachine
      Unrestricted [(false, none), (false, none), (true, none), (true, none)]).any
        (fun w => (w.seen true).obtained.any fun pb => !pb.1.isLocal && !pb.2) = true := by
    decide +kernel
  obtain ⟨w, hw, hp⟩ := Pool.run_of_play h
  refine ⟨consentedState_fits, w, hw, ?_⟩
  intro hc
  obtain ⟨⟨p, b⟩, hm, hpb⟩ := List.any_eq_true.mp hp
  simp only [Bool.and_eq_true, Bool.not_eq_true'] at hpb
  rcases (hc true).1 p b hm with hl | hb
  · rw [hpb.1] at hl
    cases hl
  · rw [hpb.2] at hb
    cases hb

instance (g : Bool → ConsentNotes) (i : Bool) (c : ProviderCmd) (x : Option LensError)
    (s : ProviderState) : Decidable (ConsentSettled g i c x s) :=
  match c with
  | .config => inferInstanceAs (Decidable (_ ∨ _))
  | .setConfig _ => inferInstanceAs (Decidable (_ ∨ _))
  | .llmProvider => inferInstanceAs (Decidable (_ ∧ ∀ j, (g j).window = false))
  | .setLlmProvider _ => inferInstanceAs (Decidable (_ ∨ _))
  | .rebuildEnrichmentQueue => .isTrue trivial

/-- The question comes after the rescan. -/
theorem cloud_needs_consent_settled : ∃ w, (providerStart alwaysBuilds withdrawAndAsk
    consentedState).Run providerMachine ConsentSettled w ∧ Consented w ∧
      (∀ i, (w.thread i).program.Returned) := by
  have h : ((providerStart alwaysBuilds withdrawAndAsk consentedState).play providerMachine
      ConsentSettled (List.replicate 4 (false, none) ++ List.replicate 2 (true, none))).any
        (fun w => (w.thread false).program.Returned && (w.thread true).program.Returned) = true := by
    decide +kernel
  obtain ⟨w, hw, hp⟩ := Pool.run_of_play h
  simp only [Bool.and_eq_true, decide_eq_true_eq] at hp
  refine ⟨w, hw, (cloud_needs_consent withdrawAndAsk consentedState_fits hw).1, ?_⟩
  intro i
  cases i with
  | false => exact hp.1
  | true => exact hp.2

end Examples

end LensLM
