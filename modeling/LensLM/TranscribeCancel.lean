import LensLM.Transcribe

/-!
# Cancelled transcriptions

A run looks at the token between the calls of the engines. What no look sees any more, and what
a kept transcript of Apple hides, are the only ways for a cancelled run to return segments.
-/

namespace LensLM

open ByteText Effects

set_option autoImplicit false

namespace AsrHost

variable {Pcm : Type} {host : AsrHost Pcm}

section Runs

variable {ε ε' α β : Type}

/-- What a run ends with, and when an engine has returned last. -/
def outcome (x : AsrRun ε α) (s : Option Moment) : Except ε α × Option Moment := x.run.run s

@[simp] theorem outcome_pure (a : α) (s : Option Moment) :
    outcome (pure a : AsrRun ε α) s = (.ok a, s) := rfl

@[simp] theorem outcome_throw (e : ε) (s : Option Moment) :
    outcome (throw e : AsrRun ε α) s = (.error e, s) := rfl

@[simp] theorem outcome_called (m : Moment) (r : Except ε α) (s : Option Moment) :
    outcome (called m r) s = (r, some m) := rfl

@[simp] theorem outcome_returning (r : Except ε α) (s : Option Moment) :
    outcome (returning r) s = (r, s) := rfl

@[simp] theorem outcome_attempt (x : AsrRun ε α) (s : Option Moment) :
    outcome (attempt x : AsrRun ε' (Except ε α)) s = (.ok (outcome x s).1, (outcome x s).2) := rfl

@[simp] theorem outcome_bind (x : AsrRun ε α) (f : α → AsrRun ε β) (s : Option Moment) :
    outcome (x >>= f) s = match outcome x s with
      | (.ok a, s') => outcome (f a) s'
      | (.error e, s') => (.error e, s') := by
  unfold outcome
  cases h : x.run.run s with
  | mk r s' =>
    cases r with
    | ok a => exact run_bind_ok h
    | error e => exact run_bind_error h

theorem outcome_bind_ok {x : AsrRun ε α} {f : α → AsrRun ε β} {s s' : Option Moment} {b : β}
    (h : outcome (x >>= f) s = (.ok b, s')) :
    ∃ a s'', outcome x s = (.ok a, s'') ∧ outcome (f a) s'' = (.ok b, s') := by
  rw [outcome_bind] at h
  cases hx : outcome x s with
  | mk r s'' =>
    rw [hx] at h
    cases r with
    | ok a => exact ⟨a, s'', rfl, h⟩
    | error e => cases h

@[simp] theorem outcome_ite (p : Prop) [Decidable p] (x y : AsrRun ε α) (s : Option Moment) :
    outcome (if p then x else y) s = if p then outcome x s else outcome y s := by
  split <;> rfl

theorem isCancelled_mono {a b : Moment} (hab : a.index ≤ b.index) (h : host.isCancelled a = true) :
    host.isCancelled b = true := by
  unfold isCancelled at *
  cases ht : host.tripped with
  | none => simp [ht] at h
  | some t =>
    simp only [ht, decide_eq_true_eq] at *
    omega

theorem isCancelled_eq_false_of_le {a b : Moment} (h : host.isCancelled b = false)
    (hab : a.index ≤ b.index) : host.isCancelled a = false := by
  cases ha : host.isCancelled a with
  | false => rfl
  | true => rw [isCancelled_mono hab ha] at h; cases h

@[simp] theorem outcome_checkCancelled (m : Moment) (s : Option Moment) :
    outcome (host.checkCancelled m) s =
      (if host.isCancelled m then .error cancelled else .ok (), s) := by
  unfold checkCancelled
  split <;> rfl

end Runs

section Late

variable {ε α β : Type} (host)

@[simp] theorem isUserCancel_cancelled : isUserCancel cancelled = true := rfl

/-- A run that returns a value though the token has tripped before an engine has returned last. -/
def Late : Except ε α × Option Moment → Prop
  | (.ok _, s) => s.any host.isCancelled = true
  | (.error _, _) => False

/-- A run that fails after the token has tripped, with an error that does not tell. -/
def Hidden : Except LensError α × Option Moment → Prop
  | (.ok _, _) => False
  | (.error e, s) => isUserCancel e = false ∧ s.any host.isCancelled = true

variable {host}

@[simp] theorem late_ok {a : α} {s : Option Moment} :
    host.Late ((.ok a, s) : Except ε α × Option Moment) ↔ s.any host.isCancelled = true := Iff.rfl

@[simp] theorem late_error {e : ε} {s : Option Moment} :
    host.Late ((.error e, s) : Except ε α × Option Moment) ↔ False := Iff.rfl

theorem not_late_iff (r : Except ε α × Option Moment) :
    ¬ host.Late r ↔ ∀ t m, host.tripped = some t → r.2 = some m → t.index ≤ m.index →
      ∃ e, r.1 = .error e := by
  obtain ⟨e | a, s⟩ := r
  · exact ⟨fun _ _ _ _ _ _ => ⟨e, rfl⟩, fun _ h => h⟩
  · rw [late_ok, Option.any_eq_true]
    unfold isCancelled
    constructor
    · intro h t m ht hm hle
      apply absurd _ h
      refine ⟨m, hm, ?_⟩
      simp only [ht, decide_eq_true_eq]
      exact hle
    · rintro h ⟨m, hm, htrip⟩
      cases ht : host.tripped with
      | none => simp [ht] at htrip
      | some t =>
        simp only [ht, decide_eq_true_eq] at htrip
        obtain ⟨e, he⟩ := h t m ht hm htrip
        cases he

@[simp] theorem hidden_ok {a : α} {s : Option Moment} :
    host.Hidden ((.ok a, s) : Except LensError α × Option Moment) ↔ False := Iff.rfl

@[simp] theorem hidden_error {e : LensError} {s : Option Moment} :
    host.Hidden ((.error e, s) : Except LensError α × Option Moment) ↔
      isUserCancel e = false ∧ s.any host.isCancelled = true := Iff.rfl

@[simp] theorem late_bind_pure (x : AsrRun ε α) (f : α → β) (s : Option Moment) :
    host.Late (outcome (x >>= fun a => pure (f a)) s) ↔ host.Late (outcome x s) := by
  rw [outcome_bind]
  rcases outcome x s with ⟨e | a, s'⟩
  · exact Iff.rfl
  · exact Iff.rfl

theorem hidden_bind_pure (x : AsrRun LensError α) (f : α → β) (s : Option Moment) :
    host.Hidden (outcome (x >>= fun a => pure (f a)) s) ↔ host.Hidden (outcome x s) := by
  rw [outcome_bind]
  rcases outcome x s with ⟨e | a, s'⟩
  · exact Iff.rfl
  · exact Iff.rfl

/-- Another error is no other value. -/
theorem late_mapError {r : Except ε α} {f : ε → β} {s : Option Moment} :
    host.Late (r.mapError f, s) ↔ host.Late (r, s) := by
  cases r with
  | error e => exact Iff.rfl
  | ok a => exact Iff.rfl

end Late

section Whisper

variable {asr : AsrRest} {pcm : Pcm} {config : TranscribeConfig}

/-- The model returns segments. -/
structure Serves (host : AsrHost Pcm) (pcm : Pcm) (config : TranscribeConfig)
    (engine : WhisperEngine Pcm) : Prop where
  task : engine.taskFailure = none
  lock : engine.lock = .ok ()
  createState : engine.createState = .ok ()
  full : engine.full pcm (config.language.map langToWhisperCode) config.translate = .ok ()
  segments : ∃ segs, host.readSegments engine = .ok segs

/-- The local model is there and returns segments. -/
def WhisperServes (host : AsrHost Pcm) (asr : AsrRest) (pcm : Pcm) (config : TranscribeConfig) :
    Prop :=
  host.localWhisperBuilt = true ∧
    ∃ engine, host.whisperEngineFor asr = .ok engine ∧ host.Serves pcm config engine

/-- When and how the local model fails if no look at the token ends its run. -/
inductive WhisperFails (host : AsrHost Pcm) (asr : AsrRest) (pcm : Pcm)
    (config : TranscribeConfig) : Moment → LensError → Prop
  | load {e : LensError} (h : host.whisperEngineFor asr = .error e) :
      WhisperFails host asr pcm config .loaded e
  | task {engine : WhisperEngine Pcm} {m : Moment} {e : String}
      (h : host.whisperEngineFor asr = .ok engine) (htask : engine.taskFailure = some (m, e)) :
      WhisperFails host asr pcm config m (.transcription ("whisper inference task failed: " ++ e))
  | lock {engine : WhisperEngine Pcm} {e : String} (h : host.whisperEngineFor asr = .ok engine)
      (htask : engine.taskFailure = none) (hlock : engine.lock = .error e) :
      WhisperFails host asr pcm config .stateCreated
        (.transcription ("whisper context lock poisoned: " ++ e))
  | createState {engine : WhisperEngine Pcm} {e : String}
      (h : host.whisperEngineFor asr = .ok engine) (htask : engine.taskFailure = none)
      (hlock : engine.lock = .ok ()) (hstate : engine.createState = .error e) :
      WhisperFails host asr pcm config .stateCreated
        (.transcription ("failed to create whisper state: " ++ e))
  | read {engine : WhisperEngine Pcm} {e : LensError} (h : host.whisperEngineFor asr = .ok engine)
      (htask : engine.taskFailure = none) (hlock : engine.lock = .ok ())
      (hstate : engine.createState = .ok ())
      (hfull : engine.full pcm (config.language.map langToWhisperCode) config.translate = .ok ())
      (hlook : host.isCancelled .decodedChecked = false)
      (hread : host.readSegments engine = .error e) :
      WhisperFails host asr pcm config .segmentsRead e

/-- The local model fails after the token has tripped, and its error does not tell. -/
def WhisperHides (host : AsrHost Pcm) (asr : AsrRest) (pcm : Pcm) (config : TranscribeConfig) :
    Prop :=
  ∃ m e, host.WhisperFails asr pcm config m e ∧ isUserCancel e = false ∧ host.isCancelled m = true

theorem runInference_late_iff (engine : WhisperEngine Pcm) (htask : engine.taskFailure = none)
    (s : Option Moment) :
    host.Late (outcome (host.runInference pcm config engine) s) ↔
      host.Serves pcm config engine ∧ host.isCancelled .decodedChecked = false ∧
        host.isCancelled .segmentsRead = true := by
  have hserves : host.Serves pcm config engine ↔ engine.lock = .ok () ∧
      engine.createState = .ok () ∧
      engine.full pcm (config.language.map langToWhisperCode) config.translate = .ok () ∧
      ∃ segs, host.readSegments engine = .ok segs :=
    ⟨fun h => ⟨h.lock, h.createState, h.full, h.segments⟩,
      fun ⟨h, h', h'', h'''⟩ => ⟨htask, h, h', h'', h'''⟩⟩
  rw [hserves]
  unfold runInference
  simp only [outcome_bind, outcome_called, outcome_attempt]
  cases engine.lock with
  | error e => simp [Except.mapError]
  | ok _ =>
    cases engine.createState with
    | error e => simp [Except.mapError]
    | ok _ =>
      cases hc : host.isCancelled .decodedChecked with
      | true => simp [Except.mapError]
      | false =>
        cases engine.full pcm (config.language.map langToWhisperCode) config.translate with
        | error e => simp [Except.mapError]
        | ok _ =>
          cases host.readSegments engine with
          | error e => simp [Except.mapError]
          | ok segs => simp [Except.mapError]

theorem runInference_hidden (engine : WhisperEngine Pcm)
    (h : host.whisperEngineFor asr = .ok engine) (htask : engine.taskFailure = none) (s : Option Moment)
    (hh : host.Hidden (outcome (host.runInference pcm config engine) s)) :
    host.WhisperHides asr pcm config := by
  unfold runInference at hh
  simp only [outcome_bind, outcome_called, outcome_attempt] at hh
  cases hlock : engine.lock with
  | error e =>
    rw [hlock] at hh
    exact ⟨_, _, .lock h htask hlock, hh⟩
  | ok _ =>
    rw [hlock] at hh
    cases hstate : engine.createState with
    | error e =>
      rw [hstate] at hh
      exact ⟨_, _, .createState h htask hlock hstate, hh⟩
    | ok _ =>
      rw [hstate] at hh
      cases hc : host.isCancelled .decodedChecked with
      | true =>
        simp only [hc, if_pos] at hh
        exact absurd hh.1 (by decide)
      | false =>
        cases hfull : engine.full pcm (config.language.map langToWhisperCode) config.translate with
        | error e =>
          have hd := isCancelled_eq_false_of_le (a := .decoded) hc (by decide)
          simp [Except.mapError, hc, hfull, hd] at hh
        | ok _ =>
          cases hread : host.readSegments engine with
          | error e =>
            simp [Except.mapError, hc, hfull, hread] at hh
            exact ⟨_, _, .read h htask hlock hstate hfull hc hread, hh⟩
          | ok segs => simp [Except.mapError, hc, hfull, hread] at hh

/-- A look at the token that finds it untripped is no look. -/
theorem outcome_whisper (hbuilt : host.localWhisperBuilt = true)
    (hlook : host.isCancelled .whisperChecked = false) (s : Option Moment) :
    outcome (host.transcribeLocalWhisper asr pcm config) s =
      match host.whisperEngineFor asr with
      | .error e => (.error e, some .loaded)
      | .ok engine => outcome (host.transcribePcmCancellable pcm config engine) (some .loaded) := by
  unfold transcribeLocalWhisper
  rw [if_pos hbuilt]
  simp only [outcome_bind, outcome_checkCancelled, hlook, outcome_called]
  cases host.whisperEngineFor asr with
  | error e => rfl
  | ok engine => rfl

theorem outcome_whisper_cancelled (hbuilt : host.localWhisperBuilt = true)
    (hlook : host.isCancelled .whisperChecked = true) (s : Option Moment) :
    outcome (host.transcribeLocalWhisper asr pcm config) s = (.error cancelled, s) := by
  unfold transcribeLocalWhisper
  rw [if_pos hbuilt]
  simp only [outcome_bind, outcome_checkCancelled, hlook, if_pos]

theorem whisper_late_iff (s : Option Moment) :
    host.Late (outcome (host.transcribeLocalWhisper asr pcm config) s) ↔
      host.WhisperServes asr pcm config ∧ host.isCancelled .decodedChecked = false ∧
        host.isCancelled .segmentsRead = true := by
  unfold WhisperServes
  cases hbuilt : host.localWhisperBuilt with
  | false =>
    unfold transcribeLocalWhisper
    simp [hbuilt]
  | true =>
    cases hlook : host.isCancelled .whisperChecked with
    | true =>
      have hlast := isCancelled_mono (b := .decodedChecked) (by decide) hlook
      simp [outcome_whisper_cancelled hbuilt hlook, hlast]
    | false =>
      rw [outcome_whisper hbuilt hlook]
      cases host.whisperEngineFor asr with
      | error e => simp
      | ok engine =>
        unfold transcribePcmCancellable
        cases htask : engine.taskFailure with
        | some failure =>
          obtain ⟨m, e⟩ := failure
          have hno : ¬ host.Serves pcm config engine := by
            intro h
            rw [h.task] at htask
            cases htask
          simp [hno, htask]
        | none => simp [htask, runInference_late_iff]

theorem whisper_hidden_iff (hbuilt : host.localWhisperBuilt = true) (s : Option Moment) :
    host.Hidden (outcome (host.transcribeLocalWhisper asr pcm config) s) ↔
      host.isCancelled .whisperChecked = false ∧ host.WhisperHides asr pcm config := by
  cases hlook : host.isCancelled .whisperChecked with
  | true => simp [outcome_whisper_cancelled hbuilt hlook]
  | false =>
    rw [outcome_whisper hbuilt hlook]
    simp only [true_and]
    constructor
    · intro hh
      cases h : host.whisperEngineFor asr with
      | error e =>
        simp only [h, hidden_error, Option.any_some] at hh
        exact ⟨_, _, .load h, hh⟩
      | ok engine =>
        rw [h] at hh
        unfold transcribePcmCancellable at hh
        cases htask : engine.taskFailure with
        | some failure =>
          simp only [htask, outcome_called, hidden_error, Option.any_some] at hh
          exact ⟨_, _, .task h htask, hh⟩
        | none =>
          simp only [htask] at hh
          exact runInference_hidden engine h htask _ hh
    · intro ⟨m, e, hfails, hh⟩
      cases hfails with
      | load h => simpa [h] using hh
      | task h htask => simpa [h, transcribePcmCancellable, htask] using hh
      | lock h htask hlock =>
        simpa [h, transcribePcmCancellable, htask, runInference, hlock, Except.mapError] using hh
      | createState h htask hlock hstate =>
        simpa [h, transcribePcmCancellable, htask, runInference, hlock, hstate, Except.mapError]
          using hh
      | read h htask hlock hstate hfull hlast hread =>
        simpa [h, transcribePcmCancellable, htask, runInference, hlock, hstate, hfull, hlast, hread,
          Except.mapError] using hh

/-- The token trips after the last look of a local run that returns segments. -/
def WhisperLate (host : AsrHost Pcm) (asr : AsrRest) (pcm : Pcm) (config : TranscribeConfig) :
    Prop :=
  host.WhisperServes asr pcm config ∧ host.isCancelled .decodedChecked = false ∧
    host.isCancelled .segmentsRead = true

theorem WhisperLate.untripped (h : host.WhisperLate asr pcm config) {m : Moment}
    (hm : m.index ≤ Moment.decodedChecked.index) : host.isCancelled m = false :=
  isCancelled_eq_false_of_le h.2.1 hm

end Whisper

section Cascade

variable (host) (appConfig : AppConfig AsrRest) (pcm : Pcm) (config : TranscribeConfig)

/-- The provider answers with segments. -/
inductive CloudServes : TranscriptOutput → Prop
  | intro {provider : CloudAsrProvider} {output : TranscriptOutput}
      (hpreflight : host.preflightCheck appConfig = .ok ())
      (hprovider : appConfig.asr.cloudProvider = some provider)
      (h : host.cloud provider (trim appConfig.asr.cloudBaseUrl) (trim appConfig.asr.cloudModel)
        (trim appConfig.others.cloudApiKey) pcm config = .ok output) :
      CloudServes output

/-- The request is not made, or it fails. -/
inductive CloudFails : LensError → Prop
  | preflight {e : LensError} (h : host.preflightCheck appConfig = .error e) : CloudFails e
  | request {provider : CloudAsrProvider} {e : LensError}
      (hpreflight : host.preflightCheck appConfig = .ok ())
      (hprovider : appConfig.asr.cloudProvider = some provider)
      (h : host.cloud provider (trim appConfig.asr.cloudBaseUrl) (trim appConfig.asr.cloudModel)
        (trim appConfig.others.cloudApiKey) pcm config = .error e) :
      CloudFails e

variable {host appConfig pcm config}

theorem CloudServes.outcome {output : TranscriptOutput}
    (h : host.CloudServes appConfig pcm config output) (s : Option Moment) :
    outcome (host.cloudTranscribe appConfig pcm config) s =
      (.ok output.segments, some .cloudReturned) := by
  obtain ⟨hpreflight, hprovider, h⟩ := h
  unfold cloudTranscribe
  rw [hpreflight, hprovider]
  dsimp only
  rw [h]
  rfl

theorem CloudFails.outcome {e : LensError} (h : host.CloudFails appConfig pcm config e)
    (s : Option Moment) : ∃ cause s',
      outcome (host.cloudTranscribe appConfig pcm config) s = (.error (e, cause), s') := by
  unfold cloudTranscribe
  cases h with
  | preflight h =>
    rw [h]
    exact ⟨.misconfigured, s, rfl⟩
  | request hpreflight hprovider h =>
    rw [hpreflight, hprovider]
    dsimp only
    rw [h]
    exact ⟨if isKeyRejection e then .misconfigured else .transient, some .cloudReturned, rfl⟩

theorem preflightCheck_provider (h : host.preflightCheck appConfig = .ok ()) :
    ∃ provider, appConfig.asr.cloudProvider = some provider := by
  unfold preflightCheck at h
  cases hprovider : appConfig.asr.cloudProvider with
  | some provider => exact ⟨provider, rfl⟩
  | none =>
    simp only [hprovider, Option.isNone_none, if_pos] at h
    split at h
    · cases h
    · split at h
      · cases h
      · cases h

theorem cloud_serves_or_fails (host : AsrHost Pcm) (appConfig : AppConfig AsrRest) (pcm : Pcm)
    (config : TranscribeConfig) :
    (∃ output, host.CloudServes appConfig pcm config output) ∨
      ∃ e, host.CloudFails appConfig pcm config e := by
  cases hpreflight : host.preflightCheck appConfig with
  | error e => exact .inr ⟨e, .preflight hpreflight⟩
  | ok _ =>
    obtain ⟨provider, hprovider⟩ := preflightCheck_provider hpreflight
    cases h : host.cloud provider (trim appConfig.asr.cloudBaseUrl) (trim appConfig.asr.cloudModel)
        (trim appConfig.others.cloudApiKey) pcm config with
    | ok output => exact .inl ⟨output, hpreflight, hprovider, h⟩
    | error e => exact .inr ⟨e, .request hpreflight hprovider h⟩

/-- The run of a fallback ends like the run of the local model. -/
theorem whisperTranscript_late_iff (host : AsrHost Pcm) (appConfig : AppConfig AsrRest)
    (pcm : Pcm) (config : TranscribeConfig) (label : String) (s : Option Moment) :
    host.Late (outcome (host.whisperTranscript appConfig pcm config label) s) ↔
      host.WhisperLate appConfig.others pcm config := by
  unfold whisperTranscript
  rw [late_bind_pure]
  exact whisper_late_iff s

theorem whisperTranscript_hidden_iff (pcm : Pcm) (config : TranscribeConfig)
    (hava : host.localWhisperAvailable appConfig.others = true)
    (label : String) (s : Option Moment) :
    host.Hidden (outcome (host.whisperTranscript appConfig pcm config label) s) ↔
      host.isCancelled .whisperChecked = false ∧ host.WhisperHides appConfig.others pcm config := by
  unfold whisperTranscript
  rw [hidden_bind_pure]
  exact whisper_hidden_iff (Bool.and_eq_true_iff.mp hava).1 s

theorem outcome_appleChecked {engine : AppleEngine Pcm} {α : Type}
    (f : Except LensError TranscriptOutput → AsrRun LensError α) (s : Option Moment) :
    outcome (do
      let appleResult ← attempt (called .appleReturned (engine.transcribePcm pcm config))
      host.checkCancelled .appleChecked
      f appleResult) s =
    if host.isCancelled .appleChecked then (.error cancelled, some .appleReturned)
    else outcome (f (engine.transcribePcm pcm config)) (some .appleReturned) := by
  simp only [outcome_bind, outcome_attempt, outcome_called, outcome_checkCancelled]
  cases host.isCancelled .appleChecked with
  | true => rfl
  | false => rfl

/-- The local model is asked after the engine of Apple has failed. -/
def AppleFails (host : AsrHost Pcm) (pcm : Pcm) (config : TranscribeConfig) : Prop :=
  ∃ engine e, host.injected = some engine ∧ engine.transcribePcm pcm config = .error e ∧
    isUserCancel e = false

/-- The local model is asked because the engine of Apple is not sure. -/
def AppleUnsure (host : AsrHost Pcm) (appConfig : AppConfig AsrRest) (pcm : Pcm)
    (config : TranscribeConfig) : Prop :=
  ∃ engine output, host.injected = some engine ∧ engine.transcribePcm pcm config = .ok output ∧
    degraded appConfig output = true

theorem transcribeAppleNative_late_iff {engine : AppleEngine Pcm} (hi : host.injected = some engine)
    (s : Option Moment) :
    host.Late (outcome (host.transcribeAppleNative appConfig pcm config engine) s) ↔
      host.localWhisperAvailable appConfig.others = true ∧
        (host.AppleUnsure appConfig pcm config ∧ (host.WhisperLate appConfig.others pcm config ∨
            host.isCancelled .whisperChecked = false ∧
              host.WhisperHides appConfig.others pcm config) ∨
          host.AppleFails pcm config ∧ host.WhisperLate appConfig.others pcm config) := by
  unfold transcribeAppleNative AppleUnsure AppleFails
  rw [outcome_appleChecked]
  cases hlook : host.isCancelled .appleChecked with
  | true =>
    have hno : ¬ host.WhisperLate appConfig.others pcm config := by
      intro h
      rw [h.untripped (by decide)] at hlook
      cases hlook
    have hnext := isCancelled_mono (b := .whisperChecked) (by decide) hlook
    simp [hno, hnext]
  | false =>
    have hreturned := isCancelled_eq_false_of_le (a := .appleReturned) hlook (by decide)
    simp only [hi, Option.some.injEq, exists_and_left, exists_eq_left', Bool.false_eq_true,
      if_false]
    cases hr : engine.transcribePcm pcm config with
    | error e =>
      simp only [reduceCtorEq, false_and, exists_false, false_or, Except.error.injEq,
        exists_eq_left']
      cases hcancel : isUserCancel e with
      | true => simp
      | false =>
        cases hava : host.localWhisperAvailable appConfig.others with
        | true => simp [whisperTranscript_late_iff]
        | false => simp
    | ok output =>
      simp only [reduceCtorEq, false_and, exists_false, or_false, Except.ok.injEq,
        exists_eq_left']
      cases hunsure : degraded appConfig output with
      | false => simp [hreturned]
      | true =>
        cases hava : host.localWhisperAvailable appConfig.others with
        | false => simp [hreturned]
        | true =>
          simp only [Bool.and_self, if_true, true_and]
          have hlate := whisperTranscript_late_iff host appConfig pcm config
            "local_whisper (degraded)" (some .appleReturned)
          have hhidden := whisperTranscript_hidden_iff pcm config hava
            "local_whisper (degraded)" (some .appleReturned)
          rw [outcome_bind, outcome_attempt, ← hlate, ← hhidden]
          rcases outcome (host.whisperTranscript appConfig pcm config "local_whisper (degraded)")
            (some .appleReturned) with ⟨e | transcript, s'⟩
          · cases he : isUserCancel e with
            | true => simp [he]
            | false => simp [he]
          · simp

theorem cloudFallback_late_iff (cloudErr : LensError) (cause : CloudDegradeCause)
    (s : Option Moment) :
    host.Late (outcome (host.cloudFallbackToLocal appConfig pcm config cloudErr cause) s) ↔
      host.localWhisperAvailable appConfig.others = true ∧
        (host.injected = none ∨ host.AppleFails pcm config) ∧
          host.WhisperLate appConfig.others pcm config := by
  unfold cloudFallbackToLocal AppleFails
  cases hi : host.injected with
  | none =>
    cases hava : host.localWhisperAvailable appConfig.others with
    | false => simp
    | true =>
      have hwhisper := whisperTranscript_late_iff host appConfig pcm config cause.whisperLabel s
      simpa [late_mapError] using hwhisper
  | some engine =>
    dsimp only
    rw [outcome_appleChecked]
    cases hlook : host.isCancelled .appleChecked with
    | true =>
      have hno : ¬ host.WhisperLate appConfig.others pcm config := by
        intro h
        rw [h.untripped (by decide)] at hlook
        cases hlook
      simp [hno]
    | false =>
      have hreturned := isCancelled_eq_false_of_le (a := .appleReturned) hlook (by decide)
      cases hr : engine.transcribePcm pcm config with
      | ok output => simp [hr, hreturned]
      | error e =>
        cases hcancel : isUserCancel e with
        | true => simp [hr, hcancel]
        | false =>
          cases hava : host.localWhisperAvailable appConfig.others with
          | false => simp [hcancel]
          | true =>
            have hwhisper := whisperTranscript_late_iff host appConfig pcm config
              cause.whisperLabel (some .appleReturned)
            simpa [hr, hcancel, late_mapError] using hwhisper

theorem transcribeCloud_late_iff (s : Option Moment) :
    host.Late (outcome (host.transcribeCloud appConfig pcm config) s) ↔
      (∃ output, host.CloudServes appConfig pcm config output) ∧
          host.isCancelled .cloudPolled = false ∧ host.isCancelled .cloudReturned = true ∨
        (∃ e, host.CloudFails appConfig pcm config e ∧ isUserCancel e = false) ∧
          host.localWhisperAvailable appConfig.others = true ∧
            (host.injected = none ∨ host.AppleFails pcm config) ∧
              host.WhisperLate appConfig.others pcm config := by
  unfold transcribeCloud
  rw [outcome_bind, outcome_checkCancelled]
  cases hpolled : host.isCancelled .cloudPolled with
  | true =>
    have hno : ¬ host.WhisperLate appConfig.others pcm config := by
      intro h
      rw [h.untripped (by decide)] at hpolled
      cases hpolled
    simp [hno]
  | false =>
    simp only [Bool.false_eq_true, if_false, outcome_bind, outcome_attempt, true_and]
    rcases cloud_serves_or_fails host appConfig pcm config with ⟨output, hserves⟩ | ⟨e, hfails⟩
    · have hno : ∀ e, ¬ host.CloudFails appConfig pcm config e := by
        intro e h
        obtain ⟨cause, s', h⟩ := h.outcome s
        rw [hserves.outcome s] at h
        cases h
      rw [hserves.outcome s]
      simp [hno, Exists.intro output hserves]
    · have hno : ∀ output, ¬ host.CloudServes appConfig pcm config output := by
        intro output h
        obtain ⟨cause, s', hf⟩ := hfails.outcome s
        rw [h.outcome s] at hf
        cases hf
      have honly : ∀ e', host.CloudFails appConfig pcm config e' ↔ e = e' := by
        intro e'
        constructor
        · intro h
          obtain ⟨cause, s', hf⟩ := hfails.outcome s
          obtain ⟨cause', s'', hf'⟩ := h.outcome s
          rw [hf] at hf'
          cases hf'
          rfl
        · rintro rfl
          exact hfails
      obtain ⟨cause, s', hout⟩ := hfails.outcome s
      rw [hout]
      simp only [hno, honly, exists_false, false_and, false_or, exists_eq_left']
      cases hchecked : host.isCancelled .cloudChecked with
      | true =>
        have hlate : ¬ host.WhisperLate appConfig.others pcm config := by
          intro h
          rw [h.untripped (by decide)] at hchecked
          cases hchecked
        simp [hlate, hchecked]
      | false =>
        cases hcancel : isUserCancel e with
        | true => simp [hchecked]
        | false => simp [hchecked, cloudFallback_late_iff]

/-- The calls that a run makes in its course end with the local model. -/
inductive AsksWhisper (host : AsrHost Pcm) (appConfig : AppConfig AsrRest) (pcm : Pcm)
    (config : TranscribeConfig) : AsrBackend → Prop
  | direct : AsksWhisper host appConfig pcm config .localWhisper
  | noApple (hi : host.injected = none)
      (hava : host.localWhisperAvailable appConfig.others = true) :
      AsksWhisper host appConfig pcm config .appleNative
  | unsure (h : host.AppleUnsure appConfig pcm config)
      (hava : host.localWhisperAvailable appConfig.others = true) :
      AsksWhisper host appConfig pcm config .appleNative
  | appleFails (h : host.AppleFails pcm config)
      (hava : host.localWhisperAvailable appConfig.others = true) :
      AsksWhisper host appConfig pcm config .appleNative
  | cloudFails {e : LensError} (h : host.CloudFails appConfig pcm config e)
      (hcancel : isUserCancel e = false)
      (happle : host.injected = none ∨ host.AppleFails pcm config)
      (hava : host.localWhisperAvailable appConfig.others = true) :
      AsksWhisper host appConfig pcm config .cloud

/-- The token trips where a run that returns segments does not look any more: in the last poll of
the request, while Whisper's segments are read, or in a rerun that then fails. -/
inductive Overlooks (host : AsrHost Pcm) (appConfig : AppConfig AsrRest) (pcm : Pcm)
    (config : TranscribeConfig) : AsrBackend → Prop
  | polled {output : TranscriptOutput} (h : host.CloudServes appConfig pcm config output)
      (hlook : host.isCancelled .cloudPolled = false)
      (htrip : host.isCancelled .cloudReturned = true) :
      Overlooks host appConfig pcm config .cloud
  | read {backend : AsrBackend} (hasked : host.AsksWhisper appConfig pcm config backend)
      (h : host.WhisperServes appConfig.others pcm config)
      (hlook : host.isCancelled .decodedChecked = false)
      (htrip : host.isCancelled .segmentsRead = true) :
      Overlooks host appConfig pcm config backend
  | rerun (h : host.AppleUnsure appConfig pcm config)
      (hava : host.localWhisperAvailable appConfig.others = true)
      (hlook : host.isCancelled .whisperChecked = false)
      (htrip : host.WhisperHides appConfig.others pcm config) :
      Overlooks host appConfig pcm config .appleNative

theorem Overlooks.untripped {backend : AsrBackend}
    (h : host.Overlooks appConfig pcm config backend) : host.isCancelled .start = false := by
  cases h with
  | polled _ hlook _ => exact isCancelled_eq_false_of_le hlook (by decide)
  | read _ _ hlook _ => exact isCancelled_eq_false_of_le hlook (by decide)
  | rerun _ _ hlook _ => exact isCancelled_eq_false_of_le hlook (by decide)

theorem AppleUnsure.injected (h : host.AppleUnsure appConfig pcm config) :
    host.injected ≠ none := by
  obtain ⟨engine, _, hi, _⟩ := h
  rw [hi]
  exact nofun

theorem AppleFails.injected (h : host.AppleFails pcm config) : host.injected ≠ none := by
  obtain ⟨engine, _, hi, _⟩ := h
  rw [hi]
  exact nofun

theorem transcribe_late_iff (s : Option Moment) :
    host.Late (outcome (host.transcribe appConfig pcm config) s) ↔
      ∃ backend, host.resolveAsrRoute appConfig config.language config.translate = .ok backend ∧
        host.Overlooks appConfig pcm config backend := by
  unfold transcribe
  rw [outcome_bind, outcome_checkCancelled]
  cases hstart : host.isCancelled .start with
  | true =>
    have hno : ∀ backend, ¬ host.Overlooks appConfig pcm config backend := by
      intro backend h
      rw [h.untripped] at hstart
      cases hstart
    simp [hno]
  | false =>
    simp only [Bool.false_eq_true, if_false, outcome_bind, outcome_returning]
    cases hroute : host.resolveAsrRoute appConfig config.language config.translate with
    | error e => simp
    | ok backend =>
      simp only [Except.ok.injEq, exists_eq_left']
      cases backend with
      | localWhisper =>
        rw [whisperTranscript_late_iff]
        constructor
        · exact fun ⟨h, hlook, htrip⟩ => .read .direct h hlook htrip
        · intro h
          cases h with
          | read _ h hlook htrip => exact ⟨h, hlook, htrip⟩
      | cloud =>
        rw [transcribeCloud_late_iff]
        constructor
        · rintro (⟨⟨output, h⟩, hlook, htrip⟩ | ⟨⟨e, h, hcancel⟩, hava, happle, hw, hlook, htrip⟩)
          · exact .polled h hlook htrip
          · exact .read (.cloudFails h hcancel happle hava) hw hlook htrip
        · intro h
          cases h with
          | polled h hlook htrip => exact .inl ⟨⟨_, h⟩, hlook, htrip⟩
          | read hasked hw hlook htrip =>
            cases hasked with
            | cloudFails h hcancel happle hava =>
              exact .inr ⟨⟨_, h, hcancel⟩, hava, happle, hw, hlook, htrip⟩
      | appleNative =>
        cases hi : host.injected with
        | none =>
          have hunsure : ¬ host.AppleUnsure appConfig pcm config := fun h => h.injected hi
          have hfails : ¬ host.AppleFails pcm config := fun h => h.injected hi
          cases hava : host.localWhisperAvailable appConfig.others with
          | false =>
            simp only [Bool.false_eq_true, if_false, outcome_throw, late_error, false_iff]
            intro h
            cases h with
            | read hasked _ _ _ =>
              cases hasked with
              | noApple _ hava' =>
                rw [hava] at hava'
                cases hava'
              | unsure h _ => exact hunsure h
              | appleFails h _ => exact hfails h
            | rerun h _ _ _ => exact hunsure h
          | true =>
            simp only [if_true]
            rw [whisperTranscript_late_iff]
            constructor
            · exact fun ⟨h, hlook, htrip⟩ => .read (.noApple hi hava) h hlook htrip
            · intro h
              cases h with
              | read _ h hlook htrip => exact ⟨h, hlook, htrip⟩
              | rerun h _ _ _ => exact absurd h hunsure
        | some engine =>
          dsimp only
          rw [transcribeAppleNative_late_iff hi]
          constructor
          · intro ⟨hava, h⟩
            rcases h with ⟨hunsure, hlate⟩ | ⟨hfails, hw, hlook, htrip⟩
            · rcases hlate with ⟨hw, hlook, htrip⟩ | ⟨hlook, htrip⟩
              · exact .read (.unsure hunsure hava) hw hlook htrip
              · exact .rerun hunsure hava hlook htrip
            · exact .read (.appleFails hfails hava) hw hlook htrip
          · intro h
            cases h with
            | read hasked hw hlook htrip =>
              cases hasked with
              | noApple hnone _ =>
                rw [hnone] at hi
                cases hi
              | unsure h hava => exact ⟨hava, .inl ⟨h, .inl ⟨hw, hlook, htrip⟩⟩⟩
              | appleFails h hava => exact ⟨hava, .inr ⟨h, hw, hlook, htrip⟩⟩
            | rerun h hava hlook htrip => exact ⟨hava, .inl ⟨h, .inr ⟨hlook, htrip⟩⟩⟩

/-- A token that trips before the last call of an engine returns makes the run fail, exactly if the
run does not overlook it. -/
theorem transcribe_discards_iff (host : AsrHost Pcm) (appConfig : AppConfig AsrRest) (pcm : Pcm)
    (config : TranscribeConfig) :
    (∀ t m, host.tripped = some t →
        (outcome (host.transcribe appConfig pcm config) none).2 = some m → t.index ≤ m.index →
          ∃ e, (outcome (host.transcribe appConfig pcm config) none).1 = .error e) ↔
      ∀ backend, host.resolveAsrRoute appConfig config.language config.translate = .ok backend →
        ¬ host.Overlooks appConfig pcm config backend := by
  rw [← not_late_iff, transcribe_late_iff]
  constructor
  · exact fun h backend hroute hoverlooks => h ⟨backend, hroute, hoverlooks⟩
  · rintro h ⟨backend, hroute, hoverlooks⟩
    exact h backend hroute hoverlooks

end Cascade

section Examples

/-- An engine that is not sure of what it has heard. -/
def unsureEngine : AppleEngine Unit where
  supportsLocale := fun _ => .ok true
  transcribePcm := fun _ _ => .ok ⟨[⟨"hello".toList, some (.ofRat 0), some (.ofRat 1)⟩],
    some (some (.ofRat (1 / 4)))⟩

/-- The model file is broken, and the token trips while it is loaded. -/
def brokenModel : AsrHost Unit where
  injected := some unsureEngine
  localWhisperBuilt := true
  modelFile := fun _ => true
  modelFileAtLoad := fun _ => true
  cachedEngine := fun _ => none
  load := fun _ => .error (.transcription "failed to load whisper model: bad magic")
  cloud := fun _ _ _ _ _ _ => .error (.network "unreachable")
  isTransportSafeBaseUrl := fun _ => true
  seconds := fun _ => none
  tripped := some .loaded

def routedConfig : AppConfig AsrRest where
  dataDir := []
  cacheDir := none
  asr := ⟨[], none, [], []⟩
  audioCloudConsent := false
  chatModel := none
  others := ⟨"base".toList, [], some (.ofRat (1 / 2))⟩

theorem brokenModel_unsure :
    degraded routedConfig ⟨[⟨"hello".toList, some (.ofRat 0), some (.ofRat 1)⟩],
      some (some (.ofRat (1 / 4)))⟩ = true := by
  decide +kernel

/-- The transcript of Apple is returned though the token has tripped in the failing load. -/
theorem cancelled_rerun_kept :
    ¬ ∀ t m, brokenModel.tripped = some t →
      (outcome (brokenModel.transcribe routedConfig () ⟨none, false⟩) none).2 = some m →
        t.index ≤ m.index → ∃ e,
          (outcome (brokenModel.transcribe routedConfig () ⟨none, false⟩) none).1 = .error e := by
  rw [← not_late_iff, not_not]
  apply (transcribe_late_iff none).mpr
  refine ⟨.appleNative, rfl, .rerun ⟨unsureEngine, _, rfl, rfl, brokenModel_unsure⟩ ?_ ?_ ?_⟩
  · decide
  · decide
  · exact ⟨.loaded, _, .load rfl, by decide, by decide⟩

end Examples

end AsrHost

end LensLM
