import LensLM.TranscribeCancel

/-!
# Translated transcriptions

The engine of Apple cannot translate. The route knows it, the fallback of a cloud request does not.
-/

namespace LensLM

open ByteText Effects

set_option autoImplicit false

/-- The engine that a label names. -/
def labelledEngine (label : String) : Option AsrBackend :=
  AsrBackend.fromOptStr (some (label.toList.takeWhile fun c => c ≠ ' '))

namespace AsrHost

variable {Pcm : Type} {host : AsrHost Pcm} {appConfig : AppConfig AsrRest} {pcm : Pcm}
  {config : TranscribeConfig}

section Labels

/-- The label names the engine. -/
def Named (r : EngineTranscript × String) : Prop := labelledEngine r.2 = some r.1.engine

theorem CloudDegradeCause.appleLabel_named (cause : CloudDegradeCause) :
    labelledEngine cause.appleLabel = some .appleNative := by
  cases cause with
  | misconfigured => decide
  | transient => decide

theorem CloudDegradeCause.whisperLabel_named (cause : CloudDegradeCause) :
    labelledEngine cause.whisperLabel = some .localWhisper := by
  cases cause with
  | misconfigured => decide
  | transient => decide

/-- The local model serves with a label of its own. -/
theorem whisperTranscript_ok {label : String} (hlabel : labelledEngine label = some .localWhisper)
    {s s' : Option Moment} {r : EngineTranscript × String}
    (h : outcome (host.whisperTranscript appConfig pcm config label) s = (.ok r, s')) :
    r.1.engine = .localWhisper ∧ Named r := by
  unfold whisperTranscript at h
  obtain ⟨segs, s'', _, h⟩ := outcome_bind_ok h
  cases h
  exact ⟨rfl, hlabel⟩

/-- The engine of Apple serves. -/
def AppleServes (host : AsrHost Pcm) (pcm : Pcm) (config : TranscribeConfig) : Prop :=
  ∃ engine output, host.injected = some engine ∧ engine.transcribePcm pcm config = .ok output ∧
    host.isCancelled .appleChecked = false

/-- A run that asks the engine of Apple first. -/
theorem appleChecked_ok {engine : AppleEngine Pcm} {α : Type}
    {f : Except LensError TranscriptOutput → AsrRun LensError α} {s s' : Option Moment} {a : α}
    (h : outcome (do
      let appleResult ← attempt (called .appleReturned (engine.transcribePcm pcm config))
      host.checkCancelled .appleChecked
      f appleResult) s = (.ok a, s')) :
    host.isCancelled .appleChecked = false ∧
      outcome (f (engine.transcribePcm pcm config)) (some .appleReturned) = (.ok a, s') := by
  rw [outcome_appleChecked] at h
  cases hlook : host.isCancelled .appleChecked with
  | true =>
    rw [hlook] at h
    cases h
  | false =>
    rw [hlook] at h
    exact ⟨rfl, h⟩

theorem rerun_ok {x : AsrRun LensError (EngineTranscript × String)} {f : LensError → LensError}
    {s s' : Option Moment} {r : EngineTranscript × String}
    (h : outcome (do
      let rerun ← attempt x
      (returning (rerun.mapError f) : AsrRun LensError (EngineTranscript × String))) s =
        (.ok r, s')) :
    outcome x s = (.ok r, s') := by
  obtain ⟨rerun, s'', hx, h⟩ := outcome_bind_ok h
  rw [outcome_attempt] at hx
  cases hx
  rw [outcome_returning] at h
  cases hr : outcome x s with
  | mk r' s'' =>
    rw [hr] at h
    cases r' with
    | ok r' => exact h
    | error e => cases h

theorem cloudFallback_ok {cloudErr : LensError} {cause : CloudDegradeCause} {s s' : Option Moment}
    {r : EngineTranscript × String}
    (h : outcome (host.cloudFallbackToLocal appConfig pcm config cloudErr cause) s = (.ok r, s')) :
    (r.1.engine = .appleNative → host.AppleServes pcm config) ∧ Named r := by
  unfold cloudFallbackToLocal at h
  cases hi : host.injected with
  | none =>
    simp only [hi] at h
    split at h
    · obtain ⟨hengine, hnamed⟩ := whisperTranscript_ok cause.whisperLabel_named (rerun_ok h)
      refine ⟨fun happle => ?_, hnamed⟩
      rw [hengine] at happle
      cases happle
    · cases h
  | some engine =>
    simp only [hi] at h
    obtain ⟨hlook, h⟩ := appleChecked_ok h
    cases hr : engine.transcribePcm pcm config with
    | ok output =>
      rw [hr] at h
      cases h
      exact ⟨fun _ => ⟨engine, output, hi, hr, hlook⟩, cause.appleLabel_named⟩
    | error e =>
      simp only [hr] at h
      split at h
      · obtain ⟨hengine, hnamed⟩ := whisperTranscript_ok cause.whisperLabel_named (rerun_ok h)
        refine ⟨fun happle => ?_, hnamed⟩
        rw [hengine] at happle
        cases happle
      · cases h

theorem transcribeAppleNative_ok {engine : AppleEngine Pcm} {s s' : Option Moment}
    {r : EngineTranscript × String}
    (h : outcome (host.transcribeAppleNative appConfig pcm config engine) s = (.ok r, s')) :
    Named r := by
  unfold transcribeAppleNative at h
  obtain ⟨_, h⟩ := appleChecked_ok h
  cases hr : engine.transcribePcm pcm config with
  | error e =>
    simp only [hr] at h
    split at h
    · exact (whisperTranscript_ok (by decide) h).2
    · cases h
  | ok output =>
    simp only [hr] at h
    split at h
    · obtain ⟨rerun, s'', hrerun, h⟩ := outcome_bind_ok h
      rw [outcome_attempt] at hrerun
      cases hw : outcome (host.whisperTranscript appConfig pcm config "local_whisper (degraded)")
        (some .appleReturned) with
      | mk r' t =>
        rw [hw] at hrerun
        cases hrerun
        cases r' with
        | ok transcript =>
          cases h
          exact (whisperTranscript_ok (by decide) hw).2
        | error e =>
          simp only [outcome_ite, outcome_throw, outcome_pure] at h
          split at h
          · cases h
          · cases h
            show labelledEngine "apple_native (degraded)" = some .appleNative
            decide
    · cases h
      show labelledEngine "apple_native" = some .appleNative
      decide

end Labels

section Translation

/-- Left to the router, a clip stays on the device. -/
theorem selectAsrBackend_none (platform : Platform) (available supports : Bool) :
    selectAsrBackend none platform available supports = .localWhisper ∨
      selectAsrBackend none platform available supports = .appleNative := by
  unfold selectAsrBackend
  dsimp only
  split
  · exact .inl rfl
  · split
    · exact .inl rfl
    · split
      · exact .inl rfl
      · exact .inr rfl

/-- The route of a translation is never the engine of Apple, and asks nobody. -/
theorem resolveAsrRoute_translate (host : AsrHost Pcm) (appConfig : AppConfig AsrRest)
    (language : Option Lang) :
    host.resolveAsrRoute appConfig language true =
      .ok (if configBackend appConfig = some .cloud then .cloud else .localWhisper) := by
  have hsupports : host.appleSupportsLocale appConfig language true = .ok true := by
    unfold appleSupportsLocale
    split
    · simp
    · rfl
  unfold resolveAsrRoute
  rw [hsupports]
  show (.ok (if (true && decide (selectAsrBackend (configBackend appConfig) host.platform
    host.injected.isSome true = .appleNative)) = true then .localWhisper else _) :
      Except LensError AsrBackend) = _
  cases hb : configBackend appConfig with
  | some backend =>
    cases backend with
    | appleNative => rfl
    | localWhisper => rfl
    | cloud => rfl
  | none =>
    rcases selectAsrBackend_none host.platform host.injected.isSome true with h | h
    · simp [h]
    · simp [h]

/-- A translation that a cloud provider has failed goes to the engine of Apple, which returns. -/
structure HandsToApple (host : AsrHost Pcm) (appConfig : AppConfig AsrRest) (pcm : Pcm)
    (config : TranscribeConfig) : Prop where
  translate : config.translate = true
  backend : configBackend appConfig = some .cloud
  cloud : ∃ e, host.CloudFails appConfig pcm config e ∧ isUserCancel e = false
  apple : host.AppleServes pcm config

theorem transcribe_ok {s s' : Option Moment} {r : EngineTranscript × String}
    (h : outcome (host.transcribe appConfig pcm config) s = (.ok r, s')) :
    (config.translate = true → r.1.engine = .appleNative →
      host.HandsToApple appConfig pcm config) ∧ Named r := by
  unfold transcribe at h
  obtain ⟨_, _, _, h⟩ := outcome_bind_ok h
  obtain ⟨backend, _, hroute, h⟩ := outcome_bind_ok h
  rw [outcome_returning] at hroute
  have hroute : host.resolveAsrRoute appConfig config.language config.translate = .ok backend :=
    congrArg Prod.fst hroute
  have hcloud : config.translate = true →
      (if configBackend appConfig = some .cloud then AsrBackend.cloud else .localWhisper) =
        backend := by
    intro htranslate
    rw [htranslate, resolveAsrRoute_translate] at hroute
    exact Except.ok.inj hroute
  cases backend with
  | localWhisper =>
    obtain ⟨hengine, hnamed⟩ := whisperTranscript_ok (by decide) h
    refine ⟨fun _ happle => ?_, hnamed⟩
    rw [hengine] at happle
    cases happle
  | appleNative =>
    have hno : config.translate = true → False := by
      intro htranslate
      have hroute := hcloud htranslate
      split at hroute
      · cases hroute
      · cases hroute
    refine ⟨fun htranslate => (hno htranslate).elim, ?_⟩
    cases hi : host.injected with
    | some engine =>
      simp only [hi] at h
      exact transcribeAppleNative_ok h
    | none =>
      simp only [hi] at h
      split at h
      · exact (whisperTranscript_ok (by decide) h).2
      · cases h
  | cloud =>
    unfold transcribeCloud at h
    obtain ⟨_, polled, _, h⟩ := outcome_bind_ok h
    obtain ⟨cloudResult, t, hresult, h⟩ := outcome_bind_ok h
    rw [outcome_attempt] at hresult
    rcases cloud_serves_or_fails host appConfig pcm config with ⟨output, hserves⟩ | ⟨e, hfails⟩
    · rw [hserves.outcome] at hresult
      cases hresult
      cases h
      refine ⟨nofun, ?_⟩
      show labelledEngine "cloud" = some .cloud
      decide
    · obtain ⟨cause, t', hout⟩ := hfails.outcome polled
      rw [hout] at hresult
      cases hresult
      obtain ⟨_, _, _, h⟩ := outcome_bind_ok h
      cases hcancel : isUserCancel e with
      | true =>
        rw [hcancel] at h
        cases h
      | false =>
        rw [hcancel] at h
        obtain ⟨happle, hnamed⟩ := cloudFallback_ok h
        refine ⟨fun htranslate hengine => ⟨htranslate, ?_, ⟨e, hfails, hcancel⟩, happle hengine⟩,
          hnamed⟩
        have hroute := hcloud htranslate
        split at hroute
        · assumption
        · cases hroute

theorem HandsToApple.served (h : host.HandsToApple appConfig pcm config) (s : Option Moment) :
    ∃ r s', outcome (host.transcribe appConfig pcm config) s = (.ok r, s') ∧
      r.1.engine = .appleNative := by
  obtain ⟨htranslate, hbackend, ⟨e, hfails, hcancel⟩, engine, output, hi, hr, hlook⟩ := h
  have hstart := isCancelled_eq_false_of_le (a := .start) hlook (by decide)
  have hpolled := isCancelled_eq_false_of_le (a := .cloudPolled) hlook (by decide)
  have hchecked := isCancelled_eq_false_of_le (a := .cloudChecked) hlook (by decide)
  have hroute : host.resolveAsrRoute appConfig config.language config.translate = .ok .cloud := by
    rw [htranslate, resolveAsrRoute_translate, if_pos hbackend]
  obtain ⟨cause, s', hout⟩ := hfails.outcome s
  refine ⟨(⟨.appleNative, output.segments⟩, cause.appleLabel), some .appleReturned, ?_, rfl⟩
  unfold transcribe transcribeCloud cloudFallbackToLocal
  simp [hstart, hroute, hpolled, hout, hchecked, hcancel, hi, hr, hlook, -bind_pure_comp]

/-- The label of a run names the engine that has served it, and a translation is served by another
one than Apple's, exactly if a failed cloud request does not hand it to that. -/
theorem transcribe_translates_iff (host : AsrHost Pcm) (appConfig : AppConfig AsrRest) (pcm : Pcm)
    (config : TranscribeConfig) :
    (∀ transcript label,
      (outcome (host.transcribe appConfig pcm config) none).1 = .ok (transcript, label) →
        (config.translate = true → transcript.engine ≠ .appleNative) ∧
          labelledEngine label = some transcript.engine) ↔
      ¬ host.HandsToApple appConfig pcm config := by
  constructor
  · intro h hhands
    obtain ⟨r, s', hout, hengine⟩ := hhands.served none
    rw [hout] at h
    exact (h r.1 r.2 rfl).1 hhands.translate hengine
  · intro hno transcript label h
    have hout : outcome (host.transcribe appConfig pcm config) none =
        (.ok (transcript, label), (outcome (host.transcribe appConfig pcm config) none).2) :=
      Prod.ext h rfl
    obtain ⟨hhands, hnamed⟩ := transcribe_ok hout
    exact ⟨fun htranslate hengine => hno (hhands htranslate hengine), hnamed⟩

/-- A translation that is reported as Apple's is one that a cloud request would have to serve
which cannot be made. -/
theorem resolveAsrBackendWith_translate (language : Option Lang) :
    host.resolveAsrBackendWith appConfig language true = .ok .appleNative ↔
      configBackend appConfig = some .cloud ∧ host.injected.isSome = true ∧
        ∃ e, host.preflightCheck appConfig = .error e := by
  have hrun : host.resolveAsrBackendWith appConfig language true =
      .ok (host.demoteUnrunnableBackend appConfig
        (if configBackend appConfig = some .cloud then .cloud else .localWhisper)
        host.injected.isSome) := by
    unfold resolveAsrBackendWith
    rw [resolveAsrRoute_translate]
    rfl
  rw [hrun, Except.ok.injEq]
  by_cases hcloud : configBackend appConfig = some .cloud
  · rw [if_pos hcloud]
    unfold demoteUnrunnableBackend
    cases host.preflightCheck appConfig with
    | ok _ => simp
    | error e => simp [hcloud, Option.isSome_iff_ne_none]
  · rw [if_neg hcloud]
    simp [demoteUnrunnableBackend, hcloud]

end Translation

section Examples

/-- The provider cannot be reached, and the engine of Apple is there. -/
def unreachableCloud : AsrHost Unit where
  injected := some unsureEngine
  localWhisperBuilt := false
  modelFile := fun _ => false
  modelFileAtLoad := fun _ => false
  cachedEngine := fun _ => none
  load := fun _ => .error (.transcription "no model")
  cloud := fun _ _ _ _ _ _ => .error (.network "cloud ASR rate limited")
  isTransportSafeBaseUrl := fun _ => true
  seconds := fun _ => none
  tripped := none

def cloudConfig : AppConfig AsrRest where
  dataDir := []
  cacheDir := none
  asr := ⟨"cloud".toList, some .deepgram, "https://api.deepgram.com".toList, "nova-3".toList⟩
  audioCloudConsent := true
  chatModel := none
  others := ⟨"base".toList, "key".toList, some (.ofRat 0)⟩

def toEnglish : TranscribeConfig := ⟨none, true⟩

/-- What was to be translated comes back as Apple has heard it. -/
theorem translation_handed_to_apple :
    ¬ ∀ transcript label,
      (outcome (unreachableCloud.transcribe cloudConfig () toEnglish) none).1 =
          .ok (transcript, label) →
        (toEnglish.translate = true → transcript.engine ≠ .appleNative) ∧
          labelledEngine label = some transcript.engine := by
  have hhands : unreachableCloud.HandsToApple cloudConfig () toEnglish := by
    refine ⟨rfl, by decide, ⟨.network "cloud ASR rate limited", ?_, rfl⟩, ?_⟩
    · exact .request (by decide) rfl rfl
    · exact ⟨unsureEngine, _, rfl, rfl, rfl⟩
  obtain ⟨r, s', hout, hengine⟩ := hhands.served none
  intro h
  rw [hout] at h
  exact (h r.1 r.2 rfl).1 rfl hengine

end Examples

end AsrHost

end LensLM
