import LensLM.Settings

/-!
# The providers of language models

The configured models are entries of a list, which may repeat and may be filled in by half. A
provider is built from the first entry that the routing or a pin selects and that is usable.
-/

namespace LensLM

open ByteText

set_option autoImplicit false

section Config

structure ModelConfig where
  provider : Str
  baseUrl : Str
  model : Str
  context : Nat
  temperature : Rat
  apiKey : Str
deriving DecidableEq

inductive LlmRouting where
  | cloudFirst
  | localFirst
  | explicit (provider model : Str)
deriving DecidableEq

/-- The settings that the providers depend on, but for the pinned chat model. -/
structure LlmSettings where
  models : List ModelConfig
  routing : LlmRouting
  enabled : Bool
  corefModel : Option TaskModel
  mapModel : Option TaskModel
  cloudConsent : Bool
deriving DecidableEq

abbrev LlmConfig := AppConfig LlmSettings

end Config

section Ids

def toAsciiLowercase (s : Str) : Str := s.map Char.toLower

def providerOllama : Str := "ollama".toList
def providerOpenaiCompat : Str := "openai-compatible".toList
def providerOpenai : Str := "openai".toList
def providerAnthropic : Str := "anthropic".toList
def providerGoogle : Str := "google".toList
def providerGlm : Str := "glm".toList
def providerZai : Str := "zai".toList
def providerOllamaCloud : Str := "ollama-cloud".toList
def providerGroq : Str := "groq".toList
def providerDeepseek : Str := "deepseek".toList
def providerXai : Str := "xai".toList
def providerCohere : Str := "cohere".toList

def isLocalProvider (provider : Str) : Bool := provider = providerOllama

def providerHasDefaultHost (provider : Str) : Bool :=
  provider ∈ [providerOllamaCloud, providerAnthropic, providerGoogle, providerOpenai, providerZai,
    providerGlm, providerGroq, providerDeepseek, providerXai, providerCohere]

def isKnownProvider (provider : Str) : Bool :=
  provider ∈ [providerOllama, providerOllamaCloud, providerAnthropic, providerGoogle,
    providerOpenai, providerZai, providerGlm, providerGroq, providerDeepseek, providerXai,
    providerCohere, providerOpenaiCompat]

def requiresExplicitBaseUrl (provider : Str) : Bool := !providerHasDefaultHost provider

end Ids

section Build

inductive RigModel where
  | ollama
  | openAi
  | anthropic
  | gemini
  | zai
  | groq
  | deepSeek
  | xai
  | cohere
deriving DecidableEq, Repr

structure LlmProvider where
  model : RigModel
  modelId : Str
  baseUrl : Str
  apiKey : Str
  isLocalOllama : Bool
deriving DecidableEq

/-- A provider is on the device, so that no text leaves it. -/
def LlmProvider.isLocal (p : LlmProvider) : Bool := p.isLocalOllama

/-- Whether the client of a provider can be built: its kind, its endpoint and its key. -/
abbrev ClientBuilds := RigModel → Str → Str → Bool

variable (builds : ClientBuilds)

def ollamaDefaultBaseUrl : Str := "http://localhost:11434".toList
def ollamaCloudDefaultBaseUrl : Str := "https://ollama.com".toList

def buildOllama (model baseUrl apiKey : Str) (isLocal : Bool) : Option LlmProvider :=
  let base :=
    if baseUrl.isEmpty then if isLocal then ollamaDefaultBaseUrl else ollamaCloudDefaultBaseUrl
    else baseUrl
  if builds .ollama base apiKey then some ⟨.ollama, model, base, apiKey, isLocal⟩ else none

def cloudCtor (kind : RigModel) (model baseUrl apiKey : Str) : Option LlmProvider :=
  if builds kind baseUrl apiKey then some ⟨kind, model, baseUrl, apiKey, false⟩ else none

def openaiCompatible (model baseUrl apiKey : Str) : Option LlmProvider :=
  if baseUrl.isEmpty then none else cloudCtor builds .openAi model baseUrl apiKey

/-- The constructor that an id stands for. -/
def constructors : List (Str × (Str → Str → Str → Option LlmProvider)) := [
  (providerOllama, fun model baseUrl apiKey => buildOllama builds model baseUrl apiKey true),
  (providerOllamaCloud, fun model baseUrl apiKey => buildOllama builds model baseUrl apiKey false),
  (providerOpenai, cloudCtor builds .openAi),
  (providerOpenaiCompat, openaiCompatible builds),
  (providerAnthropic, cloudCtor builds .anthropic),
  (providerGoogle, cloudCtor builds .gemini),
  (providerZai, cloudCtor builds .zai),
  (providerGlm, cloudCtor builds .zai),
  (providerGroq, cloudCtor builds .groq),
  (providerDeepseek, cloudCtor builds .deepSeek),
  (providerXai, cloudCtor builds .xai),
  (providerCohere, cloudCtor builds .cohere)]

/-- The error of an unknown id, and that of a client that cannot be built, are logged only. -/
def constructProvider (provider model baseUrl apiKey : Str) : Option LlmProvider :=
  ((constructors builds).lookup provider).bind fun ctor => ctor model baseUrl apiKey

namespace ModelConfig

def hasEndpoint (m : ModelConfig) : Bool :=
  !m.baseUrl.isEmpty || !requiresExplicitBaseUrl (toAsciiLowercase m.provider)

def isLocal (m : ModelConfig) : Bool := isLocalProvider (toAsciiLowercase m.provider)

/-- A local provider needs no consent, every other one does. -/
def buildEligible (m : ModelConfig) (cloudConsent : Bool) : Bool :=
  let provider := toAsciiLowercase m.provider
  if !isKnownProvider provider then false
  else if isLocalProvider provider then true
  else if !cloudConsent then false
  else !m.model.isEmpty

def usable (m : ModelConfig) (cloudConsent : Bool) : Bool :=
  m.hasEndpoint && !m.model.isEmpty && m.buildEligible cloudConsent

end ModelConfig

def buildProvider (m : ModelConfig) : Option LlmProvider :=
  if m.model.isEmpty then none
  else
    let provider := toAsciiLowercase m.provider
    if !isKnownProvider provider then none
    else if m.baseUrl.isEmpty && requiresExplicitBaseUrl provider then none
    else constructProvider builds provider m.model m.baseUrl m.apiKey

end Build

section Select

variable (builds : ClientBuilds)

def buildPinnedProvider (provider model : Str) (models : List ModelConfig) (cloudConsent : Bool) :
    Option LlmProvider :=
  let wantProvider := toAsciiLowercase provider
  (models.find? fun m => toAsciiLowercase m.provider = wantProvider && m.model = model &&
    m.hasEndpoint && !m.model.isEmpty && m.buildEligible cloudConsent).bind (buildProvider builds)

/-- The first usable entry that can be built, the local ones before or after the others. -/
def selectProvider (models : List ModelConfig) (routing : LlmRouting) (cloudConsent : Bool) :
    Option LlmProvider :=
  let cloud := models.filter fun m => !m.isLocal && m.usable cloudConsent
  let locals := models.filter fun m => m.isLocal && m.usable cloudConsent
  match routing with
  | .explicit provider model => buildPinnedProvider builds provider model models cloudConsent
  | .cloudFirst => (cloud ++ locals).findSome? (buildProvider builds)
  | .localFirst => (locals ++ cloud).findSome? (buildProvider builds)

def providerFromConfig (config : LlmConfig) (cloudConsent : Bool) : Option LlmProvider :=
  selectProvider builds config.others.models config.others.routing cloudConsent

/-- A pinned chat model that cannot be used is not replaced by another one. -/
def chatProviderFromConfig (config : LlmConfig) (cloudConsent : Bool) : Option LlmProvider :=
  match config.chatModel with
  | some chatModel =>
    buildPinnedProvider builds chatModel.provider chatModel.model config.others.models cloudConsent
  | none => providerFromConfig builds config cloudConsent

/-- The entry of the model itself comes before those of its provider. -/
def taskEntry (taskModel : TaskModel) (models : List ModelConfig) : Option ModelConfig :=
  let wantProvider := toAsciiLowercase taskModel.provider
  (models.find? fun m => toAsciiLowercase m.provider = wantProvider && m.model = taskModel.model &&
    m.hasEndpoint).or
  (models.find? fun m => toAsciiLowercase m.provider = wantProvider && m.hasEndpoint)

def buildTaskProvider (taskModel : TaskModel) (models : List ModelConfig) (cloudConsent : Bool) :
    Option LlmProvider :=
  let wantProvider := toAsciiLowercase taskModel.provider
  if !isKnownProvider wantProvider then none
  else match taskEntry taskModel models with
    | none => none
    | some entry =>
      if isLocalProvider wantProvider then
        if taskModel.model.isEmpty then none
        else constructProvider builds wantProvider taskModel.model entry.baseUrl entry.apiKey
      else if !cloudConsent || taskModel.model.isEmpty then none
      else constructProvider builds wantProvider taskModel.model entry.baseUrl entry.apiKey

def taskProviderFromConfig (base : LlmProvider) (taskModel : Option TaskModel)
    (models : List ModelConfig) (cloudConsent : Bool) : LlmProvider :=
  (taskModel.bind fun t => buildTaskProvider builds t models cloudConsent).getD base

end Select

section Candidates

structure ActiveModelCandidate where
  provider : Str
  model : Str
  label : Str
  available : Bool
  reason : Option Str
deriving DecidableEq

def providerDisplayName (provider : Str) : Str :=
  let id := toAsciiLowercase provider
  if id = providerOllama then "Ollama".toList
  else if id = providerOllamaCloud then "Ollama Cloud".toList
  else if id = providerOpenai then "OpenAI".toList
  else if id = providerAnthropic then "Anthropic".toList
  else if id = providerGoogle then "Google".toList
  else if id = providerZai ∨ id = providerGlm then "Z.ai".toList
  else if id = providerGroq then "Groq".toList
  else if id = providerDeepseek then "DeepSeek".toList
  else if id = providerXai then "xAI".toList
  else if id = providerCohere then "Cohere".toList
  else if id = providerOpenaiCompat then "OpenAI-compatible".toList
  else provider

def candidateLabel (provider model : Str) : Str :=
  let name := providerDisplayName provider
  if model.isEmpty then name else name ++ " · ".toList ++ model

def candidateUnavailableReason (m : ModelConfig) (cloudConsent : Bool) : Option Str :=
  if !m.hasEndpoint then some "base URL required".toList
  else if m.buildEligible cloudConsent then none
  else some "cloud consent required".toList

def candidate (m : ModelConfig) (cloudConsent : Bool) : ActiveModelCandidate :=
  let reason := candidateUnavailableReason m cloudConsent
  { provider := m.provider
    model := m.model
    label := candidateLabel m.provider m.model
    available := reason.isNone
    reason }

/-- The entries that can be pinned, each with what stands in the way of its use. -/
def activeModelCandidates (config : LlmConfig) (cloudConsent : Bool) : List ActiveModelCandidate :=
  ((config.others.models.filter fun m => !m.model.isEmpty).filter fun m =>
    isKnownProvider (toAsciiLowercase m.provider)).map (candidate · cloudConsent)

end Candidates

section Built

variable {builds : ClientBuilds} {cloudConsent : Bool}

theorem candidate_available (m : ModelConfig) :
    (candidate m cloudConsent).available = (m.hasEndpoint && m.buildEligible cloudConsent) := by
  unfold candidate candidateUnavailableReason
  cases m.hasEndpoint with
  | false => rfl
  | true =>
    cases m.buildEligible cloudConsent with
    | false => rfl
    | true => rfl

theorem buildEligible_known {m : ModelConfig} (h : m.buildEligible cloudConsent = true) :
    isKnownProvider (toAsciiLowercase m.provider) = true := by
  unfold ModelConfig.buildEligible at h
  by_contra hk
  simp [hk] at h

/-- Without consent only a local provider is eligible. -/
theorem buildEligible_local {m : ModelConfig} (h : m.buildEligible cloudConsent = true) :
    m.isLocal = true ∨ cloudConsent = true := by
  unfold ModelConfig.buildEligible at h
  unfold ModelConfig.isLocal
  cases hl : isLocalProvider (toAsciiLowercase m.provider) with
  | true => exact .inl rfl
  | false =>
    right
    cases cloudConsent with
    | true => rfl
    | false => simp [hl] at h

/-- Eligibility depends on the pair that an entry is pinned by. -/
theorem buildEligible_congr {m m' : ModelConfig}
    (hp : toAsciiLowercase m.provider = toAsciiLowercase m'.provider) (hm : m.model = m'.model) :
    m.buildEligible cloudConsent = m'.buildEligible cloudConsent := by
  unfold ModelConfig.buildEligible
  rw [hp, hm]

theorem cloudCtor_of {kind : RigModel} {model baseUrl apiKey : Str} {p : LlmProvider}
    (h : cloudCtor builds kind model baseUrl apiKey = some p) :
    p.isLocal = false ∧ p.modelId = model := by
  unfold cloudCtor at h
  obtain ⟨_, hp⟩ := Option.ite_none_right_eq_some.mp h
  cases hp
  exact ⟨rfl, rfl⟩

theorem buildOllama_of {model baseUrl apiKey : Str} {isLocal : Bool} {p : LlmProvider}
    (h : buildOllama builds model baseUrl apiKey isLocal = some p) :
    p.isLocal = isLocal ∧ p.modelId = model := by
  unfold buildOllama at h
  obtain ⟨_, hp⟩ := Option.ite_none_right_eq_some.mp h
  cases hp
  exact ⟨rfl, rfl⟩

theorem lookup_mem {α β : Type} [BEq α] [LawfulBEq α] {xs : List (α × β)} {a : α} {b : β}
    (h : xs.lookup a = some b) : (a, b) ∈ xs := by
  obtain ⟨l, r, heq, _⟩ := List.lookup_eq_some_iff.mp h
  rw [heq]
  simp

/-- The provider of an id is local for the local id only. -/
theorem constructProvider_of {provider model baseUrl apiKey : Str} {p : LlmProvider}
    (h : constructProvider builds provider model baseUrl apiKey = some p) :
    p.isLocal = isLocalProvider provider ∧ p.modelId = model := by
  obtain ⟨ctor, hctor, hp⟩ := Option.bind_eq_some_iff.mp h
  have hmem := lookup_mem hctor
  simp only [constructors, List.mem_cons, Prod.mk.injEq, List.not_mem_nil, or_false] at hmem
  rcases hmem with ⟨rfl, rfl⟩ | ⟨rfl, rfl⟩ | ⟨rfl, rfl⟩ | ⟨rfl, rfl⟩ | h
  · exact buildOllama_of hp
  · exact buildOllama_of hp
  · exact cloudCtor_of hp
  · obtain ⟨_, hp⟩ := Option.ite_none_left_eq_some.mp hp
    exact cloudCtor_of hp
  · rcases h with ⟨rfl, rfl⟩ | ⟨rfl, rfl⟩ | ⟨rfl, rfl⟩ | ⟨rfl, rfl⟩ | ⟨rfl, rfl⟩ | ⟨rfl, rfl⟩ |
      ⟨rfl, rfl⟩ | ⟨rfl, rfl⟩
    all_goals exact cloudCtor_of hp

/-- Every known id has a constructor. -/
theorem constructors_known {provider : Str} (h : isKnownProvider provider = true) :
    ∃ ctor, (constructors builds).lookup provider = some ctor := by
  unfold isKnownProvider at h
  simp only [List.mem_cons, List.not_mem_nil, or_false, decide_eq_true_eq] at h
  rcases h with rfl | rfl | rfl | rfl | rfl | rfl | rfl | rfl | rfl | rfl | rfl | rfl
  all_goals exact ⟨_, rfl⟩

/-- A client that can be built makes the provider of a known id, where it has an endpoint. -/
theorem constructProvider_isSome (hb : ∀ kind url key, builds kind url key = true)
    {provider model baseUrl apiKey : Str} (hk : isKnownProvider provider = true)
    (he : baseUrl.isEmpty = false ∨ requiresExplicitBaseUrl provider = false) :
    (constructProvider builds provider model baseUrl apiKey).isSome = true := by
  have hcloud : ∀ kind, (cloudCtor builds kind model baseUrl apiKey).isSome = true := by
    intro kind
    unfold cloudCtor
    rw [if_pos (hb _ _ _)]
    rfl
  have hollama : ∀ isLocal, (buildOllama builds model baseUrl apiKey isLocal).isSome = true := by
    intro isLocal
    unfold buildOllama
    rw [if_pos (hb _ _ _)]
    rfl
  obtain ⟨ctor, hctor⟩ := constructors_known hk
  have hmem := lookup_mem hctor
  unfold constructProvider
  rw [hctor, Option.bind_some]
  simp only [constructors, List.mem_cons, Prod.mk.injEq, List.not_mem_nil, or_false] at hmem
  rcases hmem with ⟨rfl, rfl⟩ | ⟨rfl, rfl⟩ | ⟨rfl, rfl⟩ | ⟨rfl, rfl⟩ | h
  · exact hollama true
  · exact hollama false
  · exact hcloud .openAi
  · have hbase : baseUrl.isEmpty = false := he.resolve_right (by decide)
    unfold openaiCompatible
    rw [hbase]
    exact hcloud .openAi
  · rcases h with ⟨rfl, rfl⟩ | ⟨rfl, rfl⟩ | ⟨rfl, rfl⟩ | ⟨rfl, rfl⟩ | ⟨rfl, rfl⟩ | ⟨rfl, rfl⟩ |
      ⟨rfl, rfl⟩ | ⟨rfl, rfl⟩
    all_goals exact hcloud _

theorem buildProvider_eq {m : ModelConfig} (h : m.usable cloudConsent = true) :
    buildProvider builds m =
      constructProvider builds (toAsciiLowercase m.provider) m.model m.baseUrl m.apiKey := by
  unfold ModelConfig.usable ModelConfig.hasEndpoint at h
  simp only [Bool.and_eq_true] at h
  obtain ⟨⟨he, hm⟩, hb⟩ := h
  unfold buildProvider
  rw [if_neg (by simpa using hm), if_neg (by simp [buildEligible_known hb]), if_neg]
  intro hn
  rw [Bool.and_eq_true] at hn
  simp [hn.1, hn.2] at he

/-- What is built of a usable entry is its model, and local unless there is consent. -/
theorem buildProvider_of {m : ModelConfig} {p : LlmProvider}
    (h : m.usable cloudConsent = true) (hp : buildProvider builds m = some p) :
    p.modelId = m.model ∧ (p.isLocal = true ∨ cloudConsent = true) := by
  rw [buildProvider_eq h] at hp
  refine ⟨(constructProvider_of hp).2, ?_⟩
  rw [(constructProvider_of hp).1]
  apply buildEligible_local
  unfold ModelConfig.usable at h
  simp only [Bool.and_eq_true] at h
  exact h.2

theorem buildProvider_isSome (hb : ∀ kind url key, builds kind url key = true) {m : ModelConfig}
    (h : m.usable cloudConsent = true) : (buildProvider builds m).isSome = true := by
  rw [buildProvider_eq h]
  unfold ModelConfig.usable ModelConfig.hasEndpoint at h
  simp only [Bool.and_eq_true, Bool.or_eq_true, Bool.not_eq_true'] at h
  exact constructProvider_isSome hb (buildEligible_known h.2) h.1.1

end Built

section Pins

variable {builds : ClientBuilds} {cloudConsent : Bool} {models : List ModelConfig}
variable {provider model : Str} {p : LlmProvider}

/-- An entry that a pin names. -/
def Pins (provider model : Str) (m : ModelConfig) : Prop :=
  toAsciiLowercase m.provider = toAsciiLowercase provider ∧ m.model = model

theorem buildPinnedProvider_of (h : buildPinnedProvider builds provider model models cloudConsent =
    some p) : ∃ m ∈ models, Pins provider model m ∧ m.usable cloudConsent = true ∧
      buildProvider builds m = some p := by
  unfold buildPinnedProvider at h
  obtain ⟨m, hfind, hbuild⟩ := Option.bind_eq_some_iff.mp h
  have hm := List.find?_some hfind
  simp only [Bool.and_eq_true, decide_eq_true_eq] at hm
  obtain ⟨⟨⟨⟨hp, hmodel⟩, he⟩, hne⟩, hb⟩ := hm
  refine ⟨m, List.mem_of_find?_eq_some hfind, ⟨hp, hmodel⟩, ?_, hbuild⟩
  unfold ModelConfig.usable
  rw [he, hne, hb]
  rfl

/-- The pin resolves where one of the entries that it names is usable. -/
theorem buildPinnedProvider_isSome (hb : ∀ kind url key, builds kind url key = true) :
    (buildPinnedProvider builds provider model models cloudConsent).isSome = true ↔
      ∃ m ∈ models, Pins provider model m ∧ m.usable cloudConsent = true := by
  constructor
  · intro h
    obtain ⟨p, hp⟩ := Option.isSome_iff_exists.mp h
    obtain ⟨m, hm, hpin, hu, _⟩ := buildPinnedProvider_of hp
    exact ⟨m, hm, hpin, hu⟩
  · intro h
    obtain ⟨m, hm, hpin, hu⟩ := h
    cases hres : buildPinnedProvider builds provider model models cloudConsent with
    | some p => rfl
    | none =>
      unfold buildPinnedProvider at hres
      rw [Option.bind_eq_none_iff] at hres
      have hu' := hu
      unfold ModelConfig.usable at hu
      simp only [Bool.and_eq_true] at hu
      cases hfind : models.find? fun m => toAsciiLowercase m.provider =
          toAsciiLowercase provider && m.model = model && m.hasEndpoint && !m.model.isEmpty &&
            m.buildEligible cloudConsent with
      | none =>
        have hnot := List.find?_eq_none.mp hfind m hm
        simp [hpin.1, hpin.2, hu.1.1, hu.2] at hnot
        simp [hpin.2, hnot] at hu
      | some m' =>
        have hm' := List.find?_some hfind
        simp only [Bool.and_eq_true, decide_eq_true_eq] at hm'
        have husable : m'.usable cloudConsent = true := by
          unfold ModelConfig.usable
          simp [hm'.1.1.2, hm'.1.2, hm'.2]
        have hsome := buildProvider_isSome hb husable
        rw [hres m' hfind] at hsome
        cases hsome

/-- Pinning the chat model leaves the configured models as they are. -/
theorem chatProviderFromConfig_pinned (config : LlmConfig) : chatProviderFromConfig builds
    { config with chatModel := some ⟨provider, model⟩ } cloudConsent =
      buildPinnedProvider builds provider model config.others.models cloudConsent := rfl

/-- Without consent the routing and the pins select local providers only. -/
theorem providerFromConfig_local {config : LlmConfig}
    (h : providerFromConfig builds config cloudConsent = some p) :
    p.isLocal = true ∨ cloudConsent = true := by
  have hpinned : ∀ provider model, buildPinnedProvider builds provider model
      config.others.models cloudConsent = some p → p.isLocal = true ∨ cloudConsent = true := by
    intro provider model hp
    obtain ⟨m, _, _, hu, hb⟩ := buildPinnedProvider_of hp
    exact (buildProvider_of hu hb).2
  have hfound : ∀ ms : List ModelConfig, (∀ m ∈ ms, m.usable cloudConsent = true) →
      ms.findSome? (buildProvider builds) = some p → p.isLocal = true ∨ cloudConsent = true := by
    intro ms hms hp
    obtain ⟨m, hm, hb⟩ := List.exists_of_findSome?_eq_some hp
    exact (buildProvider_of (hms m hm) hb).2
  unfold providerFromConfig selectProvider at h
  cases hr : config.others.routing with
  | explicit provider model =>
    rw [hr] at h
    exact hpinned provider model h
  | cloudFirst =>
    rw [hr] at h
    refine hfound _ ?_ h
    intro m hm
    simp only [List.mem_append, List.mem_filter, Bool.and_eq_true] at hm
    rcases hm with hm | hm
    · exact hm.2.2
    · exact hm.2.2
  | localFirst =>
    rw [hr] at h
    refine hfound _ ?_ h
    intro m hm
    simp only [List.mem_append, List.mem_filter, Bool.and_eq_true] at hm
    rcases hm with hm | hm
    · exact hm.2.2
    · exact hm.2.2

theorem chatProviderFromConfig_local {config : LlmConfig}
    (h : chatProviderFromConfig builds config cloudConsent = some p) :
    p.isLocal = true ∨ cloudConsent = true := by
  unfold chatProviderFromConfig at h
  cases hc : config.chatModel with
  | none =>
    rw [hc] at h
    exact providerFromConfig_local h
  | some chatModel =>
    rw [hc] at h
    obtain ⟨m, _, _, hu, hb⟩ := buildPinnedProvider_of h
    exact (buildProvider_of hu hb).2

/-- The provider of a task is the one it replaces, or one that the consent allows. -/
theorem taskProviderFromConfig_local (base : LlmProvider) (taskModel : Option TaskModel) :
    taskProviderFromConfig builds base taskModel models cloudConsent = base ∨
      (taskProviderFromConfig builds base taskModel models cloudConsent).isLocal = true ∨
        cloudConsent = true := by
  unfold taskProviderFromConfig
  cases hres : taskModel.bind fun t => buildTaskProvider builds t models cloudConsent with
  | none => exact .inl rfl
  | some p =>
    right
    obtain ⟨t, _, ht⟩ := Option.bind_eq_some_iff.mp hres
    unfold buildTaskProvider at ht
    cases hl : isLocalProvider (toAsciiLowercase t.provider) with
    | true =>
      left
      simp only [hl, if_true] at ht
      split at ht
      · cases ht
      · split at ht
        · cases ht
        · obtain ⟨_, ht⟩ := Option.ite_none_left_eq_some.mp ht
          rw [Option.getD_some, (constructProvider_of ht).1, hl]
    | false =>
      right
      cases cloudConsent with
      | true => rfl
      | false =>
        simp only [hl, Bool.not_false, Bool.true_or, if_true] at ht
        split at ht
        · cases ht
        · split at ht
          · cases ht
          · cases ht

end Pins

section Picker

variable {builds : ClientBuilds}

/-- A candidate is offered where pinning its pair makes the resolution return a provider of it. -/
def PickerAgrees (builds : ClientBuilds) (config : LlmConfig) (cloudConsent : Bool) : Prop :=
  ∀ c ∈ activeModelCandidates config cloudConsent, c.available = true ↔
    ∃ p, chatProviderFromConfig builds { config with chatModel := some ⟨c.provider, c.model⟩ }
      cloudConsent = some p ∧ p.modelId = c.model

/-- Of the entries of one model that may be used, all have an endpoint or none has. -/
def AlikeEndpoints (models : List ModelConfig) (cloudConsent : Bool) : Prop :=
  ∀ m ∈ models, ∀ m' ∈ models, Pins m.provider m.model m' → m.model ≠ [] →
    m.buildEligible cloudConsent = true → m'.hasEndpoint = true → m.hasEndpoint = true

/-- The picker and the resolution look at the same entries, but the picker at each by itself. -/
theorem pickerAgrees_iff (hb : ∀ kind url key, builds kind url key = true) (config : LlmConfig)
    (cloudConsent : Bool) : PickerAgrees builds config cloudConsent ↔
      AlikeEndpoints config.others.models cloudConsent := by
  have hresolves : ∀ m : ModelConfig, (∃ p, chatProviderFromConfig builds
      { config with chatModel := some ⟨m.provider, m.model⟩ } cloudConsent = some p ∧
        p.modelId = m.model) ↔ ∃ m' ∈ config.others.models, Pins m.provider m.model m' ∧
          m'.usable cloudConsent = true := by
    intro m
    rw [← buildPinnedProvider_isSome hb, chatProviderFromConfig_pinned, Option.isSome_iff_exists]
    constructor
    · intro h
      obtain ⟨p, hp, _⟩ := h
      exact ⟨p, hp⟩
    · intro h
      obtain ⟨p, hp⟩ := h
      obtain ⟨m', _, hpin, hu, hbuild⟩ := buildPinnedProvider_of hp
      refine ⟨p, hp, ?_⟩
      rw [(buildProvider_of hu hbuild).1, hpin.2]
  constructor
  · intro h m hm m' hm' hpin hne he hend'
    have hcand : candidate m cloudConsent ∈ activeModelCandidates config cloudConsent := by
      apply List.mem_map_of_mem
      simp [hm, hne, buildEligible_known he]
    have hu' : m'.usable cloudConsent = true := by
      unfold ModelConfig.usable
      rw [buildEligible_congr hpin.1 hpin.2, hend', he, hpin.2]
      simp [hne]
    have hav := (h _ hcand).mpr ((hresolves m).mpr ⟨m', hm', hpin, hu'⟩)
    rw [candidate_available, Bool.and_eq_true] at hav
    exact hav.1
  · intro h c hc
    obtain ⟨m, hm, rfl⟩ := List.mem_map.mp hc
    simp only [List.mem_filter, Bool.not_eq_true', List.isEmpty_eq_false_iff] at hm
    obtain ⟨⟨hm, hne⟩, _⟩ := hm
    rw [candidate_available, Bool.and_eq_true]
    refine Iff.trans ?_ (hresolves m).symm
    constructor
    · intro hav
      refine ⟨m, hm, ⟨rfl, rfl⟩, ?_⟩
      unfold ModelConfig.usable
      rw [hav.1, hav.2]
      simp [hne]
    · intro hex
      obtain ⟨m', hm', hpin, hu⟩ := hex
      unfold ModelConfig.usable at hu
      simp only [Bool.and_eq_true] at hu
      have he : m.buildEligible cloudConsent = true := by
        rw [← buildEligible_congr hpin.1 hpin.2]
        exact hu.2
      exact ⟨h m hm m' hm' hpin hne he hu.1.1, he⟩

def alwaysBuilds : ClientBuilds := fun _ _ _ => true

def llmConfig (models : List ModelConfig) : LlmConfig where
  dataDir := []
  cacheDir := none
  asr := ⟨[], none, [], []⟩
  audioCloudConsent := false
  chatModel := none
  others := ⟨models, .cloudFirst, true, none, none, false⟩

def llamaAt (baseUrl : Str) : ModelConfig :=
  ⟨providerOllama, baseUrl, "llama3".toList, 8192, 7 / 10, []⟩

/-- An entry without an endpoint is not offered, though its pin resolves to the other entry. -/
theorem half_filled_entry_disagrees : (∀ kind url key, alwaysBuilds kind url key = true) ∧
    ¬ PickerAgrees alwaysBuilds (llmConfig [llamaAt [], llamaAt ollamaDefaultBaseUrl]) false := by
  refine ⟨fun _ _ _ => rfl, ?_⟩
  intro h
  have hav := (h (candidate (llamaAt []) false) (by decide +kernel)).mpr
    ⟨⟨.ollama, "llama3".toList, ollamaDefaultBaseUrl, [], true⟩, by decide +kernel, rfl⟩
  exact absurd hav (by decide +kernel)

theorem pickerAgrees_twoEndpoints : AlikeEndpoints
    [llamaAt "http://a".toList, llamaAt "http://b".toList] false ∧ PickerAgrees alwaysBuilds
      (llmConfig [llamaAt "http://a".toList, llamaAt "http://b".toList]) false := by
  have h : AlikeEndpoints [llamaAt "http://a".toList, llamaAt "http://b".toList] false := by
    intro m hm m' _ _ _ _ _
    simp only [List.mem_cons, List.not_mem_nil, or_false] at hm
    rcases hm with rfl | rfl
    · rfl
    · rfl
  exact ⟨h, (pickerAgrees_iff (fun _ _ _ => rfl) (llmConfig _) false).mpr h⟩

end Picker

end LensLM
