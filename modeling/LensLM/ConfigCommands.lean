import LensLM.Lib.Programs
import LensLM.Settings

/-!
# The commands that change the settings

A command writes the settings to their file and then swaps them in memory. Nothing keeps the
commands apart, so that what two of them do may interleave.
-/

namespace LensLM

open ByteText Programs

set_option autoImplicit false

section Commands

variable {R T : Type}

/-- The steps of a command: it reads the settings in memory, writes some to the file, which
normalizes them, swaps them in memory, and rescans for providers. -/
inductive ConfigCmd (R : Type) where
  | config
  | save (config : AppConfig R)
  | setConfig (config : AppConfig R)
  | rescanEnrichment

@[reducible] def ConfigCmd.Reply : ConfigCmd R → Type
  | .config => AppConfig R
  | .save _ => AppConfig R
  | .setConfig _ => Unit
  | .rescanEnrichment => Unit

abbrev ConfigProgram (R : Type) := Program (ConfigCmd R) ConfigCmd.Reply LensError

def ConfigCmd.issue (c : ConfigCmd R) : ConfigProgram R c.Reply := Program.perform c

/-- Whether two settings differ in what the providers depend on. -/
abbrev LlmConfigChanged (R : Type) := AppConfig R → AppConfig R → Bool

variable (llmConfigChanged : LlmConfigChanged R)

def ConfigProgram.applyConfig (config : AppConfig R) : ConfigProgram R Unit := do
  let old ← ConfigCmd.config.issue
  let rebind := llmConfigChanged old config
  (ConfigCmd.setConfig config).issue
  if rebind then ConfigCmd.rescanEnrichment.issue else pure ()

def ConfigProgram.persistAndApply (config : AppConfig R) : ConfigProgram R Unit := do
  let config ← (ConfigCmd.save config).issue
  ConfigProgram.applyConfig llmConfigChanged config

def ConfigProgram.setActiveChatModel (provider model : Str) : ConfigProgram R Unit := do
  let config ← ConfigCmd.config.issue
  ConfigProgram.persistAndApply llmConfigChanged { config with chatModel := some ⟨provider, model⟩ }

def ConfigProgram.clearActiveChatModel : ConfigProgram R Unit := do
  let config ← ConfigCmd.config.issue
  ConfigProgram.persistAndApply llmConfigChanged { config with chatModel := none }

inductive ConfigCommand (R : Type) where
  | setConfig (config : AppConfig R)
  | setActiveChatModel (provider model : Str)
  | clearActiveChatModel

/-- The chat model that a command puts into the settings it has read. -/
def ConfigCommand.chatModel : ConfigCommand R → Option (Option TaskModel)
  | .setConfig _ => none
  | .setActiveChatModel provider model => some (some ⟨provider, model⟩)
  | .clearActiveChatModel => some none

def ConfigCommand.program : ConfigCommand R → ConfigProgram R Unit
  | .setConfig config => ConfigProgram.persistAndApply llmConfigChanged config
  | .setActiveChatModel provider model => ConfigProgram.setActiveChatModel llmConfigChanged provider model
  | .clearActiveChatModel => ConfigProgram.clearActiveChatModel llmConfigChanged

end Commands

section Machine

variable {R T : Type}

structure ConfigState (R T : Type) where
  file : Option T
  memory : AppConfig R

/-- What a command has read for a change and not written, what it has written and not swapped, and
what it has written over which settings in memory. -/
structure ConfigNotes (R : Type) where
  read : Option (AppConfig R)
  pending : Option (AppConfig R)
  written : Option (AppConfig R × AppConfig R)

def ConfigNotes.start : ConfigNotes R := ⟨none, none, none⟩

/-- A fault is one of the write or of the rescan. -/
def ConfigCmd.react (host : SettingsHost R T) :
    (c : ConfigCmd R) → Option LensError → ConfigState R T →
      Option (Except LensError c.Reply × ConfigState R T)
  | .config, _, s => some (.ok s.memory, s)
  | .save _, some e, s => some (.error e, s)
  | .save c, none, s =>
    some (.ok c.normalize, { s with file := some (host.encode c.normalize) })
  | .setConfig c, _, s => some (.ok (), { s with memory := c })
  | .rescanEnrichment, some e, s => some (.error e, s)
  | .rescanEnrichment, none, s => some (.ok (), s)

def ConfigNotes.note (g : ConfigNotes R) :
    Record (ConfigCmd R) ConfigCmd.Reply LensError (Option LensError) (ConfigState R T) →
      ConfigNotes R
  | ⟨.config, _, _, .ok c⟩ => if g.written.isSome then g else { g with read := some c }
  | ⟨.save _, _, s, .ok c⟩ => ⟨none, some c, some (s.memory, c)⟩
  | ⟨.save _, _, _, .error _⟩ => { g with read := none }
  | ⟨.setConfig _, _, _, .ok _⟩ => { g with pending := none }
  | _ => g

def configMachine (host : SettingsHost R T) :
    Machine (ConfigCmd R) ConfigCmd.Reply LensError (Option LensError) (ConfigState R T)
      (ConfigNotes R) where
  react := ConfigCmd.react host
  note := ConfigNotes.note

variable {ι : Type}

/-- No command writes while another one has written and not swapped, and none swaps while another
one has read the settings that it is going to change. -/
def KeptApart : Guard ι (ConfigCmd R) (Option LensError) (ConfigState R T) (ConfigNotes R) :=
  fun g i c _ _ =>
    match c with
    | .save _ => ∀ j, j ≠ i → (g j).pending.isNone
    | .setConfig _ => ∀ j, j ≠ i → (g j).read.isNone
    | _ => True

abbrev configStart (llmConfigChanged : LlmConfigChanged R) (commands : ι → ConfigCommand R)
    (s : ConfigState R T) :
    Pool ι (ConfigCmd R) ConfigCmd.Reply LensError Unit (ConfigState R T) (ConfigNotes R) :=
  Pool.start s .start fun i => (commands i).program llmConfigChanged

end Machine

section Normalize

variable {R : Type}

/-- What `normalize` does after it has looked at the consent. -/
def AppConfig.fillDefaults (c : AppConfig R) : AppConfig R :=
  match c.asr.cloudProvider with
  | none => c
  | some provider =>
    let blankBase := (trim c.asr.cloudBaseUrl).isEmpty
    let blankModel := (trim c.asr.cloudModel).isEmpty
    let c := if (blankBase || blankModel) && c.selectsCloud then c.clearBackend else c
    let c := if blankBase then c.fillBaseUrl provider else c
    if blankModel then c.fillModel provider else c

theorem normalize_eq (c : AppConfig R) : c.normalize =
    (if c.selectsCloud && !c.audioCloudConsent then c.clearBackend else c).fillDefaults := rfl

theorem fillDefaults_chatModel (c : AppConfig R) (x : Option TaskModel) :
    AppConfig.fillDefaults { c with chatModel := x } = { c.fillDefaults with chatModel := x } := by
  cases hp : c.asr.cloudProvider with
  | none =>
    unfold AppConfig.fillDefaults
    simp only [hp]
  | some provider =>
    unfold AppConfig.fillDefaults AppConfig.selectsCloud AppConfig.clearBackend
      AppConfig.fillBaseUrl AppConfig.fillModel
    simp only [hp]
    split_ifs
    all_goals rfl

/-- Normalizing neither looks at the chat model nor changes it. -/
theorem normalize_chatModel (c : AppConfig R) (x : Option TaskModel) :
    AppConfig.normalize { c with chatModel := x } = { c.normalize with chatModel := x } := by
  rw [normalize_eq, normalize_eq, ← fillDefaults_chatModel]
  apply congrArg AppConfig.fillDefaults
  unfold AppConfig.selectsCloud AppConfig.clearBackend
  split_ifs
  all_goals rfl

end Normalize

section Runs

variable {R T : Type} {host : SettingsHost R T} {llmConfigChanged : LlmConfigChanged R}

/-- What a command may write: what it has read with its change, or the settings it was given. -/
def MayWrite (command : ConfigCommand R) (g : ConfigNotes R) (config : AppConfig R) : Prop :=
  match command.chatModel with
  | none => g.read = none
  | some x => ∃ c, g.read = some c ∧ config = { c with chatModel := x }

def configAllows (command : ConfigCommand R) : ConfigCmd R → ConfigNotes R → Prop
  | .save config, g => g.written = none ∧ g.pending = none ∧ MayWrite command g config
  | .setConfig config, g => g.pending = some config ∧ g.read = none
  | _, _ => True

def configDiscipline (command : ConfigCommand R) :
    Discipline (ConfigCmd R) (ConfigState R T) (ConfigNotes R) where
  known _ := True
  allows := configAllows command

/-- The command does what it may, and comes to its end with nothing that is not swapped. -/
abbrev ConfigChecked {α : Type} (host : SettingsHost R T) (command : ConfigCommand R)
    (post : α → ConfigNotes R → Prop) : ConfigProgram R α → ConfigNotes R → Prop :=
  Follows (configMachine host) (configDiscipline command) post fun _ g => g.pending = none

variable {command : ConfigCommand R} {g : ConfigNotes R}

theorem checked_applyConfig {config : AppConfig R} (hp : g.pending = some config)
    (hr : g.read = none) (hw : g.written.isSome) :
    ConfigChecked host command (fun _ g => g.pending = none)
      (ConfigProgram.applyConfig llmConfigChanged config) g := by
  unfold ConfigProgram.applyConfig
  apply Follows.bind (Q := fun _ g => g.pending = some config ∧ g.read = none)
  · refine ⟨trivial, ?_⟩
    intro x s r hr'
    obtain ⟨_, s', h⟩ := hr'
    cases h
    refine ⟨?_, ?_⟩
    · show (ConfigNotes.note g _).pending = _
      simpa [ConfigNotes.note, hw] using hp
    · show (ConfigNotes.note g _).read = _
      simpa [ConfigNotes.note, hw] using hr
  · intro old g hg
    apply Follows.bind (Q := fun _ g => g.pending = none)
    · refine ⟨hg, ?_⟩
      intro x s r hr'
      obtain ⟨_, s', h⟩ := hr'
      cases h
      rfl
    · intro _ g hg
      split
      · refine ⟨trivial, ?_⟩
        intro x s r hr'
        cases r with
        | ok a => exact hg
        | error e => exact hg
      · exact hg

theorem checked_persistAndApply {config : AppConfig R} (hw : g.written = none)
    (hp : g.pending = none) (hm : MayWrite command g config) :
    ConfigChecked host command (fun _ g => g.pending = none)
      (ConfigProgram.persistAndApply llmConfigChanged config) g := by
  unfold ConfigProgram.persistAndApply
  apply Follows.bind (Q := fun config g =>
    g.pending = some config ∧ g.read = none ∧ g.written.isSome)
  · refine ⟨⟨hw, hp, hm⟩, ?_⟩
    intro x s r hr'
    cases r with
    | ok a => exact ⟨rfl, rfl, rfl⟩
    | error e => exact hp
  · intro config g hg
    exact checked_applyConfig hg.1 hg.2.1 hg.2.2

theorem checked_chatModel {x : Option TaskModel} (hx : command.chatModel = some x)
    (hw : g.written = none) (hp : g.pending = none) :
    ConfigChecked host command (fun _ g => g.pending = none)
      (ConfigCmd.config.issue >>= fun config =>
        ConfigProgram.persistAndApply llmConfigChanged { config with chatModel := x }) g := by
  apply Follows.bind (Q := fun config g =>
    g.read = some config ∧ g.written = none ∧ g.pending = none)
  · refine ⟨trivial, ?_⟩
    intro _ s r hr'
    obtain ⟨_, s', h⟩ := hr'
    cases h
    show ConfigNotes.read (ConfigNotes.note g _) = _ ∧ _
    simp [configMachine, ConfigNotes.note, hw, hp]
  · intro config g hg
    apply checked_persistAndApply hg.2.1 hg.2.2
    unfold MayWrite
    rw [hx]
    exact ⟨config, hg.1, rfl⟩

theorem checked_command (command : ConfigCommand R) :
    ConfigChecked host command (fun _ g => g.pending = none)
      (command.program llmConfigChanged) .start := by
  cases command with
  | setConfig config => exact checked_persistAndApply rfl rfl rfl
  | setActiveChatModel provider model => exact checked_chatModel rfl rfl rfl
  | clearActiveChatModel => exact checked_chatModel rfl rfl rfl

variable {ι : Type}

/-- At most one command has settings that are written and not swapped, and these are in the file,
which otherwise has those in memory. What a command has read for a change is still in memory. -/
structure ConfigInv (host : SettingsHost R T) (commands : ι → ConfigCommand R)
    (g : ι → ConfigNotes R) (s : ConfigState R T) : Prop where
  one : ∀ i j, (g i).pending.isSome → (g j).pending.isSome → i = j
  pending : ∀ i c, (g i).pending = some c → s.file = some (host.encode c)
  settled : (∀ i, (g i).pending = none) → (∃ i, (g i).written.isSome) →
    s.file = some (host.encode s.memory)
  read : ∀ i c, (g i).read = some c → s.memory = c
  kept : ∀ i x base c, (commands i).chatModel = some x → (g i).written = some (base, c) →
    c = { base.normalize with chatModel := x }

section Step

variable [DecidableEq ι] {commands : ι → ConfigCommand R} {seen : ι → ConfigNotes R}
variable {s : ConfigState R T} {i : ι} {n : ConfigNotes R}

/-- Notes that are read off the old ones keep what is read off. -/
theorem update_notes {β : Type} (f : ConfigNotes R → β) (h : f n = f (seen i)) (j : ι) :
    f (Function.update seen i n j) = f (seen j) := by
  by_cases hj : j = i
  · rw [hj, Function.update_self, h]
  · rw [Function.update_of_ne hj]

/-- A step that neither writes nor swaps, and reads what is in memory. -/
theorem ConfigInv.quiet (h : ConfigInv host commands seen s)
    (hp : n.pending = (seen i).pending) (hw : n.written = (seen i).written)
    (hr : ∀ c, n.read = some c → s.memory = c) :
    ConfigInv host commands (Function.update seen i n) s := by
  have hp' := update_notes ConfigNotes.pending hp
  have hw' := update_notes ConfigNotes.written hw
  constructor
  · intro j k hj hk
    rw [hp'] at hj hk
    exact h.one j k hj hk
  · intro j c hj
    rw [hp'] at hj
    exact h.pending j c hj
  · intro hall hsome
    apply h.settled
    · intro j
      rw [← hp']
      exact hall j
    · obtain ⟨j, hj⟩ := hsome
      rw [hw'] at hj
      exact ⟨j, hj⟩
  · intro j c hj
    by_cases hji : j = i
    · rw [hji, Function.update_self] at hj
      exact hr c hj
    · rw [Function.update_of_ne hji] at hj
      exact h.read j c hj
  · intro j x base c hx hj
    rw [hw'] at hj
    exact h.kept j x base c hx hj

/-- A write: nobody else has anything that is not swapped. -/
theorem ConfigInv.saved (h : ConfigInv host commands seen s) {config : AppConfig R}
    (hm : MayWrite (commands i) (seen i) config)
    (apart : ∀ j, j ≠ i → (seen j).pending.isNone) :
    ConfigInv host commands (Function.update seen i
        ⟨none, some config.normalize, some (s.memory, config.normalize)⟩)
      { s with file := some (host.encode config.normalize) } := by
  have hothers : ∀ j c, j ≠ i → (seen j).pending ≠ some c := by
    intro j c hj hs
    have hn := apart j hj
    rw [hs] at hn
    cases hn
  constructor
  · have howner : ∀ j, (Function.update seen i
        ⟨none, some config.normalize, some (s.memory, config.normalize)⟩ j).pending.isSome →
        j = i := by
      intro j hj
      by_cases hji : j = i
      · exact hji
      · rw [Function.update_of_ne hji] at hj
        obtain ⟨c, hc⟩ := Option.isSome_iff_exists.mp hj
        exact absurd hc (hothers j c hji)
    intro j k hj hk
    rw [howner j hj, howner k hk]
  · intro j c hj
    by_cases hji : j = i
    · rw [hji, Function.update_self] at hj
      cases hj
      rfl
    · rw [Function.update_of_ne hji] at hj
      exact absurd hj (hothers j c hji)
  · intro hall
    have hi := hall i
    rw [Function.update_self] at hi
    cases hi
  · intro j c hj
    by_cases hji : j = i
    · rw [hji, Function.update_self] at hj
      cases hj
    · rw [Function.update_of_ne hji] at hj
      exact h.read j c hj
  · intro j x base c hx hj
    by_cases hji : j = i
    · rw [hji, Function.update_self] at hj
      cases hj
      rw [hji] at hx
      unfold MayWrite at hm
      rw [hx] at hm
      -- What was read is what is in memory at the write.
      obtain ⟨c, hc, rfl⟩ := hm
      rw [h.read i c hc]
      exact normalize_chatModel c x
    · rw [Function.update_of_ne hji] at hj
      exact h.kept j x base c hx hj

/-- A swap: nobody else has read what it overwrites. -/
theorem ConfigInv.swapped (h : ConfigInv host commands seen s) {config : AppConfig R}
    (hp : (seen i).pending = some config) (hr : (seen i).read = none)
    (apart : ∀ j, j ≠ i → (seen j).read.isNone) :
    ConfigInv host commands (Function.update seen i { seen i with pending := none })
      { s with memory := config } := by
  have hread : ∀ j, (Function.update seen i { seen i with pending := none } j).read =
    (seen j).read := update_notes ConfigNotes.read rfl
  have hwritten : ∀ j, (Function.update seen i { seen i with pending := none } j).written =
    (seen j).written := update_notes ConfigNotes.written rfl
  have hnone : ∀ j, (Function.update seen i { seen i with pending := none } j).pending = none := by
    intro j
    by_cases hji : j = i
    · rw [hji, Function.update_self]
    · rw [Function.update_of_ne hji]
      by_contra hne
      apply hji
      apply h.one
      · exact Option.isSome_iff_ne_none.mpr hne
      · rw [hp]
        rfl
  constructor
  · intro j k hj
    rw [hnone] at hj
    cases hj
  · intro j c hj
    rw [hnone] at hj
    cases hj
  · intro _ _
    exact h.pending i config hp
  · intro j c hj
    rw [hread] at hj
    by_cases hji : j = i
    · rw [hji, hr] at hj
      cases hj
    · have hn := apart j hji
      rw [hj] at hn
      cases hn
  · intro j x base c hx hj
    rw [hwritten] at hj
    exact h.kept j x base c hx hj

theorem configInv_step {c : ConfigCmd R} {x : Option LensError} {r : Except LensError c.Reply}
    {s' : ConfigState R T} (h : ConfigInv host commands seen s)
    (hallow : configAllows (commands i) c (seen i)) (hg : KeptApart seen i c x s)
    (hr : (configMachine host).react c x s = some (r, s')) :
    ConfigInv host commands
      (Function.update seen i ((configMachine host).note (seen i) ⟨c, x, s, r⟩)) s' := by
  cases c with
  | config =>
    cases hr
    show ConfigInv host commands
      (Function.update seen i (if (seen i).written.isSome then _ else _)) _
    split
    · refine h.quiet (n := seen i) rfl rfl ?_
      exact h.read i
    · refine h.quiet (n := { seen i with read := some s.memory }) rfl rfl ?_
      intro c hc
      cases hc
      rfl
  | save config =>
    cases x with
    | some e =>
      cases hr
      refine h.quiet (n := { seen i with read := none }) rfl rfl ?_
      intro c hc
      cases hc
    | none =>
      cases hr
      exact h.saved hallow.2.2 hg
  | setConfig config =>
    cases hr
    exact h.swapped hallow.1 hallow.2 hg
  | rescanEnrichment =>
    cases x with
    | some e =>
      cases hr
      exact h.quiet (n := seen i) rfl rfl (h.read i)
    | none =>
      cases hr
      exact h.quiet (n := seen i) rfl rfl (h.read i)

end Step

theorem ConfigInv.start (commands : ι → ConfigCommand R) (s : ConfigState R T) :
    ConfigInv host commands (fun _ => .start) s := by
  constructor
  · intro i j hi
    cases hi
  · intro i c hi
    cases hi
  · intro _ hsome
    obtain ⟨i, hi⟩ := hsome
    cases hi
  · intro i c hi
    cases hi
  · intro i x base c _ hi
    cases hi

/-- When all commands have come to an end the settings in memory are those of the file, and a
command that changes the chat model has written what was in memory when it did, but for the chat
model, as long as no command writes while another has written and not swapped, and none swaps
while another has read and not written. -/
theorem config_settles [DecidableEq ι] (commands : ι → ConfigCommand R) {s : ConfigState R T}
    {w : Pool ι (ConfigCmd R) ConfigCmd.Reply LensError Unit (ConfigState R T) (ConfigNotes R)}
    (run : (configStart llmConfigChanged commands s).Run (configMachine host) KeptApart w) :
    ((∀ i, (w.thread i).program.Ended) → (∃ i, (w.seen i).written.isSome) →
      w.state.file.map host.decode = some (.ok w.state.memory)) ∧
    ∀ i x base config, (commands i).chatModel = some x →
      (w.seen i).written = some (base, config) →
        config = { base.normalize with chatModel := x } := by
  obtain ⟨hinv, hf⟩ := run.keeps (d := fun i => configDiscipline (commands i))
    (I := ConfigInv host commands) (fun _ _ _ _ => trivial)
    (fun _ _ _ _ _ _ _ h ha hg hr => configInv_step h ha hg hr)
    (ConfigInv.start commands s) fun i => checked_command (commands i)
  refine ⟨?_, hinv.kept⟩
  intro hall hsome
  rw [hinv.settled ?_ hsome, Option.map_some, host.decode_encode]
  intro i
  exact (hf i).ended (hall i)

end Runs

/-- Settings that nothing changes but `chatModel` and `others`. -/
def plainConfig (others : Bool) : AppConfig Bool where
  dataDir := []
  cacheDir := none
  asr := ⟨[], none, [], []⟩
  audioCloudConsent := false
  chatModel := none
  others := others

def verbatimHost : SettingsHost Bool (AppConfig Bool) where
  default := plainConfig false
  encode := id
  decode := .ok
  decode_encode _ := rfl

def plainState : ConfigState Bool (AppConfig Bool) := ⟨none, plainConfig false⟩

/-- Two commands that set everything. -/
def bothSet (i : Bool) : ConfigCommand Bool := .setConfig (plainConfig i)

/-- One sets everything, the other pins a model. -/
def setAndPin : Bool → ConfigCommand Bool
  | false => .setConfig (plainConfig true)
  | true => .setActiveChatModel ['o'] ['m']

/-- Both write before they swap, and the first to write is the last to swap. -/
def crossedSchedule : List (Bool × Option LensError) :=
  [(true, none), (false, none), (false, none), (false, none), (true, none), (true, none)]

def neverChanged : LlmConfigChanged Bool := fun _ _ => false

/-- The file has the settings of one command, the memory those of the other. -/
theorem crossed_commands_split : ∃ w, (configStart neverChanged bothSet plainState).Run
    (configMachine verbatimHost) Unrestricted w ∧ (∀ i, (w.thread i).program.Returned) ∧
      w.state.file.map verbatimHost.decode ≠ some (.ok w.state.memory) := by
  have h : ((configStart neverChanged bothSet plainState).play (configMachine verbatimHost)
      Unrestricted crossedSchedule).any (fun w => (w.thread false).program.Returned &&
        (w.thread true).program.Returned && (w.state.file = some (plainConfig false)) &&
          (w.state.memory = plainConfig true)) = true := by
    decide +kernel
  obtain ⟨w, hw, hp⟩ := Pool.run_of_play h
  simp only [Bool.and_eq_true, decide_eq_true_eq] at hp
  obtain ⟨⟨⟨hfalse, htrue⟩, hfile⟩, hmemory⟩ := hp
  refine ⟨w, hw, ?_, ?_⟩
  · intro i
    cases i with
    | false => exact hfalse
    | true => exact htrue
  · rw [hfile, hmemory]
    decide

instance (g : Bool → ConfigNotes Bool) (i : Bool) (c : ConfigCmd Bool) (x : Option LensError)
    (s : ConfigState Bool (AppConfig Bool)) : Decidable (KeptApart g i c x s) :=
  match c with
  | .save _ => inferInstanceAs (Decidable (∀ j, j ≠ i → (g j).pending.isNone))
  | .setConfig _ => inferInstanceAs (Decidable (∀ j, j ≠ i → (g j).read.isNone))
  | .config => .isTrue trivial
  | .rescanEnrichment => .isTrue trivial

/-- The pin comes after the other settings, and keeps them. -/
theorem config_settles_pinned : ∃ w, (configStart neverChanged setAndPin plainState).Run
    (configMachine verbatimHost) KeptApart w ∧ (∀ i, (w.thread i).program.Returned) ∧
      w.state.file.map verbatimHost.decode = some (.ok w.state.memory) := by
  have h : ((configStart neverChanged setAndPin plainState).play (configMachine verbatimHost)
      KeptApart (List.replicate 3 (false, none) ++ List.replicate 4 (true, none))).any
        (fun w => (w.thread false).program.Returned && (w.thread true).program.Returned &&
          (w.seen true).written.isSome) = true := by
    decide +kernel
  obtain ⟨w, hw, hp⟩ := Pool.run_of_play h
  simp only [Bool.and_eq_true, decide_eq_true_eq] at hp
  have hall : ∀ i, (w.thread i).program.Returned := by
    intro i
    cases i with
    | false => exact hp.1.1
    | true => exact hp.1.2
  exact ⟨w, hw, hall, (config_settles setAndPin hw).1 (fun i => .inl (hall i)) ⟨true, hp.2⟩⟩

end LensLM
