import LensLM.Overview

/-!
# What the overview row says of its file

Each run has the file it writes to itself. From its rename to its row the overview is the one of
this run, as long as the others keep away from it.
-/

namespace LensLM

open ByteText Programs Program

set_option autoImplicit false

section Programs

variable {S A J : Type} {host : OverviewHost S J} {notebookId : Str}

def overviewAllows (host : OverviewHost S J) :
    OverviewCmd S A J → OverviewNotes S A → Prop
  | .sourceSetHash, g => g.hash = none
  | .synthesizeScript _ _, g => g.voiced = none
  | .nowV7, g => g.written = false
  | .writeWav buffer tmp, g => g.temp = some tmp ∧ ∃ script, g.voiced = some (script, buffer)
  | .removeFileBestEffort tmp, g => g.temp = some tmp
  | .rename tmp, g => g.temp = some tmp ∧ g.written = true
  | .upsertOverview row, g => row.status = .ready → g.published = true ∧
    ∃ script buffer, g.hash = some row.sourceSetHash ∧ g.voiced = some (script, buffer) ∧
      row.script = host.scriptJson script ∧ row.path = .overview
  | _, _ => True

def overviewDiscipline (host : OverviewHost S J) :
    Discipline (OverviewCmd S A J) (OverviewState A J) (OverviewNotes S A) where
  known _ := True
  allows := overviewAllows host

/-- The program does what it may, and fails with the row written if the overview is its own. -/
abbrev OverviewChecked {α : Type} (host : OverviewHost S J) (key : String)
    (post : α → OverviewNotes S A → Prop) : OverviewProgram S A J α → OverviewNotes S A → Prop :=
  Follows (overviewMachine key) (overviewDiscipline host) post fun _ g => g.published = false

/-- Commands of which nothing is noted. -/
def OverviewCmd.Plain : OverviewCmd S A J → Prop
  | .ttsBackendAvailable | .registerTts | .cancelSynthesis | .removeTtsIfOwner _ | .isCancelled _
  | .generateDialogue _ | .resolveTtsProvider | .createDirAll | .utcNow => True
  | _ => False

theorem OverviewCmd.Plain.note {c : OverviewCmd S A J} (hc : c.Plain) (g : OverviewNotes S A)
    (x : OverviewChoice S A) (s : OverviewState A J) (r : Except LensError c.Reply) :
    g.note ⟨c, x, s, r⟩ = g := by
  cases c with
  | sourceSetHash | synthesizeScript | nowV7 | writeWav | removeFileBestEffort | rename
  | upsertOverview => exact hc.elim
  | _ => rfl

theorem OverviewCmd.Plain.allows {c : OverviewCmd S A J} (hc : c.Plain) (g : OverviewNotes S A) :
    overviewAllows host c g := by
  cases c with
  | sourceSetHash | synthesizeScript | nowV7 | writeWav | removeFileBestEffort | rename
  | upsertOverview => exact hc.elim
  | _ => trivial

variable {key : String} {g : OverviewNotes S A}

theorem checked_unnoted {c : OverviewCmd S A J} (hc : c.Plain) (hp : g.published = false) :
    OverviewChecked host key (fun _ g' => g' = g) c.issue g := by
  refine Follows.perform (hc.allows g) ?_ ?_
  · intro x s a _
    exact hc.note g x s _
  · intro x s e _
    show (g.note _).published = false
    rw [hc.note]
    exact hp

/-- The notes of a run that has its file written or removed. -/
def OverviewNotes.Holds (hash : Str) (voiced : S × A) (tmp : Nat) (written : Bool)
    (g : OverviewNotes S A) : Prop := g = ⟨some hash, some voiced, some tmp, written, false⟩

theorem checked_remove {α : Type} {hash : Str} {voiced : S × A} {tmp : Nat} {written : Bool}
    (hg : g.Holds hash voiced tmp written) (post : α → OverviewNotes S A → Prop) (e : LensError) :
    OverviewChecked host key post (do
      (OverviewCmd.removeFileBestEffort tmp).issue
      .fail e) g := by
  subst hg
  apply Follows.bind (Q := fun _ g' => g'.published = false)
  · refine ⟨rfl, ?_⟩
    intro x s r hr
    obtain ⟨_, s', h⟩ := hr
    cases h
    rfl
  · intro _ g' hg'
    exact hg'

theorem notebookAudioPath_ok {debug : Str → String} {path : OverviewFile}
    (h : notebookAudioPath debug notebookId = .ok path) : path = .overview := by
  unfold notebookAudioPath at h
  dsimp only at h
  split at h
  · cases h
  · cases h
    rfl

/-- A pure step, whose error ends the program. -/
theorem checked_ofExcept {α : Type} {r : Except LensError α} {post : α → OverviewNotes S A → Prop}
    (hp : g.published = false) (hok : ∀ a, r = .ok a → post a g) :
    OverviewChecked host key post (ofExcept r) g := by
  cases r with
  | ok a => exact hok a rfl
  | error e => exact hp

/-- What is published is what was made of the script. -/
structure OverviewNotes.Publishes (hash : Str) (script : S) (g : OverviewNotes S A) : Prop where
  published : g.published = true
  hash : g.hash = some hash
  voiced : ∃ buffer, g.voiced = some (script, buffer)

theorem checked_synthesize {hash : Str} {script : S} {token : Token}
    (hg : g = ⟨some hash, none, none, false, false⟩) :
    OverviewChecked host key (fun path g => path = .overview ∧ g.Publishes hash script)
      (synthesizeOverview host notebookId script token) g := by
  subst hg
  unfold synthesizeOverview
  refine Follows.bind (checked_unnoted trivial rfl) ?_
  intro provider g hg
  subst hg
  cases provider with
  | false => exact rfl
  | true =>
    rw [if_pos rfl]
    refine Follows.bind (Q := fun buffer g =>
      g = ⟨some hash, some (script, buffer), none, false, false⟩) ?_ ?_
    · exact Follows.perform rfl (fun _ _ _ _ => rfl) fun _ _ _ _ => rfl
    intro buffer g hg
    subst hg
    refine Follows.bind (Q := fun path g => path = .overview ∧
      g = ⟨some hash, some (script, buffer), none, false, false⟩) ?_ ?_
    · exact checked_ofExcept rfl fun path hpath => ⟨notebookAudioPath_ok hpath, rfl⟩
    intro path g hg
    obtain ⟨rfl, rfl⟩ := hg
    refine Follows.bind (checked_unnoted trivial rfl) ?_
    intro _ g hg
    subst hg
    refine Follows.bind (Q := fun tmp => OverviewNotes.Holds hash (script, buffer) tmp false) ?_ ?_
    · exact Follows.perform rfl (fun _ _ _ _ => rfl) fun _ _ _ _ => rfl
    intro tmp g hg
    refine Follows.bind (Q := fun _ => OverviewNotes.Holds hash (script, buffer) tmp true) ?_ ?_
    · refine Follows.handle (Q := fun _ => OverviewNotes.Holds hash (script, buffer) tmp false) ?_ ?_
      · subst hg
        exact Follows.perform ⟨rfl, script, rfl⟩ (fun _ _ _ _ => rfl) fun _ _ _ _ => rfl
      · intro e g hg
        exact checked_remove hg _ e
    intro _ g hg
    refine Follows.bind (checked_unnoted trivial (by rw [hg])) ?_
    intro cancelled g' hg'
    subst hg'
    cases cancelled with
    | true => exact checked_remove hg _ _
    | false =>
      rw [if_neg Bool.false_ne_true]
      refine Follows.bind (Q := fun _ => OverviewNotes.Publishes hash script) ?_ ?_
      · refine Follows.handle (Q := fun _ => OverviewNotes.Holds hash (script, buffer) tmp true) ?_ ?_
        · subst hg
          exact Follows.perform ⟨rfl, rfl⟩ (fun _ _ _ _ => ⟨rfl, rfl, buffer, rfl⟩)
            fun _ _ _ _ => rfl
        · intro e g hg
          exact checked_remove hg _ e
      · intro _ g hg
        exact ⟨rfl, hg⟩

theorem checked_persistFailed {hash : Str} (hp : g.published = false) :
    OverviewChecked host key (fun _ g => g.published = false)
      (persistOverviewFailed host notebookId hash) g := by
  unfold persistOverviewFailed
  refine Follows.bind (Q := fun _ g => g.published = false) ?_ ?_
  · exact checked_ofExcept hp fun _ _ => hp
  intro path g hp
  refine Follows.bind (checked_unnoted trivial hp) ?_
  intro now g' hg
  subst hg
  exact Follows.perform (fun h => by cases h) (fun _ _ _ _ => rfl) fun _ _ _ _ => rfl

theorem checked_settle {α β : Type} {hash : Str} {result : Except LensError α}
    {next : α → OverviewProgram S A J (Option β)}
    (hok : ∀ a, result = .ok a →
      OverviewChecked host key (fun _ g => g.published = false) (next a) g)
    (herror : ∀ e, result = .error e → g.published = false) :
    OverviewChecked host key (fun _ g => g.published = false)
      (settleOverview host notebookId hash result next) g := by
  unfold settleOverview
  split
  · exact hok _ rfl
  · exact herror _ rfl
  · refine Follows.bind (checked_persistFailed (herror _ rfl)) ?_
    intro _ g hp
    exact hp

theorem checked_generate {token : Token} (hg : g = .start) :
    OverviewChecked host key (fun _ g => g.published = false)
      (generateAndPersistOverview host notebookId token) g := by
  subst hg
  unfold generateAndPersistOverview
  refine Follows.bind (checked_unnoted trivial rfl) ?_
  intro cancelled g hg
  subst hg
  cases cancelled with
  | true => exact rfl
  | false =>
    rw [if_neg Bool.false_ne_true]
    refine Follows.bind (Q := fun hash g => g = ⟨some hash, none, none, false, false⟩) ?_ ?_
    · exact Follows.perform rfl (fun _ _ _ _ => rfl) fun _ _ _ _ => rfl
    intro hash g hg
    have hdialogue : Follows (overviewMachine key) (overviewDiscipline host)
        (fun _ g => g = ⟨some hash, none, none, false, false⟩)
        (fun _ g => g = ⟨some hash, none, none, false, false⟩)
        (OverviewCmd.generateDialogue token : OverviewCmd S A J).issue g :=
      Follows.perform trivial (fun _ _ _ _ => hg) fun _ _ _ _ => hg
    refine Follows.bind hdialogue.attempt ?_
    intro dialogue g hg
    refine checked_settle ?_ ?_
    · intro script hscript
      subst hscript
      refine Follows.bind (checked_synthesize hg).attempt ?_
      intro synthesized g hg
      refine checked_settle ?_ ?_
      · intro path hpath
        subst hpath
        obtain ⟨rfl, hg⟩ := hg
        obtain ⟨hpublished, hhash, buffer, hvoiced⟩ := hg
        refine Follows.bind (Q := fun _ g' => g' = g) ?_ ?_
        · exact Follows.perform trivial (fun _ _ _ _ => rfl) fun _ _ _ h => by
            obtain ⟨_, s', h⟩ := h
            cases h
        intro now g' hg'
        subst hg'
        refine Follows.bind (Q := fun _ g => g.published = false) ?_ ?_
        · exact Follows.perform (fun _ => ⟨hpublished, script, buffer, hhash, hvoiced, rfl, rfl⟩)
            (fun _ _ _ _ => rfl) fun _ _ _ _ => rfl
        · intro _ g hp
          exact hp
      · intro e he
        subst he
        exact hg
    · intro e he
      subst he
      rw [hg]

theorem checked_synthesizeCommand : OverviewChecked host key (fun _ g => g.published = false)
    (synthesizeOverviewCommand host notebookId : OverviewProgram S A J OverviewFile) .start := by
  unfold synthesizeOverviewCommand
  refine Follows.bind (checked_unnoted trivial rfl) ?_
  intro available g hg
  subst hg
  cases available with
  | false => exact rfl
  | true =>
    rw [if_pos rfl]
    refine Follows.bind (checked_unnoted trivial rfl) ?_
    intro token g hg
    have hlast : ∀ g : OverviewNotes S A, g.published = false →
        OverviewChecked host key (fun _ g => g.published = false)
          (OverviewCmd.removeTtsIfOwner token : OverviewCmd S A J).issue g := by
      intro g hp
      refine (checked_unnoted (c := (.removeTtsIfOwner token : OverviewCmd S A J)) trivial hp).mono
        ?_ fun _ _ h => h
      intro _ g' hg'
      rw [hg']
      exact hp
    refine Follows.ensuring ?_ (fun _ => hlast) fun _ => hlast
    refine Follows.bind (checked_generate hg) ?_
    intro path g hp
    cases path with
    | some path => exact hp
    | none => exact hp

theorem checked_job (job : OverviewJob) : OverviewChecked host key
    (fun _ g => g.published = false)
    (job.program host notebookId : OverviewProgram S A J Unit) .start := by
  cases job with
  | synthesizeOverview =>
    refine Follows.bind checked_synthesizeCommand ?_
    intro _ g hp
    exact hp
  | cancelSynthesis =>
    refine Follows.bind (checked_unnoted (c := (.cancelSynthesis : OverviewCmd S A J)) trivial rfl) ?_
    intro _ g hg
    rw [hg]
    exact rfl

end Programs

section Runs

variable {S A J ι : Type} {host : OverviewHost S J} {s₀ : OverviewState A J}

/-- Each run has its file to itself, at most one has the overview, and a row that is ready
describes the overview if none has. -/
structure OverviewInv (host : OverviewHost S J) (s₀ : OverviewState A J)
    (g : ι → OverviewNotes S A) (s : OverviewState A J) : Prop where
  temp : ∀ i n, (g i).temp = some n → n < s.nextTemp
  apart : ∀ i j n, (g i).temp = some n → (g j).temp = some n → i = j
  written : ∀ i, (g i).written = true → ∃ n script buffer, (g i).temp = some n ∧
    (g i).voiced = some (script, buffer) ∧ s.files (.temp n) = some buffer
  published : ∀ i, (g i).published = true → ∃ script buffer,
    (g i).voiced = some (script, buffer) ∧ s.files .overview = some buffer
  one : ∀ i j, (g i).published = true → (g j).published = true → i = j
  settled : (∀ i, (g i).published = false) → Describes host s₀ g s

theorem OverviewInv.start : OverviewInv host s₀ (fun _ : ι => .start) s₀ := by
  constructor
  · intro i n h
    cases h
  · intro i j n h
    cases h
  · intro i h
    cases h
  · intro i h
    cases h
  · intro i j h
    cases h
  · intro _ row hrow _
    exact .inl ⟨hrow, rfl⟩

variable [DecidableEq ι] {seen : ι → OverviewNotes S A} {s s' : OverviewState A J} {i : ι}
variable {n : OverviewNotes S A}

theorem update_note {β : Type} (f : OverviewNotes S A → β) (h : f n = f (seen i)) (j : ι) :
    f (Function.update seen i n j) = f (seen j) := by
  by_cases hj : j = i
  · rw [hj, Function.update_self, h]
  · rw [Function.update_of_ne hj]

theorem update_note_some {β : Type} (f : OverviewNotes S A → Option β)
    (h : ∀ b, f (seen i) = some b → f n = some b) {j : ι} {b : β} (hj : f (seen j) = some b) :
    f (Function.update seen i n j) = some b := by
  by_cases hji : j = i
  · rw [hji, Function.update_self]
    rw [hji] at hj
    exact h b hj
  · rw [Function.update_of_ne hji]
    exact hj

/-- What was known before stays known. -/
structure OverviewNotes.Grows (g n : OverviewNotes S A) : Prop where
  hash : ∀ h, g.hash = some h → n.hash = some h
  voiced : ∀ v, g.voiced = some v → n.voiced = some v
  temp : n.temp = g.temp
  written : n.written = g.written
  published : n.published = g.published

theorem OverviewNotes.Grows.refl (g : OverviewNotes S A) : g.Grows g :=
  ⟨fun _ h => h, fun _ h => h, rfl, rfl, rfl⟩

theorem Describes.grows (h : Describes host s₀ seen s)
    (hhash : ∀ h, (seen i).hash = some h → n.hash = some h)
    (hvoiced : ∀ v, (seen i).voiced = some v → n.voiced = some v)
    (hrow : s'.row = s.row) (hoverview : s'.files .overview = s.files .overview) :
    Describes host s₀ (Function.update seen i n) s' := by
  intro row hr hready
  rw [hrow] at hr
  rcases h row hr hready with hold | hnew
  · rw [hoverview]
    exact .inl hold
  · obtain ⟨j, hash, script, buffer, hj, hv, hh, hs, hpath, hf⟩ := hnew
    refine .inr ⟨j, hash, script, buffer, ?_, ?_, hh, hs, hpath, ?_⟩
    · exact update_note_some OverviewNotes.hash hhash hj
    · exact update_note_some OverviewNotes.voiced hvoiced hv
    · rw [hpath] at hf ⊢
      rw [hoverview, hf]

/-- A step that touches no file, no row and no count. -/
theorem OverviewInv.quiet (h : OverviewInv host s₀ seen s) (hn : (seen i).Grows n)
    (hrow : s'.row = s.row) (hfiles : s'.files = s.files) (htemp : s'.nextTemp = s.nextTemp) :
    OverviewInv host s₀ (Function.update seen i n) s' := by
  have ht := update_note OverviewNotes.temp hn.temp
  have hw := update_note OverviewNotes.written hn.written
  have hp := update_note OverviewNotes.published hn.published
  constructor
  · intro j m hj
    rw [ht] at hj
    rw [htemp]
    exact h.temp j m hj
  · intro j k m hj hk
    rw [ht] at hj hk
    exact h.apart j k m hj hk
  · intro j hj
    rw [hw] at hj
    obtain ⟨m, script, buffer, hm, hv, hf⟩ := h.written j hj
    rw [ht, hfiles]
    exact ⟨m, script, buffer, hm, update_note_some OverviewNotes.voiced hn.voiced hv, hf⟩
  · intro j hj
    rw [hp] at hj
    obtain ⟨script, buffer, hv, hf⟩ := h.published j hj
    rw [hfiles]
    exact ⟨script, buffer, update_note_some OverviewNotes.voiced hn.voiced hv, hf⟩
  · intro j k hj hk
    rw [hp] at hj hk
    exact h.one j k hj hk
  · intro hall
    have hs : Describes host s₀ seen s := by
      apply h.settled
      intro j
      rw [← hp]
      exact hall j
    exact hs.grows hn.hash hn.voiced hrow (by rw [hfiles])

/-- A new id is for no file yet. -/
theorem OverviewInv.named (h : OverviewInv host s₀ seen s) (hw : (seen i).written = false) :
    OverviewInv host s₀ (Function.update seen i { seen i with temp := some s.nextTemp })
      { s with nextTemp := s.nextTemp + 1 } := by
  have hnew : ∀ j m, (Function.update seen i { seen i with temp := some s.nextTemp } j).temp =
      some m → (j = i ∧ m = s.nextTemp) ∨ ((seen j).temp = some m ∧ m < s.nextTemp) := by
    intro j m hj
    by_cases hji : j = i
    · rw [hji, Function.update_self] at hj
      cases hj
      exact .inl ⟨hji, rfl⟩
    · rw [Function.update_of_ne hji] at hj
      exact .inr ⟨hj, h.temp j m hj⟩
  have hwritten : ∀ j, (Function.update seen i { seen i with temp := some s.nextTemp } j).written =
    (seen j).written := update_note OverviewNotes.written rfl
  have hvoiced : ∀ j, (Function.update seen i { seen i with temp := some s.nextTemp } j).voiced =
    (seen j).voiced := update_note OverviewNotes.voiced rfl
  have hpublished : ∀ j, (Function.update seen i { seen i with temp := some s.nextTemp }
    j).published = (seen j).published := update_note OverviewNotes.published rfl
  constructor
  · intro j m hj
    show m < s.nextTemp + 1
    rcases hnew j m hj with ⟨_, hm⟩ | ⟨_, hm⟩
    · omega
    · omega
  · intro j k m hj hk
    rcases hnew j m hj with ⟨hji, hm⟩ | ⟨hj', hm⟩
    · rcases hnew k m hk with ⟨hki, _⟩ | ⟨_, hm'⟩
      · rw [hji, hki]
      · omega
    · rcases hnew k m hk with ⟨_, hm'⟩ | ⟨hk', _⟩
      · omega
      · exact h.apart j k m hj' hk'
  · intro j hj
    rw [hwritten] at hj
    have hji : j ≠ i := by
      rintro rfl
      rw [hw] at hj
      cases hj
    rw [Function.update_of_ne hji]
    exact h.written j hj
  · intro j hj
    rw [hpublished] at hj
    rw [hvoiced]
    exact h.published j hj
  · intro j k hj hk
    rw [hpublished] at hj hk
    exact h.one j k hj hk
  · intro hall
    have hs : Describes host s₀ seen s := by
      apply h.settled
      intro j
      rw [← hpublished]
      exact hall j
    exact hs.grows (fun _ h => h) (fun _ h => h) rfl rfl

/-- A step on the run's own file. -/
theorem OverviewInv.own (h : OverviewInv host s₀ seen s) {tmp : Nat} (ht : (seen i).temp = some tmp)
    {a : Option A} {b : Bool}
    (hb : b = true → ∃ script buffer, (seen i).voiced = some (script, buffer) ∧ a = some buffer) :
    OverviewInv host s₀ (Function.update seen i { seen i with written := b })
      (s.setFile (.temp tmp) a) := by
  have htemp : ∀ j, (Function.update seen i { seen i with written := b } j).temp = (seen j).temp :=
    update_note OverviewNotes.temp rfl
  have hvoiced : ∀ j, (Function.update seen i { seen i with written := b } j).voiced =
    (seen j).voiced := update_note OverviewNotes.voiced rfl
  have hpublished : ∀ j, (Function.update seen i { seen i with written := b } j).published =
    (seen j).published := update_note OverviewNotes.published rfl
  constructor
  · intro j m hj
    rw [htemp] at hj
    exact h.temp j m hj
  · intro j k m hj hk
    rw [htemp] at hj hk
    exact h.apart j k m hj hk
  · intro j hj
    rw [htemp, hvoiced]
    by_cases hji : j = i
    · rw [hji, Function.update_self] at hj
      obtain ⟨script, buffer, hv, ha⟩ := hb hj
      refine ⟨tmp, script, buffer, ?_, ?_, ?_⟩
      · rw [hji, ht]
      · rw [hji, hv]
      · rw [s.setFile_self, ha]
    · rw [Function.update_of_ne hji] at hj
      obtain ⟨m, script, buffer, hm, hv, hf⟩ := h.written j hj
      refine ⟨m, script, buffer, hm, hv, ?_⟩
      rw [s.setFile_other, hf]
      intro hmt
      cases hmt
      exact hji (h.apart j i tmp hm ht)
  · intro j hj
    rw [hpublished] at hj
    rw [hvoiced, s.setFile_temp]
    exact h.published j hj
  · intro j k hj hk
    rw [hpublished] at hj hk
    exact h.one j k hj hk
  · intro hall
    have hs : Describes host s₀ seen s := by
      apply h.settled
      intro j
      rw [← hpublished]
      exact hall j
    exact hs.grows (fun _ h => h) (fun _ h => h) rfl (s.setFile_temp _ _)

/-- The overview is the run's from now on. -/
theorem OverviewInv.renamed (h : OverviewInv host s₀ seen s) {script : S} {buffer : A}
    (hv : (seen i).voiced = some (script, buffer))
    (apart : ∀ j, j ≠ i → (seen j).published = false) :
    OverviewInv host s₀ (Function.update seen i { seen i with published := true })
      (s.setFile .overview (some buffer)) := by
  have howner : ∀ j, (Function.update seen i { seen i with published := true } j).published = true →
      j = i := by
    intro j hj
    by_cases hji : j = i
    · exact hji
    · rw [Function.update_of_ne hji, apart j hji] at hj
      cases hj
  have htemp : ∀ j, (Function.update seen i { seen i with published := true } j).temp =
    (seen j).temp := update_note OverviewNotes.temp rfl
  have hvoiced : ∀ j, (Function.update seen i { seen i with published := true } j).voiced =
    (seen j).voiced := update_note OverviewNotes.voiced rfl
  have hwritten : ∀ j, (Function.update seen i { seen i with published := true } j).written =
    (seen j).written := update_note OverviewNotes.written rfl
  constructor
  · intro j m hj
    rw [htemp] at hj
    exact h.temp j m hj
  · intro j k m hj hk
    rw [htemp] at hj hk
    exact h.apart j k m hj hk
  · intro j hj
    rw [hwritten] at hj
    obtain ⟨m, script', buffer', hm, hv', hf⟩ := h.written j hj
    rw [htemp, hvoiced]
    refine ⟨m, script', buffer', hm, hv', ?_⟩
    rw [s.setFile_overview, hf]
  · intro j hj
    rw [howner j hj, Function.update_self]
    exact ⟨script, buffer, hv, s.setFile_self _ _⟩
  · intro j k hj hk
    rw [howner j hj, howner k hk]
  · intro hall
    have hi := hall i
    rw [Function.update_self] at hi
    cases hi

/-- The row is written, and one that is ready describes the overview, which is the run's. -/
theorem OverviewInv.upserted (h : OverviewInv host s₀ seen s) {row : OverviewRow J}
    (hallow : overviewAllows host (.upsertOverview row : OverviewCmd S A J) (seen i)) :
    OverviewInv host s₀ (Function.update seen i { seen i with published := false })
      { s with row := some row } := by
  have htemp : ∀ j, (Function.update seen i { seen i with published := false } j).temp =
    (seen j).temp := update_note OverviewNotes.temp rfl
  have hvoiced : ∀ j, (Function.update seen i { seen i with published := false } j).voiced =
    (seen j).voiced := update_note OverviewNotes.voiced rfl
  have hwritten : ∀ j, (Function.update seen i { seen i with published := false } j).written =
    (seen j).written := update_note OverviewNotes.written rfl
  have hpublished : ∀ j, (Function.update seen i { seen i with published := false }
      j).published = true → (seen j).published = true := by
    intro j hj
    by_cases hji : j = i
    · rw [hji, Function.update_self] at hj
      cases hj
    · rw [Function.update_of_ne hji] at hj
      exact hj
  constructor
  · intro j m hj
    rw [htemp] at hj
    exact h.temp j m hj
  · intro j k m hj hk
    rw [htemp] at hj hk
    exact h.apart j k m hj hk
  · intro j hj
    rw [hwritten] at hj
    rw [htemp, hvoiced]
    exact h.written j hj
  · intro j hj
    rw [hvoiced]
    exact h.published j (hpublished j hj)
  · intro j k hj hk
    exact h.one j k (hpublished j hj) (hpublished k hk)
  · intro _ row' hrow hready
    cases hrow
    obtain ⟨hp, script, buffer, hh, hv, hs, hpath⟩ := hallow hready
    obtain ⟨script', buffer', hv', hf⟩ := h.published i hp
    rw [hv] at hv'
    cases hv'
    refine .inr ⟨i, row.sourceSetHash, script, buffer, ?_, ?_, rfl, hs, hpath, ?_⟩
    · rw [Function.update_self]
      exact hh
    · rw [Function.update_self]
      exact hv
    · rw [hpath]
      exact hf

theorem overviewInv_step {key : String} {c : OverviewCmd S A J} {x : OverviewChoice S A}
    {r : Except LensError c.Reply} (h : OverviewInv host s₀ seen s)
    (hallow : overviewAllows host c (seen i)) (hg : PublishesApart seen i c x s)
    (hr : (overviewMachine key).react c x s = some (r, s')) :
    OverviewInv host s₀
      (Function.update seen i ((overviewMachine key).note (seen i) ⟨c, x, s, r⟩)) s' := by
  have hfault : ∀ {α : Type} {done : α × OverviewState A J} {r : Except LensError α},
      faulty x s done = some (r, s') →
        (∃ e, x.fault = some e ∧ r = .error e ∧ s' = s) ∨
          (x.fault = none ∧ r = .ok done.1 ∧ s' = done.2) := by
    intro α done r hd
    unfold faulty at hd
    cases hx : x.fault with
    | some e =>
      rw [hx] at hd
      cases hd
      exact .inl ⟨e, rfl, rfl, rfl⟩
    | none =>
      rw [hx] at hd
      cases hd
      exact .inr ⟨rfl, rfl, rfl⟩
  cases c with
  | ttsBackendAvailable | registerTts | cancelSynthesis | removeTtsIfOwner | isCancelled
  | resolveTtsProvider | utcNow =>
    cases hr
    exact h.quiet (.refl _) rfl rfl rfl
  | generateDialogue | createDirAll =>
    rcases hfault hr with ⟨e, _, rfl, rfl⟩ | ⟨_, rfl, rfl⟩
    · exact h.quiet (.refl _) rfl rfl rfl
    · exact h.quiet (.refl _) rfl rfl rfl
  | sourceSetHash =>
    have hnone : (seen i).hash = none := hallow
    rcases hfault hr with ⟨e, _, rfl, rfl⟩ | ⟨_, rfl, rfl⟩
    · exact h.quiet (.refl _) rfl rfl rfl
    · refine h.quiet ⟨?_, fun _ hv => hv, rfl, rfl, rfl⟩ rfl rfl rfl
      intro hash hh
      rw [hnone] at hh
      cases hh
  | synthesizeScript =>
    have hnone : (seen i).voiced = none := hallow
    rcases hfault hr with ⟨e, _, rfl, rfl⟩ | ⟨_, rfl, rfl⟩
    · exact h.quiet (.refl _) rfl rfl rfl
    · refine h.quiet ⟨fun _ hh => hh, ?_, rfl, rfl, rfl⟩ rfl rfl rfl
      intro v hv
      rw [hnone] at hv
      cases hv
  | nowV7 =>
    cases hr
    exact h.named hallow
  | writeWav buffer tmp =>
    obtain ⟨ht, script, hv⟩ := hallow
    rcases hfault hr with ⟨e, _, rfl, rfl⟩ | ⟨_, rfl, rfl⟩
    · exact h.quiet (.refl _) rfl rfl rfl
    · exact h.own ht fun _ => ⟨script, buffer, hv, rfl⟩
  | removeFileBestEffort tmp =>
    cases hr
    exact h.own hallow nofun
  | rename tmp =>
    obtain ⟨ht, hw⟩ := hallow
    obtain ⟨m, script, buffer, hm, hv, hf⟩ := h.written i hw
    rw [ht] at hm
    cases hm
    simp only [overviewMachine, OverviewCmd.react, hf] at hr
    rcases hfault hr with ⟨e, _, rfl, rfl⟩ | ⟨hx, rfl, rfl⟩
    · exact h.quiet (.refl _) rfl rfl rfl
    · have hown := h.own ht (a := none) (b := false) nofun
      have hvoiced : (Function.update seen i { seen i with written := false } i).voiced =
          some (script, buffer) := by
        rw [Function.update_self]
        exact hv
      have hren := hown.renamed hvoiced (by
        intro j hj
        rw [Function.update_of_ne hj]
        exact hg hx j hj)
      rw [Function.update_idem, Function.update_self] at hren
      exact hren
  | upsertOverview row =>
    rcases hfault hr with ⟨e, he, rfl, rfl⟩ | ⟨_, rfl, rfl⟩
    · have hp : (seen i).published = false := by
        cases hp : (seen i).published with
        | false => rfl
        | true =>
          rw [hg hp] at he
          cases he
      exact h.quiet ⟨fun _ hh => hh, fun _ hv => hv, rfl, rfl, hp.symm⟩ rfl rfl rfl
    · exact h.upserted hallow

/-- When all runs have come to an end, a row that is ready describes its file, as long as no run
renames its file to the overview between another one's rename and its row, and no row fails to be
written after the rename. -/
theorem overview_describes (host : OverviewHost S J) (notebookId : Str) (jobs : ι → OverviewJob)
    (s₀ : OverviewState A J) {w : Pool ι (OverviewCmd S A J) OverviewCmd.Reply LensError Unit
      (OverviewState A J) (OverviewNotes S A)}
    (run : (overviewStart host notebookId jobs s₀).Run
      (overviewMachine (String.ofList notebookId)) PublishesApart w)
    (hall : ∀ i, (w.thread i).program.Ended) : Describes host s₀ w.seen w.state := by
  obtain ⟨hinv, hf⟩ := run.keeps (d := fun _ => overviewDiscipline host)
    (I := OverviewInv host s₀) (fun _ _ _ _ => trivial)
    (fun _ _ _ _ _ _ _ h ha hg hr => overviewInv_step h ha hg hr)
    OverviewInv.start fun i => checked_job (jobs i)
  apply hinv.settled
  intro i
  exact (hf i).ended (hall i)

end Runs

def plainOverview : OverviewHost Nat Nat := ⟨some, "no TTS backend available", String.ofList⟩

def noOverview : OverviewState Nat Nat := ⟨⟨fun _ => ∅, ∅, 0⟩, none, fun _ => none, 0⟩

/-- All goes well for a run, and what it makes is its own. -/
def ownChoice : Bool → OverviewChoice Nat Nat
  | true => ⟨none, true, ['a'], 1, 1⟩
  | false => ⟨none, true, ['b'], 2, 2⟩

def goesOn (i : Bool) (steps : Nat) : List (Bool × OverviewChoice Nat Nat) :=
  List.replicate steps (i, ownChoice i)

def bothGenerate (_ : Bool) : OverviewJob := .synthesizeOverview

/-- The second run starts and ends between the rename of the first one and its row. -/
def crossedOverviews : List (Bool × OverviewChoice Nat Nat) :=
  goesOn true 12 ++ goesOn false 15 ++ goesOn true 3

/-- The row of the first run is over the audio of the second one. -/
theorem crossed_overviews_mismatch : ∃ w,
    (overviewStart plainOverview ['n'] bothGenerate noOverview).Run
      (overviewMachine (String.ofList ['n'])) Unrestricted w ∧
    (∀ i, (w.thread i).program.Returned) ∧ ¬ Describes plainOverview noOverview w.seen w.state := by
  have h : ((overviewStart plainOverview ['n'] bothGenerate noOverview).play
      (overviewMachine (String.ofList ['n'])) Unrestricted crossedOverviews).any (fun w =>
        ((w.thread true).program.Returned && (w.thread false).program.Returned) &&
        (w.state.row = some ⟨.overview, ['a'], .ready, ['a'], some 1⟩ &&
          w.state.files .overview = some 2) &&
        ((w.seen true).voiced = some (1, 1) && (w.seen false).hash = some ['b'])) = true := by
    decide +kernel
  obtain ⟨w, hw, hp⟩ := Pool.run_of_play h
  simp only [Bool.and_eq_true, decide_eq_true_eq] at hp
  obtain ⟨⟨⟨htrue, hfalse⟩, hrow, hfile⟩, hvoiced, hhash⟩ := hp
  refine ⟨w, hw, ?_, ?_⟩
  · intro i
    cases i with
    | true => exact htrue
    | false => exact hfalse
  · intro hd
    rcases hd _ hrow rfl with ⟨hold, _⟩ | ⟨i, hash, script, buffer, hh, hv, hr, _, _, hf⟩
    · cases hold
    · cases i with
      | true =>
        rw [hvoiced] at hv
        cases hv
        rw [hfile] at hf
        cases hf
      | false =>
        rw [hhash] at hh
        cases hh
        cases hr

instance (g : Bool → OverviewNotes Nat Nat) (i : Bool) (c : OverviewCmd Nat Nat Nat)
    (x : OverviewChoice Nat Nat) (s : OverviewState Nat Nat) :
    Decidable (PublishesApart g i c x s) :=
  match c with
  | .rename _ => inferInstanceAs
    (Decidable (x.fault = none → ∀ j, j ≠ i → (g j).published = false))
  | .upsertOverview _ => inferInstanceAs (Decidable ((g i).published = true → x.fault = none))
  | .ttsBackendAvailable | .registerTts | .cancelSynthesis | .removeTtsIfOwner _ | .isCancelled _
  | .sourceSetHash | .generateDialogue _ | .resolveTtsProvider | .synthesizeScript _ _
  | .createDirAll | .nowV7 | .writeWav _ _ | .removeFileBestEffort _ | .utcNow => .isTrue trivial

/-- One run after the other. -/
theorem overview_describes_twice : ∃ w,
    (overviewStart plainOverview ['n'] bothGenerate noOverview).Run
      (overviewMachine (String.ofList ['n'])) PublishesApart w ∧
    Describes plainOverview noOverview w.seen w.state ∧
    w.state.row.map OverviewRow.status = some .ready := by
  have h : ((overviewStart plainOverview ['n'] bothGenerate noOverview).play
      (overviewMachine (String.ofList ['n'])) PublishesApart (goesOn true 15 ++ goesOn false 15)).any
        (fun w => ((w.thread true).program.Returned && (w.thread false).program.Returned) &&
          w.state.row.map OverviewRow.status = some .ready) = true := by
    decide +kernel
  obtain ⟨w, hw, hp⟩ := Pool.run_of_play h
  simp only [Bool.and_eq_true, decide_eq_true_eq] at hp
  refine ⟨w, hw, overview_describes plainOverview ['n'] bothGenerate noOverview hw ?_, hp.2⟩
  intro i
  cases i with
  | true => exact .inl hp.1.1
  | false => exact .inl hp.1.2

end LensLM
