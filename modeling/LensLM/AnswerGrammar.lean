import LensLM.AnswerStream

/-!
# The grammar of an answer

The words of the stream are the ones that a phase at a time accepts. What a stream emits is a
beginning of a word exactly if no thinking follows the text, and there is text.
-/

namespace LensLM

open ByteText

set_option autoImplicit false

section Words

/-- `Stage(Thinking)` comes with the thinking it announces. -/
def thinkingPart (thoughts : List Str) : List AnswerEvent :=
  if thoughts = [] then [] else .stage .thinking :: thoughts.map .thinkingDelta

/-- The words of a successful run. -/
inductive Word : List AnswerEvent → Prop
  | intro (thoughts texts : List Str) (cites : List Citation) (tokensUsed : Nat) (grounded : Bool)
      (citationCount : Nat) :
      Word (.stage .retrieving :: (thinkingPart thoughts ++ .stage .answering ::
        (texts.map .textDelta ++ [.citations cites, .done tokensUsed grounded citationCount])))

inductive AnswerPhase where
  | fresh
  | retrieving
  | announced
  | thinking
  | answering
  | cited
  | done
deriving DecidableEq, Repr

def AnswerPhase.advance : AnswerPhase → AnswerEvent → Option AnswerPhase
  | .fresh, .stage .retrieving => some .retrieving
  | .retrieving, .stage .thinking => some .announced
  | .retrieving, .stage .answering => some .answering
  | .announced, .thinkingDelta _ => some .thinking
  | .thinking, .thinkingDelta _ => some .thinking
  | .thinking, .stage .answering => some .answering
  | .answering, .textDelta _ => some .answering
  | .answering, .citations _ => some .cited
  | .cited, .done _ _ _ => some .done
  | _, _ => none

/-- What leads to a phase. -/
def AnswerPhase.Reads : AnswerPhase → List AnswerEvent → Prop
  | .fresh, w => w = []
  | .retrieving, w => w = [.stage .retrieving]
  | .announced, w => w = [.stage .retrieving, .stage .thinking]
  | .thinking, w => ∃ thoughts, thoughts ≠ [] ∧ w = .stage .retrieving :: thinkingPart thoughts
  | .answering, w => ∃ thoughts, ∃ texts : List Str, w = .stage .retrieving :: (thinkingPart thoughts ++
      .stage .answering :: texts.map .textDelta)
  | .cited, w => ∃ thoughts, ∃ texts : List Str, ∃ cites, w = .stage .retrieving :: (thinkingPart thoughts ++
      .stage .answering :: (texts.map .textDelta ++ [.citations cites]))
  | .done, w => Word w

theorem thinkingPart_append {thoughts : List Str} (h : thoughts ≠ []) (s : Str) :
    thinkingPart thoughts ++ [.thinkingDelta s] = thinkingPart (thoughts ++ [s]) := by
  unfold thinkingPart
  rw [if_neg h, if_neg (by simp)]
  simp

/-- A phase that is reached has read what leads to it. -/
theorem AnswerPhase.reads_advance {p p' : AnswerPhase} {w : List AnswerEvent} {e : AnswerEvent} (h : p.Reads w)
    (he : p.advance e = some p') : p'.Reads (w ++ [e]) := by
  unfold AnswerPhase.advance at he
  split at he
  · cases he
    rw [show w = [] from h]
    rfl
  · cases he
    rw [show w = _ from h]
    rfl
  · cases he
    rw [show w = _ from h]
    exact ⟨[], [], rfl⟩
  · cases he
    rename_i s
    rw [show w = _ from h]
    exact ⟨[s], by simp, rfl⟩
  · cases he
    rename_i s
    obtain ⟨thoughts, hne, rfl⟩ := h
    refine ⟨thoughts ++ [s], by simp, ?_⟩
    rw [List.cons_append, thinkingPart_append hne]
  · cases he
    obtain ⟨thoughts, hne, rfl⟩ := h
    exact ⟨thoughts, [], rfl⟩
  · cases he
    rename_i s
    obtain ⟨thoughts, texts, rfl⟩ := h
    exact ⟨thoughts, texts ++ [s], by simp⟩
  · cases he
    rename_i cites
    obtain ⟨thoughts, texts, rfl⟩ := h
    exact ⟨thoughts, texts, cites, by simp⟩
  · cases he
    rename_i tokens grounded count
    obtain ⟨thoughts, texts, cites, rfl⟩ := h
    have hword := Word.intro thoughts texts cites tokens grounded count
    show Word _
    simpa using hword
  · cases he

theorem AnswerPhase.reads_of_foldlM {w : List AnswerEvent} {p : AnswerPhase}
    (h : w.foldlM AnswerPhase.advance .fresh = some p) : p.Reads w := by
  induction w using List.reverseRecOn generalizing p with
  | nil =>
    cases h
    rfl
  | append_singleton w e ih =>
    rw [List.foldlM_append] at h
    obtain ⟨q, hq, he⟩ := Option.bind_eq_some_iff.mp h
    rw [List.foldlM_cons] at he
    obtain ⟨p', hp', he⟩ := Option.bind_eq_some_iff.mp he
    cases he
    exact AnswerPhase.reads_advance (ih hq) hp'

/-- What has been read up to a phase can be completed. -/
theorem AnswerPhase.Reads.completes {p : AnswerPhase} {w : List AnswerEvent} (h : p.Reads w) :
    ∃ word, Word word ∧ w <+: word := by
  have hlast : ∀ thoughts texts : List Str, ∃ word, Word word ∧
      .stage .retrieving :: (thinkingPart thoughts ++ .stage .answering :: texts.map .textDelta) <+:
        word := by
    intro thoughts texts
    refine ⟨_, .intro thoughts texts [] 0 true 0, [.citations [], .done 0 true 0], ?_⟩
    simp
  cases p with
  | fresh =>
    obtain ⟨word, hword, _⟩ := hlast [] []
    rw [show w = [] from h]
    exact ⟨word, hword, List.nil_prefix⟩
  | retrieving =>
    obtain ⟨word, hword, hp⟩ := hlast [] []
    rw [show w = _ from h]
    exact ⟨word, hword, (List.prefix_append _ _).trans hp⟩
  | announced =>
    obtain ⟨word, hword, hp⟩ := hlast [[]] []
    rw [show w = _ from h]
    exact ⟨word, hword, (List.prefix_append [AnswerEvent.stage .retrieving, .stage .thinking] _).trans hp⟩
  | thinking =>
    obtain ⟨thoughts, _, rfl⟩ := h
    obtain ⟨word, hword, hp⟩ := hlast thoughts []
    refine ⟨word, hword, List.IsPrefix.trans ?_ hp⟩
    exact ⟨[.stage .answering], by simp⟩
  | answering =>
    obtain ⟨thoughts, texts, rfl⟩ := h
    exact hlast thoughts texts
  | cited =>
    obtain ⟨thoughts, texts, cites, rfl⟩ := h
    refine ⟨_, .intro thoughts texts cites 0 true 0, [.done 0 true 0], ?_⟩
    simp
  | done => exact ⟨w, h, List.prefix_refl w⟩

theorem AnswerPhase.advance_thinking (thoughts : List Str) :
    (thoughts.map AnswerEvent.thinkingDelta).foldlM AnswerPhase.advance .thinking = some .thinking := by
  induction thoughts with
  | nil => rfl
  | cons s thoughts ih => exact ih

theorem AnswerPhase.advance_texts (texts : List Str) :
    (texts.map AnswerEvent.textDelta).foldlM AnswerPhase.advance .answering = some .answering := by
  induction texts with
  | nil => rfl
  | cons s texts ih => exact ih

theorem Word.accepted {w : List AnswerEvent} (h : Word w) :
    w.foldlM AnswerPhase.advance .fresh = some .done := by
  obtain ⟨thoughts, texts, cites, tokens, grounded, count⟩ := h
  have hend : (.stage .answering :: (texts.map AnswerEvent.textDelta ++
      [.citations cites, .done tokens grounded count])).foldlM AnswerPhase.advance .thinking =
        some .done := by
    show (texts.map AnswerEvent.textDelta ++ _).foldlM AnswerPhase.advance .answering = _
    rw [List.foldlM_append, AnswerPhase.advance_texts]
    rfl
  unfold thinkingPart
  split
  · exact hend
  · rename_i hne
    obtain ⟨s, thoughts, rfl⟩ := List.exists_cons_of_ne_nil hne
    show (thoughts.map AnswerEvent.thinkingDelta ++ _).foldlM AnswerPhase.advance .thinking = _
    rw [List.foldlM_append, AnswerPhase.advance_thinking]
    exact hend

/-- The beginnings of words are what the phases read. -/
theorem beginning_iff {w : List AnswerEvent} :
    (∃ word, Word word ∧ w <+: word) ↔ (w.foldlM AnswerPhase.advance .fresh).isSome = true := by
  constructor
  · rintro ⟨_, hword, tail, rfl⟩
    have h := hword.accepted
    rw [List.foldlM_append] at h
    obtain ⟨p, hp, _⟩ := Option.bind_eq_some_iff.mp h
    rw [hp]
    rfl
  · intro h
    obtain ⟨p, hp⟩ := Option.isSome_iff_exists.mp h
    exact (AnswerPhase.reads_of_foldlM hp).completes

end Words

section Emissions

/-- What the steps of a stream hand out. -/
def emissions (steps : List AnswerStep) : List AnswerItem :=
  steps.filterMap fun step =>
    match step with
    | .emit item => some item
    | .look => none

@[simp] theorem emissions_nil : emissions [] = [] := rfl

@[simp] theorem emissions_emit (item : AnswerItem) (steps : List AnswerStep) :
    emissions (.emit item :: steps) = item :: emissions steps := rfl

@[simp] theorem emissions_look (steps : List AnswerStep) :
    emissions (.look :: steps) = emissions steps := rfl

@[simp] theorem emissions_append (a b : List AnswerStep) :
    emissions (a ++ b) = emissions a ++ emissions b := List.filterMap_append

/-- The events among the items. -/
def eventsOf (items : List AnswerItem) : List AnswerEvent :=
  items.filterMap fun item =>
    match item with
    | .ok e => some e
    | .error _ => none

@[simp] theorem eventsOf_nil : eventsOf [] = [] := rfl

@[simp] theorem eventsOf_ok (e : AnswerEvent) (items : List AnswerItem) :
    eventsOf (.ok e :: items) = e :: eventsOf items := rfl

@[simp] theorem eventsOf_error (err : LensError) (items : List AnswerItem) :
    eventsOf (.error err :: items) = eventsOf items := rfl

@[simp] theorem eventsOf_append (a b : List AnswerItem) :
    eventsOf (a ++ b) = eventsOf a ++ eventsOf b := List.filterMap_append

/-- An error ends the items, and is not among those of a finished run. -/
def ErrorLast (items : List AnswerItem) : Prop :=
  ∀ pre err post, items = pre ++ .error err :: post →
    post = [] ∧ ∀ tokens grounded count, .done tokens grounded count ∉ eventsOf pre

/-- The steps of a stream that is in a phase: the events advance it, an error comes last, and no
look comes between `Stage(Thinking)` and the thinking. -/
def Sound : AnswerPhase → List AnswerStep → Prop
  | p, [] => p = .done
  | p, .look :: steps => p ≠ .announced ∧ Sound p steps
  | p, .emit (.ok e) :: steps => ∃ p', p.advance e = some p' ∧ Sound p' steps
  | p, .emit (.error _) :: steps => steps = [] ∧ p ≠ .announced ∧ p ≠ .done

/-- Up to a point the steps have led to a phase, unless an error has ended them there. -/
theorem Sound.split {before after : List AnswerStep} {p : AnswerPhase} (h : Sound p (before ++ after)) :
    (∃ p', (eventsOf (emissions before)).foldlM AnswerPhase.advance p = some p' ∧ Sound p' after ∧
        ∀ err, .error err ∉ emissions before) ∨
      ∃ p' pre err, before = pre ++ [.emit (.error err)] ∧ after = [] ∧
        (eventsOf (emissions pre)).foldlM AnswerPhase.advance p = some p' ∧ p' ≠ .announced ∧
          p' ≠ .done ∧ ∀ err, .error err ∉ emissions pre := by
  induction before generalizing p with
  | nil => exact .inl ⟨p, rfl, h, nofun⟩
  | cons step before ih =>
    cases step with
    | look =>
      rcases ih h.2 with h | ⟨p', pre, err, rfl, hrest⟩
      · exact .inl h
      · exact .inr ⟨p', .look :: pre, err, rfl, hrest⟩
    | emit item =>
      cases item with
      | error err =>
        obtain ⟨hnil, hne, hdone⟩ := h
        obtain ⟨rfl, rfl⟩ := List.append_eq_nil_iff.mp hnil
        exact .inr ⟨p, [], err, rfl, rfl, rfl, hne, hdone, nofun⟩
      | ok e =>
        obtain ⟨q, hq, h⟩ := h
        have hcons : ∀ l, (e :: l).foldlM AnswerPhase.advance p = l.foldlM AnswerPhase.advance q := by
          intro l
          rw [List.foldlM_cons, hq]
          rfl
        rcases ih h with ⟨p', hp', hsound, hno⟩ | ⟨p', pre, err, rfl, hnil, hp', hne, hdone, hno⟩
        · refine .inl ⟨p', ?_, hsound, ?_⟩
          · simp only [emissions_emit, eventsOf_ok, hcons]
            exact hp'
          · intro err hmem
            rcases List.mem_cons.mp hmem with he | hmem
            · cases he
            · exact hno err hmem
        · refine .inr ⟨p', .emit (.ok e) :: pre, err, rfl, hnil, ?_, hne, hdone, ?_⟩
          · simp only [emissions_emit, eventsOf_ok, hcons]
            exact hp'
          · intro err hmem
            rcases List.mem_cons.mp hmem with he | hmem
            · cases he
            · exact hno err hmem

/-- Thinking is announced, and what is announced comes. -/
theorem AnswerPhase.Reads.paired {p : AnswerPhase} {w : List AnswerEvent} (h : p.Reads w) (hp : p ≠ .announced) :
    .stage .thinking ∈ w ↔ ∃ t, .thinkingDelta t ∈ w := by
  have hpart : ∀ (thoughts : List Str) (tail : List AnswerEvent),
      (.stage .thinking ∉ tail) → (∀ t, .thinkingDelta t ∉ tail) →
        (.stage .thinking ∈ .stage .retrieving :: (thinkingPart thoughts ++ tail) ↔
          ∃ t, .thinkingDelta t ∈ AnswerEvent.stage .retrieving :: (thinkingPart thoughts ++ tail)) := by
    intro thoughts tail hstage hdelta
    unfold thinkingPart
    cases thoughts with
    | nil => simp [hstage, hdelta]
    | cons t thoughts =>
      rw [if_neg (by simp)]
      constructor
      · exact fun _ => ⟨t, by simp⟩
      · intro _
        simp
  cases p with
  | fresh =>
    rw [show w = [] from h]
    simp
  | retrieving =>
    rw [show w = _ from h]
    simp
  | announced => exact absurd rfl hp
  | thinking =>
    obtain ⟨thoughts, _, rfl⟩ := h
    simpa using hpart thoughts [] (by simp) (by simp)
  | answering =>
    obtain ⟨thoughts, texts, rfl⟩ := h
    exact hpart thoughts _ (by simp) (by simp)
  | cited =>
    obtain ⟨thoughts, texts, cites, rfl⟩ := h
    exact hpart thoughts _ (by simp) (by simp)
  | done =>
    obtain ⟨thoughts, texts, cites, tokens, grounded, count⟩ := h
    exact hpart thoughts _ (by simp) (by simp)

/-- Only the last phase has read `Done`. -/
theorem AnswerPhase.Reads.not_done {p : AnswerPhase} {w : List AnswerEvent} (h : p.Reads w) (hp : p ≠ .done)
    (tokens : Nat) (grounded : Bool) (count : Nat) : .done tokens grounded count ∉ w := by
  have hpart : ∀ thoughts : List Str, .done tokens grounded count ∉ thinkingPart thoughts := by
    intro thoughts
    unfold thinkingPart
    split
    · simp
    · simp
  cases p with
  | fresh =>
    rw [show w = [] from h]
    simp
  | retrieving =>
    rw [show w = _ from h]
    simp
  | announced =>
    rw [show w = _ from h]
    simp
  | thinking =>
    obtain ⟨thoughts, _, rfl⟩ := h
    simp [hpart]
  | answering =>
    obtain ⟨thoughts, texts, rfl⟩ := h
    simp [hpart]
  | cited =>
    obtain ⟨thoughts, texts, cites, rfl⟩ := h
    simp [hpart]
  | done => exact absurd rfl hp

end Emissions

namespace AnswerRun

variable {κ V : Type} {ctx : AnswerCtx κ V} {s s' : AnswerRun}

section Invariant

/-- The steps of the stream up to where the run is, and what comes after. -/
structure Inv (ctx : AnswerCtx κ V) (s : AnswerRun) (before after : List AnswerStep) : Prop where
  split : ctx.answerStream = before ++ after
  out : s.out = emissions before
  running : s.stopped = false → s.rest = after
  stopped : s.stopped = true → s.rest = [] ∧ ∃ steps, after = .look :: steps
  prompt : s.cancelled = true → s.Trippable
  late : s.late = []

theorem inv_of_reachable (h : Reachable ctx s) : ∃ before after, s.Inv ctx before after := by
  induction h with
  | start => exact ⟨[], ctx.answerStream, rfl, rfl, fun _ => rfl, nofun, nofun, rfl⟩
  | @trip s s' _ htrip hs ih =>
    obtain ⟨before, after, h⟩ := ih
    cases hs
    exact ⟨before, after, h.split, h.out, h.running, h.stopped, fun _ => htrip, h.late⟩
  | @poll s s' _ hs ih =>
    obtain ⟨before, after, h⟩ := ih
    have hrunning : s.stopped = false := by
      cases hstop : s.stopped with
      | false => rfl
      | true =>
        simp [step, (h.stopped hstop).1] at hs
    have hafter := h.running hrunning
    cases hrest : s.rest with
    | nil => simp [step, hrest] at hs
    | cons next rest =>
      rw [hrest] at hafter
      cases next with
      | emit item =>
        have hcancelled : s.cancelled = false := by
          cases hc : s.cancelled with
          | false => rfl
          | true => exact absurd hrest (h.prompt hc item rest)
        simp only [step, hrest, hcancelled, Bool.false_eq_true, if_false, Option.some.injEq] at hs
        subst hs
        refine ⟨before ++ [.emit item], rest, ?_, ?_, fun _ => rfl, ?_, ?_, h.late⟩
        · rw [h.split, ← hafter]
          simp
        · rw [emissions_append, h.out]
          rfl
        · intro hstop
          rw [hrunning] at hstop
          cases hstop
        · intro hc
          cases hc
      | look =>
        cases hc : s.cancelled with
        | true =>
          simp only [step, hrest, hc, if_true, Option.some.injEq] at hs
          subst hs
          exact ⟨before, after, h.split, h.out, nofun, fun _ => ⟨rfl, rest, hafter.symm⟩,
            fun _ => nofun, h.late⟩
        | false =>
          simp only [step, hrest, hc, Bool.false_eq_true, if_false, Option.some.injEq] at hs
          subst hs
          refine ⟨before ++ [.look], rest, ?_, ?_, fun _ => rfl, ?_, ?_, h.late⟩
          · rw [h.split, ← hafter]
            simp
          · rw [emissions_append, h.out]
            simp
          · intro hstop
            rw [hrunning] at hstop
            cases hstop
          · intro hcan
            cases hcan

/-- What the stream has handed out is a beginning of a word, the whole of it if the run ends well,
nothing comes after an error or after the token has tripped, and thinking is announced. -/
structure Lawful (s : AnswerRun) : Prop where
  beginning : ∃ word, Word word ∧ eventsOf s.out <+: word
  word : s.rest = [] → s.stopped = false → (∀ err, .error err ∉ s.out) → Word (eventsOf s.out)
  errorLast : ErrorLast s.out
  silent : s.late = []
  thinking : s.rest = [] →
    (.stage .thinking ∈ eventsOf s.out ↔ ∃ t, .thinkingDelta t ∈ eventsOf s.out)

theorem Inv.lawful {before after : List AnswerStep} (h : s.Inv ctx before after)
    (hsound : Sound .fresh ctx.answerStream) : s.Lawful := by
  rw [h.split] at hsound
  rcases hsound.split with ⟨p, hp, hafter, hno⟩ | ⟨p, pre, err, rfl, rfl, hp, hne, hdone, hno⟩
  · rw [← h.out] at hp hno
    have hreads := AnswerPhase.reads_of_foldlM hp
    refine ⟨hreads.completes, ?_, ?_, h.late, ?_⟩
    · intro hrest hstop _
      rw [← h.running hstop, hrest] at hafter
      rw [show p = .done from hafter] at hreads
      exact hreads
    · intro pre err post hout
      exact absurd (hout ▸ List.mem_append_right pre List.mem_cons_self) (hno err)
    · intro hrest
      apply hreads.paired
      cases hstop : s.stopped with
      | false =>
        rw [← h.running hstop, hrest] at hafter
        rw [show p = .done from hafter]
        exact nofun
      | true =>
        obtain ⟨_, steps, rfl⟩ := h.stopped hstop
        exact hafter.1
  · have hreads := AnswerPhase.reads_of_foldlM hp
    have hevents : eventsOf s.out = eventsOf (emissions pre) := by
      rw [h.out]
      simp
    refine ⟨?_, ?_, ?_, h.late, ?_⟩
    · rw [hevents]
      exact hreads.completes
    · intro _ _ hok
      apply absurd _ (hok err)
      rw [h.out]
      simp
    · intro pre' err' post hout
      rw [h.out, emissions_append] at hout
      rcases List.eq_nil_or_concat post with rfl | ⟨post, item, rfl⟩
      · obtain ⟨hpre, _⟩ := List.append_inj' hout rfl
        refine ⟨rfl, fun tokens grounded count => ?_⟩
        rw [← hpre]
        exact hreads.not_done hdone tokens grounded count
      · rw [List.concat_eq_append, ← List.cons_append, ← List.append_assoc] at hout
        obtain ⟨hpre, _⟩ := List.append_inj' hout rfl
        exact absurd (hpre ▸ List.mem_append_right pre' List.mem_cons_self) (hno err')
    · intro _
      rw [hevents]
      exact hreads.paired hne

/-- An uncancelled run comes to every point of the stream. -/
theorem reachable_of_split (ctx : AnswerCtx κ V) {before after : List AnswerStep}
    (h : ctx.answerStream = before ++ after) :
    Reachable ctx ⟨after, false, false, emissions before, []⟩ := by
  induction before using List.reverseRecOn generalizing after with
  | nil =>
    rw [show after = ctx.answerStream from h.symm]
    exact .start
  | append_singleton before step ih =>
    have hprev : Reachable ctx ⟨step :: after, false, false, emissions before, []⟩ := by
      apply ih
      rw [h]
      simp
    apply hprev.poll
    cases step with
    | look => simp [AnswerRun.step]
    | emit item => simp [AnswerRun.step]

end Invariant

section Orderly

/-- From where the text has started or not, the items bring the thinking before the text, and text
before they end. -/
def OrderlyFrom : Bool → List (Except LensError StreamChunk) → Prop
  | answering, [] => answering = true
  | answering, .ok (.thinkingDelta _) :: items => answering = false ∧ OrderlyFrom answering items
  | _, .ok (.textDelta _) :: items => OrderlyFrom true items
  | answering, .ok (.done _) :: items => OrderlyFrom answering items
  | _, .error _ :: _ => True

/-- The phase of the loop over the items. -/
def phaseOf (relay : AnswerCtx.Relay) : AnswerPhase :=
  if relay.answeringStarted then .answering
  else if relay.thinkingStarted then .thinking else .retrieving

/-- Nothing is kept before the text starts. -/
def Blank (relay : AnswerCtx.Relay) : Prop :=
  relay.answeringStarted = false → relay.answerText = [] ∧ relay.redactor.flush.1 = []

theorem phaseOf_ne_announced (relay : AnswerCtx.Relay) : phaseOf relay ≠ .announced := by
  unfold phaseOf
  split
  · exact nofun
  · split
    · exact nofun
    · exact nofun

theorem sound_emitText (text : Str) {steps : List AnswerStep} (h : Sound .answering steps) :
    Sound .answering (AnswerCtx.emitText text ++ steps) := by
  unfold AnswerCtx.emitText
  split
  · exact h
  · exact ⟨.answering, rfl, h⟩

theorem sound_finish {units : List (ContextUnit κ)} {relay : AnswerCtx.Relay}
    (h : relay.answeringStarted = true) : Sound (phaseOf relay) (ctx.finish units relay) := by
  have hphase : phaseOf relay = .answering := if_pos h
  unfold AnswerCtx.finish
  refine ⟨phaseOf_ne_announced relay, ?_⟩
  rw [hphase]
  apply sound_emitText
  split
  · exact ⟨rfl, nofun, nofun⟩
  · exact ⟨nofun, .cited, rfl, .done, rfl, rfl⟩

theorem sound_relayItems {units : List (ContextUnit κ)} {r : AnswerCtx.Relay}
    {items : List (Except LensError StreamChunk)}
    (h : OrderlyFrom r.answeringStarted items) :
    Sound (phaseOf r) (ctx.relayItems units r items) := by
  induction items generalizing r with
  | nil => exact sound_finish h
  | cons item items ih =>
    cases item with
    | error err =>
      refine ⟨phaseOf_ne_announced r, rfl, phaseOf_ne_announced r, ?_⟩
      unfold phaseOf
      split
      · exact nofun
      · split
        · exact nofun
        · exact nofun
    | ok chunk =>
      cases chunk with
      | done t => exact ⟨phaseOf_ne_announced r, ih (r := { r with tokensUsed := t }) h⟩
      | thinkingDelta s =>
        refine ⟨phaseOf_ne_announced r, ?_⟩
        obtain ⟨hanswering, h⟩ := h
        have hnext := ih (r := { r with thinkingStarted := true }) h
        have hphase : phaseOf { r with thinkingStarted := true } = .thinking := by
          unfold phaseOf
          rw [if_neg (by simp [hanswering]), if_pos rfl]
        rw [hphase] at hnext
        unfold phaseOf AnswerCtx.stageOnce
        rw [if_neg (by simp [hanswering])]
        cases r.thinkingStarted with
        | true => exact ⟨.thinking, rfl, hnext⟩
        | false => exact ⟨.announced, rfl, .thinking, rfl, hnext⟩
      | textDelta s =>
        refine ⟨phaseOf_ne_announced r, ?_⟩
        have hnext := ih (r := { r with
          answeringStarted := true
          answerText := r.answerText ++ s
          redactor := (r.redactor.push s).2 }) h
        have hemit := sound_emitText (r.redactor.push s).1 hnext
        revert hemit
        unfold phaseOf AnswerCtx.stageOnce
        cases r.answeringStarted with
        | true => exact fun hemit => hemit
        | false =>
          cases r.thinkingStarted with
          | true => exact fun hemit => ⟨.answering, rfl, hemit⟩
          | false => exact fun hemit => ⟨.answering, rfl, hemit⟩

/-- The stream of the provider, if the run comes to it. -/
def Streams (ctx : AnswerCtx κ V) (items : List (Except LensError StreamChunk)) : Prop :=
  ∃ qvec units titles sections, ctx.embedQuery ctx.retrievalQuery = .ok qvec ∧
    ctx.tieredSearch ctx.retrievalQuery qvec ctx.reservedHistoryTokens = .ok units ∧ units ≠ [] ∧
      ctx.loadSourceTitles units = .ok titles ∧ ctx.loadSectionLabels units = .ok sections ∧
        ctx.generateStream (AnswerCtx.request (ctx.fit units titles sections)) = .ok items

theorem sound_noSources : Sound .retrieving ctx.noSources := by
  unfold AnswerCtx.noSources
  split
  · exact ⟨rfl, nofun, nofun⟩
  · exact ⟨rfl, nofun, nofun⟩
  · exact ⟨.answering, rfl, .answering, rfl, .cited, rfl, .done, rfl, rfl⟩

theorem sound_answerStream (h : ∀ items, Streams ctx items → OrderlyFrom false items) :
    Sound .fresh ctx.answerStream := by
  refine ⟨.retrieving, rfl, nofun, nofun, ?_⟩
  split
  · exact ⟨rfl, nofun, nofun⟩
  · rename_i qvec hqvec
    refine ⟨nofun, ?_⟩
    split
    · exact ⟨rfl, nofun, nofun⟩
    · rename_i units hunits
      refine ⟨nofun, ?_⟩
      split
      · exact sound_noSources
      · rename_i hne
        unfold AnswerCtx.generateAnswer
        split
        · exact ⟨rfl, nofun, nofun⟩
        · rename_i titles htitles
          split
          · exact ⟨rfl, nofun, nofun⟩
          · rename_i sections hsections
            refine ⟨nofun, ?_⟩
            split
            · exact ⟨rfl, nofun, nofun⟩
            · rename_i items hitems
              apply sound_relayItems (r := .new ctx.nonce)
              apply h
              refine ⟨qvec, units, titles, sections, hqvec, hunits, ?_, htitles, hsections, hitems⟩
              simpa using hne

/-- The phase that the steps of a stream lead to. -/
def after (p : AnswerPhase) (steps : List AnswerStep) : Option AnswerPhase :=
  (eventsOf (emissions steps)).foldlM AnswerPhase.advance p

@[simp] theorem after_look (p : AnswerPhase) (steps : List AnswerStep) :
    after p (.look :: steps) = after p steps := rfl

@[simp] theorem after_emit (p : AnswerPhase) (e : AnswerEvent) (steps : List AnswerStep) :
    after p (.emit (.ok e) :: steps) = (p.advance e).bind fun p' => after p' steps := by
  unfold after
  rw [emissions_emit, eventsOf_ok, List.foldlM_cons]
  rfl

theorem after_emitText (text : Str) (steps : List AnswerStep) :
    after .answering (AnswerCtx.emitText text ++ steps) = after .answering steps := by
  unfold AnswerCtx.emitText
  split
  · rfl
  · rfl

theorem phaseOf_false {r : AnswerCtx.Relay} (h : r.answeringStarted = false) :
    phaseOf r = .thinking ∨ phaseOf r = .retrieving := by
  unfold phaseOf
  rw [h]
  cases r.thinkingStarted with
  | true => exact .inl rfl
  | false => exact .inr rfl

theorem blank_new (nonce : Str) : Blank (.new nonce) := by
  intro _
  refine ⟨rfl, ?_⟩
  simp [AnswerCtx.Relay.new, FenceRedactor.flush, FenceRedactor.stripComplete, FenceRedactor.new,
    cutAll]

/-- Without text, the citations come where `Stage(Answering)` should. -/
theorem after_finish (ctx : AnswerCtx κ V) (units : List (ContextUnit κ)) {r : AnswerCtx.Relay}
    (hblank : Blank r)
    (h : r.answeringStarted = false) : after (phaseOf r) (ctx.finish units r) = none := by
  obtain ⟨htext, hflush⟩ := hblank h
  have hcites : extractCitations r.answerText units = [] := by
    rw [htext]
    simp [extractCitations, namedUnits, parseMarkers, scanMarkers, Grouping.group]
  unfold AnswerCtx.finish
  rw [hflush, hcites]
  have hload : ctx.loadChunkLocators (distinctChunkIds []) = .ok ∅ := rfl
  simp only [hload, AnswerCtx.emitText, List.isEmpty_nil, if_true, List.nil_append, after_look,
    after_emit]
  rcases phaseOf_false h with hp | hp
  · rw [hp]
    rfl
  · rw [hp]
    rfl

theorem orderlyFrom_of_after {units : List (ContextUnit κ)} {r : AnswerCtx.Relay}
    {items : List (Except LensError StreamChunk)} (hblank : Blank r) {q : AnswerPhase}
    (h : after (phaseOf r) (ctx.relayItems units r items) = some q) :
    OrderlyFrom r.answeringStarted items := by
  induction items generalizing r with
  | nil =>
    cases hr : r.answeringStarted with
    | true => rfl
    | false =>
      have hnone := after_finish ctx units hblank hr
      rw [show ctx.finish units r = ctx.relayItems units r [] from rfl, h] at hnone
      cases hnone
  | cons item items ih =>
    cases item with
    | error err => trivial
    | ok chunk =>
      cases chunk with
      | done t => exact ih (r := { r with tokensUsed := t }) hblank h
      | thinkingDelta s =>
        simp only [AnswerCtx.relayItems, after_look] at h
        cases hr : r.answeringStarted with
        | true =>
          rw [show phaseOf r = .answering from if_pos hr] at h
          cases hthinking : r.thinkingStarted with
          | true => simp [AnswerCtx.stageOnce, hthinking, AnswerPhase.advance] at h
          | false => simp [AnswerCtx.stageOnce, hthinking, AnswerPhase.advance] at h
        | false =>
          have hnext : after .thinking
              (ctx.relayItems units { r with thinkingStarted := true } items) = some q := by
            rw [← h]
            unfold phaseOf
            rw [if_neg (by simp [hr])]
            cases hthinking : r.thinkingStarted with
            | true => simp [AnswerCtx.stageOnce, AnswerPhase.advance]
            | false => simp [AnswerCtx.stageOnce, AnswerPhase.advance]
          have hphase : phaseOf { r with thinkingStarted := true } = .thinking := by
            unfold phaseOf
            rw [if_neg (by simp [hr]), if_pos rfl]
          rw [← hphase] at hnext
          have hrest := ih (r := { r with thinkingStarted := true }) hblank hnext
          exact ⟨rfl, hr ▸ hrest⟩
      | textDelta s =>
        simp only [AnswerCtx.relayItems, after_look] at h
        apply ih (r := { r with
          answeringStarted := true
          answerText := r.answerText ++ s
          redactor := (r.redactor.push s).2 }) nofun
        rw [← h]
        cases hr : r.answeringStarted with
        | true =>
          rw [show phaseOf r = .answering from if_pos hr]
          simp only [AnswerCtx.stageOnce, if_true, List.nil_append]
          rw [after_emitText]
          rfl
        | false =>
          simp only [AnswerCtx.stageOnce, Bool.false_eq_true, if_false, List.cons_append,
            List.nil_append, after_emit]
          rcases phaseOf_false hr with hp | hp
          · rw [hp]
            exact (after_emitText _ _).symm
          · rw [hp]
            exact (after_emitText _ _).symm

/-- The items before the first error: thinking comes before text, and text comes before an end. -/
structure OrderlyItems (items : List (Except LensError StreamChunk)) : Prop where
  thinkingFirst : ∀ pre s post, items = pre ++ .ok (.thinkingDelta s) :: post →
    (∀ err, .error err ∉ pre) → ∀ t, .ok (.textDelta t) ∉ pre
  answers : (∀ err, .error err ∉ items) → ∃ t, .ok (.textDelta t) ∈ items

/-- Where thinking comes in items that have one more in front. -/
theorem thinking_cons {item : Except LensError StreamChunk}
    {items : List (Except LensError StreamChunk)} {C : List (Except LensError StreamChunk) → Prop} :
    (∀ pre s post, item :: items = pre ++ .ok (.thinkingDelta s) :: post → C pre) ↔
      (∀ s, item = .ok (.thinkingDelta s) → C []) ∧
        ∀ pre s post, items = pre ++ .ok (.thinkingDelta s) :: post → C (item :: pre) := by
  constructor
  · intro h
    refine ⟨fun s hs => h [] s items (by rw [hs]; rfl), fun pre s post hitems => ?_⟩
    apply h (item :: pre) s post
    rw [hitems]
    rfl
  · intro ⟨hhead, htail⟩ pre s post hitems
    cases pre with
    | nil => exact hhead s (List.cons.inj hitems).1
    | cons x pre =>
      obtain ⟨hx, hrest⟩ := List.cons.inj hitems
      subst hx
      exact htail pre s post hrest

theorem orderlyFrom_iff (answering : Bool) (items : List (Except LensError StreamChunk)) :
    OrderlyFrom answering items ↔
      (∀ pre s post, items = pre ++ .ok (.thinkingDelta s) :: post → (∀ err, .error err ∉ pre) →
        answering = false ∧ ∀ t, .ok (.textDelta t) ∉ pre) ∧
      ((∀ err, .error err ∉ items) → answering = true ∨ ∃ t, .ok (.textDelta t) ∈ items) := by
  induction items generalizing answering with
  | nil => simp [OrderlyFrom]
  | cons item items ih =>
    rw [thinking_cons]
    cases item with
    | error err =>
      refine ⟨fun _ => ⟨⟨nofun, ?_⟩, ?_⟩, fun _ => trivial⟩
      · exact fun _ _ _ _ hno => absurd List.mem_cons_self (hno err)
      · exact fun hno => absurd List.mem_cons_self (hno err)
    | ok chunk =>
      cases chunk with
      | done t =>
        unfold OrderlyFrom
        rw [ih]
        simp
      | thinkingDelta s =>
        unfold OrderlyFrom
        rw [ih]
        cases answering with
        | true => simp
        | false => simp
      | textDelta s =>
        unfold OrderlyFrom
        rw [ih]
        constructor
        · rintro ⟨h, _⟩
          refine ⟨⟨nofun, fun pre s' post hitems hno => ?_⟩, fun _ => .inr ⟨s, List.mem_cons_self⟩⟩
          have hpre : ∀ err, .error err ∉ pre := fun err he => hno err (List.mem_cons_of_mem _ he)
          exact absurd (h pre s' post hitems hpre).1 nofun
        · rintro ⟨⟨_, h⟩, _⟩
          refine ⟨fun pre s' post hitems hno => ?_, fun _ => .inl rfl⟩
          have hpre : ∀ err, .error err ∉ .ok (.textDelta s) :: pre := by
            intro err he
            rcases List.mem_cons.mp he with he | he
            · cases he
            · exact hno err he
          exact absurd List.mem_cons_self ((h pre s' post hitems hpre).2 s)

theorem orderlyFrom_false_iff (items : List (Except LensError StreamChunk)) :
    OrderlyFrom false items ↔ OrderlyItems items := by
  rw [orderlyFrom_iff]
  constructor
  · rintro ⟨h, h'⟩
    exact ⟨fun pre s post hitems hno => (h pre s post hitems hno).2, fun hno =>
      (h' hno).resolve_left nofun⟩
  · rintro ⟨h, h'⟩
    exact ⟨fun pre s post hitems hno => ⟨rfl, h pre s post hitems hno⟩, fun hno => .inr (h' hno)⟩

theorem answerStream_of_streams {items : List (Except LensError StreamChunk)}
    (h : Streams ctx items) : ∃ units,
      after .fresh ctx.answerStream =
        after .retrieving (ctx.relayItems units (.new ctx.nonce) items) := by
  obtain ⟨qvec, units, titles, sections, hqvec, hunits, hne, htitles, hsections, hitems⟩ := h
  refine ⟨(ctx.fit units titles sections).units, ?_⟩
  have hempty : units.isEmpty = false := by
    cases units with
    | nil => exact absurd rfl hne
    | cons unit units => rfl
  unfold AnswerCtx.answerStream AnswerCtx.generateAnswer
  rw [hqvec]
  dsimp only
  rw [hunits]
  dsimp only
  rw [hempty, htitles]
  dsimp only
  rw [hsections]
  dsimp only
  rw [hitems]
  rfl

/-- A run that is not cancelled shows what the items of the provider do to the grammar. -/
theorem orderly_of_lawful (h : ∀ s, Reachable ctx s → s.Lawful)
    {items : List (Except LensError StreamChunk)} (hs : Streams ctx items) : OrderlyItems items := by
  have hfull := h _ (reachable_of_split ctx (List.append_nil ctx.answerStream).symm)
  obtain ⟨q, hq⟩ := Option.isSome_iff_exists.mp (beginning_iff.mp hfull.beginning)
  obtain ⟨units, hunits⟩ := answerStream_of_streams hs
  rw [← orderlyFrom_false_iff]
  apply orderlyFrom_of_after (r := .new ctx.nonce) (blank_new ctx.nonce)
  rw [← hq]
  exact hunits.symm

/-- An item that is ready when the token trips is handed out afterwards. -/
theorem late_of_trip (h : ¬ s.Trippable) :
    ∃ s', s.step .trip = some s' ∧ ∃ s'', s'.step .poll = some s'' ∧ ¬ s''.Lawful := by
  unfold Trippable at h
  push Not at h
  obtain ⟨item, rest, hrest⟩ := h
  refine ⟨_, rfl, _, by simp only [step, hrest]; rfl, fun hlawful => ?_⟩
  have hsilent := hlawful.silent
  simp at hsilent

/-- In every run whose token trips only where the stream looks at it next, the stream is lawful,
exactly if the provider brings its thinking before its text, and text before it ends. In no other
state may the token trip. -/
theorem answerStream_lawful_iff (ctx : AnswerCtx κ V) :
    ((∀ s, Reachable ctx s → s.Lawful) ↔ ∀ items, Streams ctx items → OrderlyItems items) ∧
      ∀ s, Reachable ctx s → ¬ s.Trippable →
        ∃ s', s.step .trip = some s' ∧ ∃ s'', s'.step .poll = some s'' ∧ ¬ s''.Lawful := by
  refine ⟨⟨fun h items hs => orderly_of_lawful h hs, fun h s hreach => ?_⟩,
    fun s _ htrip => late_of_trip htrip⟩
  obtain ⟨before, after, hinv⟩ := inv_of_reachable hreach
  apply hinv.lawful
  apply sound_answerStream
  exact fun items hs => (orderlyFrom_false_iff items).mpr (h items hs)

end Orderly

section Examples

/-- A model that stops while it thinks. -/
def thinkingOnly : AnswerCtx Nat Unit where
  question := "why?".toList
  history := []
  condenseFollowups := false
  modelContext := 0
  tokenizer := none
  prompts := ⟨fun _ => [], fun _ _ _ question _ => question, fun _ question => ([], question)⟩
  nonce := "9f".toList
  generate := fun _ => .error (.network "unused")
  embedQuery := fun _ => .ok ()
  tieredSearch := fun _ _ _ => .ok [{
    text := "because".toList
    sourceId := "s"
    chunkId := "c"
    parentId := none
    locator := none
    orderIndex := 0
    provenance := ⟨.dense, none⟩ }]
  hasLiveChunk := .ok true
  hasActiveIndex := .ok true
  loadSourceTitles := fun _ => .ok fun _ => none
  loadSectionLabels := fun _ => .ok fun _ => none
  generateStream := fun _ => .ok [.ok (.thinkingDelta "hm".toList), .ok (.done 7)]
  chunkRows := fun _ => .ok ∅

/-- Its answer is cited and done without `Stage(Answering)`. -/
theorem thinkingOnly_unlawful : ¬ ∀ s, Reachable thinkingOnly s → s.Lawful := by
  intro h
  have hstreams : Streams thinkingOnly [.ok (.thinkingDelta "hm".toList), .ok (.done 7)] :=
    ⟨(), _, fun _ => none, fun _ => none, rfl, rfl, by simp, rfl, rfl, rfl⟩
  obtain ⟨t, ht⟩ := (orderly_of_lawful h hstreams).answers (by simp)
  simp at ht

end Examples

end AnswerRun

end LensLM
