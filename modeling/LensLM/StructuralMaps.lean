import LensLM.Dialogue
import LensLM.LlmBudgetBound
import LensLM.TextBatches
import LensLM.Lib.FirstSeen

/-!
# The structural map of a document

An answer of the model is cut to its bounds when it is parsed. The maps of the sections are merged by
the model, or here when it fails three times: that union is neither cut nor free of repeated
definitions.
-/

namespace LensLM

open ByteText Grouping FirstSeen Effects Outcome

set_option autoImplicit false

section Merge

/-- The lists of a map are the unions of those of the partial maps. -/
structure MergesUnions (partials : List StructuralMap) (map : StructuralMap) : Prop where
  entities : UnionOf (partials.map StructuralMap.entities) map.entities
  definitions : UnionOf (partials.map StructuralMap.definitions) map.definitions
  dates : UnionOf (partials.map StructuralMap.dates) map.dates

section Unions

variable (partials : List StructuralMap)

theorem unionOf_entities :
    UnionOf (partials.map StructuralMap.entities) (mergePartials partials).entities := by
  unfold mergePartials
  dsimp only
  rw [List.flatMap_def]
  exact unionOf_foldl_pushNew _

theorem unionOf_dates : UnionOf (partials.map StructuralMap.dates) (mergePartials partials).dates := by
  unfold mergePartials
  dsimp only
  rw [List.flatMap_def]
  exact unionOf_foldl_pushNew _

/-- The definitions alone are put together as they are. -/
theorem mergePartials_unions_iff : MergesUnions partials (mergePartials partials) ↔
    (partials.flatMap StructuralMap.definitions).Nodup := by
  have hdefinitions : (mergePartials partials).definitions =
      (partials.map StructuralMap.definitions).flatten := List.flatMap_def
  rw [List.flatMap_def, ← unionOf_flatten_iff, ← hdefinitions]
  constructor
  · exact MergesUnions.definitions
  · intro h
    exact ⟨unionOf_entities partials, h, unionOf_dates partials⟩

end Unions

/-- Two sections that define one term in the same words. -/
def definedTwice : List StructuralMap :=
  [⟨[], [⟨"API".toList, "an interface".toList⟩], [], []⟩,
    ⟨[], [⟨"API".toList, "an interface".toList⟩], [], []⟩]

theorem mergePartials_unions_twice : ¬ MergesUnions definedTwice (mergePartials definedTwice) := by
  intro h
  have hnodup := h.definitions.nodup
  revert hnodup
  decide

end Merge

section Bounds

def structuralMapMaxEntities : Nat := 200
def structuralMapMaxDefinitions : Nat := 200
def structuralMapMaxDates : Nat := 200
def structuralMapMaxSummaryChars : Nat := 4000
def structuralMapMaxFieldChars : Nat := 1000

def truncateChars (s : Str) (maxChars : Nat) : Str := s.take maxChars

def StructuralMap.boundSizes (map : StructuralMap) : StructuralMap where
  entities := (map.entities.take structuralMapMaxEntities).map fun entity =>
    truncateChars entity structuralMapMaxFieldChars
  definitions := (map.definitions.take structuralMapMaxDefinitions).map fun d =>
    ⟨truncateChars d.term structuralMapMaxFieldChars,
      truncateChars d.definition structuralMapMaxFieldChars⟩
  dates := (map.dates.take structuralMapMaxDates).map fun date =>
    truncateChars date structuralMapMaxFieldChars
  summary := truncateChars map.summary structuralMapMaxSummaryChars

/-- `fromStr` is the reader of the JSON library for a map without other fields. -/
def StructuralMap.parseStrict (fromStr : Str → Except String StructuralMap) (body : Str) :
    Except LensError StructuralMap :=
  match fromStr ((extractJsonObject body).getD body) with
  | .ok map => .ok map.boundSizes
  | .error e => .error (.parse ("structural map invalid: " ++ e))

structure StructuralMap.Bounded (map : StructuralMap) : Prop where
  entities : map.entities.length ≤ structuralMapMaxEntities
  definitions : map.definitions.length ≤ structuralMapMaxDefinitions
  dates : map.dates.length ≤ structuralMapMaxDates
  summary : map.summary.length ≤ structuralMapMaxSummaryChars

theorem StructuralMap.boundSizes_bounded (map : StructuralMap) : map.boundSizes.Bounded where
  entities := (List.length_map _).trans_le (List.length_take_le _ _)
  definitions := (List.length_map _).trans_le (List.length_take_le _ _)
  dates := (List.length_map _).trans_le (List.length_take_le _ _)
  summary := List.length_take_le _ _

theorem StructuralMap.parseStrict_bounded {fromStr : Str → Except String StructuralMap} {body : Str}
    {map : StructuralMap} (h : parseStrict fromStr body = .ok map) : map.Bounded := by
  unfold parseStrict at h
  split at h
  · obtain rfl := Except.ok.inj h
    exact boundSizes_bounded _
  · cases h

/-- The summaries that are put together. -/
def summaries (partials : List StructuralMap) : List Str :=
  (partials.map StructuralMap.summary).filter fun s => !s.all isWhitespace

/-- The maps of the sections have together no more than one map may have. -/
structure FitTogether (partials : List StructuralMap) : Prop where
  entities : (partials.flatMap StructuralMap.entities).toFinset.card ≤ structuralMapMaxEntities
  definitions : (partials.flatMap StructuralMap.definitions).length ≤ structuralMapMaxDefinitions
  dates : (partials.flatMap StructuralMap.dates).toFinset.card ≤ structuralMapMaxDates
  summary : ((summaries partials).map List.length).sum + ((summaries partials).length - 1) ≤
    structuralMapMaxSummaryChars

theorem length_intercalate_blank (texts : List Str) :
    (" ".toList.intercalate texts).length = (texts.map List.length).sum + (texts.length - 1) := by
  induction texts with
  | nil => rfl
  | cons text texts ih =>
    cases texts with
    | nil => simp
    | cons next texts =>
      rw [List.intercalate_cons_cons, List.length_append, List.length_append, ih]
      simp only [List.map_cons, List.sum_cons, List.length_cons]
      have hblank : " ".toList.length = 1 := rfl
      omega

theorem bounded_mergePartials_iff (partials : List StructuralMap) :
    (mergePartials partials).Bounded ↔ FitTogether partials := by
  have hentities := (unionOf_entities partials).length_eq
  have hdates := (unionOf_dates partials).length_eq
  have hsummary : (mergePartials partials).summary.length =
      ((summaries partials).map List.length).sum + ((summaries partials).length - 1) :=
    length_intercalate_blank _
  rw [← List.flatMap_def] at hentities hdates
  constructor
  · intro h
    exact ⟨hentities ▸ h.entities, h.definitions, hdates ▸ h.dates, hsummary ▸ h.summary⟩
  · intro h
    exact ⟨hentities ▸ h.entities, h.definitions, hdates ▸ h.dates, hsummary ▸ h.summary⟩

end Bounds

section Runs

variable {σ : Type} (host : LlmHost σ) (parentTexts : List Str)

/-- The calls for the sections, under the nonce of the world in which the map is begun. -/
def sectionMaps (st : JobState σ) : Eff MapError (JobState σ) (List StructuralMap) :=
  let nonce := host.fenceNonce st.world
  (batchParents parentTexts).foldlM (mapSection host nonce (mapSystemWithGuard nonce)) []

/-- The call that merges the maps of the sections. -/
def reduceMaps (st : JobState σ) (partials : List StructuralMap) :
    Eff MapError (JobState σ) (Option StructuralMap) :=
  let nonce := host.fenceNonce st.world
  mapOneBatch host (mapSystemWithGuard nonce)
    ("These are partial structural maps of different sections of ONE document. Merge them into a single structural map for the whole document:\n".toList ++
      fenceExcerpt nonce (renderPartialsForReduce host partials))

/-- The model answered for some of several sections, and all its answers to the merging call were
malformed. -/
structure MergesSections (st : JobState σ) (partials : List StructuralMap) : Prop where
  several : ∀ batch, batchParents parentTexts ≠ [batch]
  answered : partials ≠ []
  unreduced : ∃ st₁ st₂, (sectionMaps host parentTexts st).run.run st = (.ok partials, st₁) ∧
    (reduceMaps host st partials).run.run st₁ = (.ok none, st₂)

variable {host parentTexts} {st st' : JobState σ}

/-- The map of several sections, when they have been answered. -/
def reduced (host : LlmHost σ) (st : JobState σ) (partials : List StructuralMap) :
    Eff MapError (JobState σ) MapOutcome :=
  if partials.isEmpty then pure .fallback
  else do
    match ← reduceMaps host st partials with
    | some map => pure (.ok map)
    | none => pure (.ok (mergePartials partials))

theorem run_several (h : ∀ batch, batchParents parentTexts ≠ [batch]) :
    (buildStructuralMap host parentTexts).run.run st =
      (sectionMaps host parentTexts st >>= reduced host st).run.run st := by
  unfold buildStructuralMap
  split
  · rename_i hempty
    obtain rfl := List.isEmpty_iff.mp hempty
    rfl
  · rw [run_bind_ok (x := getNonce host) (a := host.fenceNonce st.world) rfl]
    dsimp only
    split
    · rename_i batch hbatch
      exact absurd hbatch (h batch)
    · rfl

theorem MergesSections.run {partials : List StructuralMap} (h : MergesSections host parentTexts st partials) :
    ∃ st', (buildStructuralMap host parentTexts).run.run st =
      (.ok (.ok (mergePartials partials)), st') := by
  obtain ⟨st₁, st₂, hsections, hreduce⟩ := h.unreduced
  have hanswered : ¬ partials.isEmpty = true := fun hempty => h.answered (List.isEmpty_iff.mp hempty)
  refine ⟨st₂, ?_⟩
  rw [run_several h.several, run_bind_ok hsections]
  unfold reduced
  rw [if_neg hanswered, run_bind_ok hreduce]
  rfl

/-- A map that is returned was read from an answer, or it was merged. -/
theorem returned_of_run {map : StructuralMap}
    (h : (buildStructuralMap host parentTexts).run.run st = (.ok (.ok map), st')) :
    (∃ systemPrompt userPrompt st₁ st₂,
      (mapOneBatch host systemPrompt userPrompt).run.run st₁ = (.ok (some map), st₂)) ∨
      ∃ partials, MergesSections host parentTexts st partials ∧ map = mergePartials partials := by
  by_cases hseveral : ∀ batch, batchParents parentTexts ≠ [batch]
  · rw [run_several hseveral] at h
    obtain ⟨partials, st₁, hsections, h⟩ := run_bind_eq_ok.mp h
    unfold reduced at h
    split at h
    · cases h
    · rename_i hanswered
      obtain ⟨outcome, st₂, hreduce, h⟩ := run_bind_eq_ok.mp h
      cases outcome with
      | some reduct =>
        cases h
        exact .inl ⟨_, _, st₁, _, hreduce⟩
      | none =>
        cases h
        refine .inr ⟨partials, ⟨hseveral, ?_, st₁, _, hsections, hreduce⟩, rfl⟩
        rintro rfl
        exact hanswered rfl
  · push Not at hseveral
    obtain ⟨batch, hbatch⟩ := hseveral
    unfold buildStructuralMap at h
    split at h
    · cases h
    · rw [run_bind_ok (x := getNonce host) (a := host.fenceNonce st.world) rfl, hbatch] at h
      obtain ⟨outcome, st₂, hcall, h⟩ := run_bind_eq_ok.mp h
      cases outcome with
      | some read =>
        cases h
        exact .inl ⟨_, _, st, _, hcall⟩
      | none => cases h

/-- The same provider with the strict reader. -/
def LlmHost.reading (host : LlmHost σ) (fromStr : Str → Except String StructuralMap) : LlmHost σ :=
  { host with parseStrict := StructuralMap.parseStrict fromStr }

theorem ensures_attempts {T : Type} (host : LlmHost σ) (systemPrompt userPrompt : Str) (maxTokens : Nat)
    (parse : Str → Except LensError T) (attempt left : Nat) (lastBody : Str) :
    Ensures (attempts host systemPrompt userPrompt maxTokens parse attempt left lastBody)
      fun outcome => ∀ value, outcome = some value → ∃ body, parse body = .ok value := by
  induction left generalizing attempt lastBody with
  | zero => exact ensures_pure (by simp)
  | succ left ih =>
    unfold attempts
    apply (ensures_returned _).bind
    intro _ _
    apply (ensures_returned _).bind
    intro resp _
    apply (ensures_returned _).bind
    intro _ _
    split
    · rename_i value hparse
      apply ensures_pure
      intro _ heq
      exact ⟨resp.text, hparse.trans (congrArg Except.ok (Option.some.inj heq))⟩
    · exact ih _ _

theorem mapOneBatch_bounded {fromStr : Str → Except String StructuralMap}
    {systemPrompt userPrompt : Str} {map : StructuralMap}
    (h : (mapOneBatch (host.reading fromStr) systemPrompt userPrompt).run.run st =
      (.ok (some map), st')) : map.Bounded := by
  have hread := ensures_attempts (host.reading fromStr) systemPrompt userPrompt
    enrichmentMapMaxTokens (StructuralMap.parseStrict fromStr) 0 (enrichmentMaxRetries + 1) [] st
  obtain ⟨body, hbody⟩ := hread.value (congrArg Prod.fst h) map rfl
  exact StructuralMap.parseStrict_bounded hbody

/-- Every map that is returned is within the caps, unless maps of sections are merged that do not fit
together. -/
theorem bounded_buildStructuralMap_iff (host : LlmHost σ)
    (fromStr : Str → Except String StructuralMap) (parentTexts : List Str) (st : JobState σ) :
    (∀ map st', (buildStructuralMap (host.reading fromStr) parentTexts).run.run st =
      (.ok (.ok map), st') → map.Bounded) ↔
      ∀ partials, MergesSections (host.reading fromStr) parentTexts st partials → FitTogether partials := by
  constructor
  · intro h partials hmerges
    obtain ⟨st', hrun⟩ := hmerges.run
    exact (bounded_mergePartials_iff partials).mp (h _ st' hrun)
  · intro h map st' hrun
    rcases returned_of_run hrun with ⟨_, _, _, _, hcall⟩ | ⟨partials, hmerges, rfl⟩
    · exact mapOneBatch_bounded hcall
    · exact (bounded_mergePartials_iff partials).mpr (h partials hmerges)

end Runs

section Overfull

variable {σ : Type}

/-- The state of a job behind a call that was answered. -/
def JobState.answered (st : JobState σ) (world : World σ) (tokensUsed : Nat) : JobState σ where
  world := { world with session := world.session.record tokensUsed }
  budget := st.budget.record tokensUsed
  dispatched := st.dispatched ++ [true]

theorem LlmHost.parseStrict_reading (host : LlmHost σ) (fromStr : Str → Except String StructuralMap) :
    (host.reading fromStr).parseStrict = StructuralMap.parseStrict fromStr := rfl

theorem run_attempts_answered {T : Type} {host : LlmHost σ} {st : JobState σ} {resp : LlmResponse}
    {world : World σ} {maxTokens : Nat}
    (hroom : st.budget.checkBeforeDispatch st.world.session maxTokens = .ok)
    (hcall : ∀ req, (host.generate req).run.run st.world = (.ok resp, world))
    (systemPrompt userPrompt : Str) (parse : Str → Except LensError T) (attempt left : Nat)
    (lastBody : Str) :
    (attempts host systemPrompt userPrompt maxTokens parse attempt (left + 1) lastBody).run.run st =
      (match parse resp.text with
        | .ok value => pure (some value)
        | .error _ => attempts host systemPrompt userPrompt maxTokens parse (attempt + 1) left
          resp.text).run.run (st.answered world resp.tokensUsed) := by
  have hcheck : (checkBudget maxTokens).run.run st = (.ok ⟨⟩, st) :=
    if_neg (by rw [hroom]; exact fun h => by cases h)
  have hrecord : ∀ st' : JobState σ, (recordCall resp.tokensUsed).run.run st' =
      (.ok ⟨⟩, { st' with
        budget := st'.budget.record resp.tokensUsed
        world := { st'.world with session := st'.world.session.record resp.tokensUsed } }) :=
    fun _ => rfl
  rw [attempts, run_bind_ok hcheck, run_bind_ok (dispatch_ok (hcall _)), run_bind_ok (hrecord _)]
  rfl

/-- A provider that gives its answers one after the other. -/
def scriptedHost : LlmHost (List Str) where
  generate := fun _ => ExceptT.mk fun world =>
    match world.rest with
    | [] => (.error (.network "connection refused"), world)
    | text :: rest => (.ok ⟨text, 100⟩, { world with rest := rest })
  fenceNonce := fun _ => "0123456789ab".toList
  parseStrict := fun _ => .error (.parse "structural map invalid")
  parseAdjudication := fun _ => .error (.parse "adjudication invalid")
  debugStrs := fun _ => []
  formatSim := fun _ => "0.800".toList

/-- A job after some calls of a hundred tokens. -/
def afterCalls (n : Nat) (answers : List Str) : JobState (List Str) where
  world := ⟨⟨100 * n, n, 500000⟩, answers⟩
  budget := ⟨100 * n, n, 50000, 8⟩
  dispatched := List.replicate n true

theorem run_attempts_scripted {T : Type} {n : Nat} (hn : n < 8) (text : Str) (answers : List Str)
    (fromStr : Str → Except String StructuralMap) (systemPrompt userPrompt : Str)
    (parse : Str → Except LensError T) (attempt left : Nat) (lastBody : Str) :
    (attempts (scriptedHost.reading fromStr) systemPrompt userPrompt enrichmentMapMaxTokens parse
      attempt (left + 1) lastBody).run.run (afterCalls n (text :: answers)) =
      (match parse text with
        | .ok value => pure (some value)
        | .error _ => attempts (scriptedHost.reading fromStr) systemPrompt userPrompt
          enrichmentMapMaxTokens parse (attempt + 1) left text).run.run (afterCalls (n + 1) answers) := by
  have hroom : (afterCalls n (text :: answers)).budget.checkBeforeDispatch
      (afterCalls n (text :: answers)).world.session enrichmentMapMaxTokens = .ok := by
    have hu : u32Max = 4294967295 := rfl
    have hm : enrichmentMapMaxTokens = 1024 := rfl
    simp only [Budget.checkBeforeDispatch, afterCalls, saturatingAdd, hu, hm]
    rw [if_neg (by omega), if_neg (by omega), if_neg (by omega)]
  have hnext : (afterCalls n (text :: answers)).answered ⟨⟨100 * n, n, 500000⟩, answers⟩ 100 =
      afterCalls (n + 1) answers := by
    simp only [JobState.answered, afterCalls, SessionBudget.record, Budget.record, saturatingAdd,
      List.replicate_succ', Nat.mul_succ]
    rw [Nat.mod_eq_of_lt (by omega), Nat.mod_eq_of_lt (by omega),
      Nat.min_eq_left (by unfold u32Max; omega), Nat.min_eq_left (by unfold u32Max; omega)]
  have hcall : ∀ req, ((scriptedHost.reading fromStr).generate req).run.run
      (afterCalls n (text :: answers)).world = (.ok ⟨text, 100⟩, ⟨⟨100 * n, n, 500000⟩, answers⟩) :=
    fun _ => rfl
  rw [← hnext]
  exact run_attempts_answered hroom hcall systemPrompt userPrompt parse attempt left lastBody

/-- A section with half of the characters that a summary may have, and one more. -/
def longMap : StructuralMap := ⟨[], [], [], List.replicate 2001 'a'⟩

def longAnswer : Str :=
  "\x7b\"entities\":[],\"definitions\":[],\"dates\":[],\"summary\":\"".toList ++ longMap.summary ++
    "\"\x7d".toList

def readLong (body : Str) : Except String StructuralMap :=
  if body = longAnswer then .ok longMap else .error "expected value at line 1 column 1"

def longParents : List Str := [List.replicate 5000 'a', List.replicate 5000 'a']

theorem parseStrict_longAnswer : StructuralMap.parseStrict readLong longAnswer = .ok longMap := by
  have hextract : extractJsonObject longAnswer = some longAnswer := by decide +kernel
  have hread : readLong longAnswer = .ok longMap := if_pos rfl
  have hbound : longMap.boundSizes = longMap := by decide +kernel
  unfold StructuralMap.parseStrict
  rw [hextract, Option.getD_some, hread]
  dsimp only
  rw [hbound]

theorem run_longAnswer {n : Nat} (hn : n < 8) (answers : List Str) (systemPrompt userPrompt : Str) :
    (mapOneBatch (scriptedHost.reading readLong) systemPrompt userPrompt).run.run
      (afterCalls n (longAnswer :: answers)) = (.ok (some longMap), afterCalls (n + 1) answers) := by
  unfold mapOneBatch runLlmWithRetries
  rw [run_attempts_scripted hn, LlmHost.parseStrict_reading, parseStrict_longAnswer]
  rfl

/-- Answers that are not JSON, to all attempts. -/
theorem run_refusals {left n : Nat} (hn : n + left ≤ 8)
    (systemPrompt userPrompt : Str) (attempt : Nat) (lastBody : Str) :
    (attempts (scriptedHost.reading readLong) systemPrompt userPrompt enrichmentMapMaxTokens
      (StructuralMap.parseStrict readLong) attempt left lastBody).run.run
        (afterCalls n (List.replicate left "No.".toList)) = (.ok none, afterCalls (n + left) []) := by
  have hparse : StructuralMap.parseStrict readLong "No.".toList =
      .error (.parse "structural map invalid: expected value at line 1 column 1") := by
    decide +kernel
  induction left generalizing n attempt lastBody with
  | zero => rfl
  | succ left ih =>
    rw [List.replicate_succ, run_attempts_scripted (by omega), hparse]
    dsimp only
    rw [ih (by omega), Nat.succ_add_eq_add_succ]

theorem run_mapSection_long {n : Nat} (hn : n < 8) (answers : List Str) (nonce system batch : Str)
    (partials : List StructuralMap) :
    (mapSection (scriptedHost.reading readLong) nonce system partials batch).run.run
      (afterCalls n (longAnswer :: answers)) =
        (.ok (partials ++ [longMap]), afterCalls (n + 1) answers) := by
  unfold mapSection
  rw [run_bind_ok (run_longAnswer hn answers system _)]
  rfl

/-- Two sections are answered, and no answer merges them. -/
def overfull : JobState (List Str) :=
  afterCalls 0 (longAnswer :: longAnswer :: List.replicate (enrichmentMaxRetries + 1) "No.".toList)

theorem merges_overfull :
    MergesSections (scriptedHost.reading readLong) longParents overfull [longMap, longMap] := by
  have htwo : (batchParents longParents).length = 2 := by decide +kernel
  obtain ⟨first, second, hbatches⟩ := List.length_eq_two.mp htwo
  refine ⟨?_, List.cons_ne_nil _ _,
    afterCalls 2 (List.replicate (enrichmentMaxRetries + 1) "No.".toList), _, ?_,
    run_refusals (by decide) _ _ 0 []⟩
  · intro batch hone
    rw [hone] at htwo
    cases htwo
  · unfold sectionMaps overfull
    rw [hbatches, List.foldlM_cons, run_bind_ok (run_mapSection_long (by decide) _ _ _ _ _),
      List.foldlM_cons, run_bind_ok (run_mapSection_long (by decide) _ _ _ _ _)]
    rfl

theorem buildStructuralMap_overfull : ¬ ∀ map st',
    (buildStructuralMap (scriptedHost.reading readLong) longParents).run.run overfull =
      (.ok (.ok map), st') → map.Bounded := by
  intro h
  obtain ⟨st', hrun⟩ := merges_overfull.run
  have hfit := (bounded_mergePartials_iff [longMap, longMap]).mp (h _ st' hrun)
  have hsummary := hfit.summary
  revert hsummary
  decide +kernel

end Overfull

end LensLM
