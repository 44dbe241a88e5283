import LensLM.LlmBudget
import LensLM.Lib.Slots
import LensLM.ResolutionGroups

/-!
# The budget bounds the calls that were answered

A call is charged once it is answered. The structural map ends with the first call that fails,
but the adjudication goes on with the next pair, so that its failed calls are not bounded.
-/

namespace LensLM

open ByteText Grouping LinkForest Effects

set_option autoImplicit false

section Rules

variable {σ T : Type} {I R S J : JobState σ → Prop}

theorem triple_checkBudget {projectedTokens : Nat} (hstop : ∀ st, I st → J st)
    (hok : ∀ st, I st →
      ¬ st.budget.checkBeforeDispatch st.world.session projectedTokens = .exceeded → R st) :
    Triple I (checkBudget projectedTokens) (fun _ => R) fun _ => J := by
  intro st h
  by_cases hcheck : st.budget.checkBeforeDispatch st.world.session projectedTokens = .exceeded
  · have hrun : (checkBudget projectedTokens).run.run st = (.error .budgetExceeded, st) :=
      if_pos hcheck
    rw [hrun]
    exact hstop st h
  · have hrun : (checkBudget projectedTokens).run.run st = (.ok ⟨⟩, st) := if_neg hcheck
    rw [hrun]
    exact hok st h hcheck

theorem dispatch_ok {host : LlmHost σ} {req : LlmRequest} {st : JobState σ} {resp : LlmResponse}
    {world : World σ} (h : (host.generate req).run.run st.world = (.ok resp, world)) :
    (dispatch host req).run.run st =
      (.ok resp, { st with world := world, dispatched := st.dispatched ++ [true] }) := by
  have hrun : (dispatch host req).run.run st = (dispatch host req) st := rfl
  rw [hrun]
  unfold dispatch ExceptT.mk
  dsimp only
  rw [h]

theorem dispatch_error {host : LlmHost σ} {req : LlmRequest} {st : JobState σ} {e : LensError}
    {world : World σ} (h : (host.generate req).run.run st.world = (.error e, world)) :
    (dispatch host req).run.run st =
      (.error (.llm e), { st with world := world, dispatched := st.dispatched ++ [false] }) := by
  have hrun : (dispatch host req).run.run st = (dispatch host req) st := rfl
  rw [hrun]
  unfold dispatch ExceptT.mk
  dsimp only
  rw [h]

theorem triple_dispatch {host : LlmHost σ} {req : LlmRequest}
    (hanswer : ∀ st world, R st →
      S { st with world := world, dispatched := st.dispatched ++ [true] })
    (hfail : ∀ st world, R st →
      J { st with world := world, dispatched := st.dispatched ++ [false] }) :
    Triple R (dispatch host req) (fun _ => S) fun _ => J := by
  intro st h
  cases hcall : (host.generate req).run.run st.world with
  | mk r world =>
    cases r with
    | ok resp =>
      rw [dispatch_ok hcall]
      exact hanswer st world h
    | error e =>
      rw [dispatch_error hcall]
      exact hfail st world h

theorem triple_attempts {host : LlmHost σ}
    (hcheck : ∀ n, Triple I (checkBudget n) (fun _ => R) fun _ => J)
    (hdispatch : ∀ req, Triple R (dispatch host req) (fun _ => S) fun _ => J)
    (hrecord : ∀ n, Triple S (recordCall n) (fun _ => I) fun _ => J)
    (systemPrompt userPrompt : Str) (maxTokens : Nat) (parse : Str → Except LensError T)
    (attempt left : Nat) (lastBody : Str) :
    Triple I (attempts host systemPrompt userPrompt maxTokens parse attempt left lastBody)
      (fun _ => I) fun _ => J := by
  induction left generalizing attempt lastBody with
  | zero => exact triple_pure fun _ h => h
  | succ left ih =>
    unfold attempts
    apply (hcheck maxTokens).bind
    intro _
    apply (hdispatch _).bind
    intro resp
    apply (hrecord resp.tokensUsed).bind
    intro _
    split
    · exact triple_pure fun _ h => h
    · exact ih _ _

theorem triple_buildStructuralMap {host : LlmHost σ}
    (hrun : ∀ systemPrompt userPrompt, Triple I (mapOneBatch host systemPrompt userPrompt)
      (fun _ => I) fun _ => J) (parentTexts : List Str) :
    Triple I (buildStructuralMap host parentTexts) (fun _ => I) fun _ => J := by
  unfold buildStructuralMap
  split
  · exact triple_pure fun _ h => h
  · apply Triple.bind (Q := fun _ => I)
    · exact fun _ h => h
    intro nonce
    dsimp only
    split
    · apply (hrun _ _).bind
      intro outcome
      split
      · exact triple_pure fun _ h => h
      · exact triple_pure fun _ h => h
    · apply Triple.bind (Q := fun _ => I)
      · apply triple_foldlM (I := fun _ => I)
        intro partials batch
        unfold mapSection
        apply (hrun _ _).bind
        intro outcome
        split
        · exact triple_pure fun _ h => h
        · exact triple_pure fun _ h => h
      intro partials
      split
      · exact triple_pure fun _ h => h
      · apply (hrun _ _).bind
        intro outcome
        split
        · exact triple_pure fun _ h => h
        · exact triple_pure fun _ h => h

end Rules

section Bound

variable {σ : Type} {maxCalls : Nat}

/-- Every call but the last was answered. -/
def AnsweredButLast (st : JobState σ) : Prop := ∀ answered ∈ st.dispatched.dropLast, answered = true

def Answered (st : JobState σ) : Prop := ∀ answered ∈ st.dispatched, answered = true

/-- The budget has counted `recorded` calls, within the ceiling. -/
structure Charged (maxCalls : Nat) (pending : Nat) (st : JobState σ) : Prop where
  cap : st.budget.maxCallsPerJob = maxCalls
  recorded : st.budget.jobCalls + pending = st.dispatched.count true
  within : st.budget.jobCalls + pending ≤ maxCalls
  bound : AnsweredButLast st → st.dispatched.length ≤ maxCalls

/-- There is room for one more call. -/
def Room (maxCalls : Nat) (st : JobState σ) : Prop :=
  Charged maxCalls 0 st ∧ st.budget.jobCalls + 1 ≤ maxCalls

theorem Charged.start (world : World σ) (maxTokens : Nat) :
    Charged maxCalls 0 (JobState.start world (Budget.withCaps maxTokens maxCalls)) where
  cap := rfl
  recorded := rfl
  within := Nat.zero_le _
  bound := fun _ => Nat.zero_le _

theorem saturatingAdd_one {n : Nat} (h : n < u32Max) : saturatingAdd n 1 = n + 1 := by
  unfold saturatingAdd
  omega

theorem room_of_check {st : JobState σ} {projectedTokens : Nat} (hmax : maxCalls < u32Max)
    (h : Charged maxCalls 0 st)
    (hcheck : ¬ st.budget.checkBeforeDispatch st.world.session projectedTokens = .exceeded) :
    Room maxCalls st := by
  refine ⟨h, ?_⟩
  have hwithin := h.within
  have hsat := saturatingAdd_one (n := st.budget.jobCalls) (by omega)
  unfold Budget.checkBeforeDispatch at hcheck
  rw [hsat, h.cap] at hcheck
  by_contra hfull
  rw [if_pos (by omega)] at hcheck
  exact hcheck rfl

/-- One more call, with its answer. -/
theorem Room.dispatched {st : JobState σ} (h : Room maxCalls st) (world : World σ)
    (answered : Bool) : Charged maxCalls (if answered then 1 else 0)
      { st with world := world, dispatched := st.dispatched ++ [answered] } := by
  obtain ⟨hst, hroom⟩ := h
  have hrecorded := hst.recorded
  constructor
  case cap => exact hst.cap
  case recorded =>
    dsimp only
    rw [List.count_append]
    cases answered with
    | true =>
      rw [if_pos rfl, List.count_singleton_self]
      omega
    | false =>
      rw [if_neg (by decide), List.count_singleton, if_neg (by decide)]
      omega
  case within =>
    dsimp only
    split
    · exact hroom
    · exact hst.within
  case bound =>
    intro hbefore
    unfold AnsweredButLast at hbefore
    dsimp only at hbefore ⊢
    rw [List.dropLast_concat] at hbefore
    -- the calls before this one were answered, and so counted
    have hall : st.dispatched.count true = st.dispatched.length :=
      List.count_eq_length.mpr fun b hb => (hbefore b hb).symm
    rw [List.length_append, List.length_singleton]
    omega

theorem Charged.recordCall {st : JobState σ} (hmax : maxCalls < u32Max) (h : Charged maxCalls 1 st)
    (world : World σ) (tokensUsed : Nat) :
    Charged maxCalls 0 { st with budget := st.budget.record tokensUsed, world := world } := by
  have hwithin := h.within
  have hrecorded := h.recorded
  have hsat := saturatingAdd_one (n := st.budget.jobCalls) (by omega)
  constructor
  case cap => exact h.cap
  case recorded =>
    simp only [Budget.record, hsat]
    omega
  case within =>
    simp only [Budget.record, hsat]
    omega
  case bound => exact h.bound

theorem Charged.onWorld {pending : Nat} {st : JobState σ} (h : Charged maxCalls pending st)
    (world : World σ) : Charged maxCalls pending { st with world := world } :=
  ⟨h.cap, h.recorded, h.within, h.bound⟩

theorem keeps_runLlmWithRetries {T : Type} (hmax : maxCalls < u32Max) (host : LlmHost σ)
    (systemPrompt userPrompt : Str) (maxTokens : Nat) (parse : Str → Except LensError T) :
    Keeps (Charged maxCalls 0)
      (runLlmWithRetries host systemPrompt userPrompt maxTokens parse) := by
  apply triple_attempts (R := Room maxCalls) (S := Charged maxCalls 1)
  · intro n
    exact triple_checkBudget (fun _ h => h) fun st h => room_of_check hmax h
  · intro req
    exact triple_dispatch (fun _ world h => h.dispatched world true)
      fun _ world h => h.dispatched world false
  · intro n st h
    exact h.recordCall hmax _ n

/-- Where no call has failed, the first failure ends the computation. -/
theorem triple_runLlmWithRetries {T : Type} (hmax : maxCalls < u32Max) (host : LlmHost σ)
    (systemPrompt userPrompt : Str) (maxTokens : Nat) (parse : Str → Except LensError T) :
    Triple (fun st => Charged maxCalls 0 st ∧ Answered st)
      (runLlmWithRetries host systemPrompt userPrompt maxTokens parse)
      (fun _ st => Charged maxCalls 0 st ∧ Answered st)
      fun _ st => Charged maxCalls 0 st ∧ AnsweredButLast st := by
  apply triple_attempts (R := fun st => Room maxCalls st ∧ Answered st)
    (S := fun st => Charged maxCalls 1 st ∧ Answered st)
  · intro n
    apply triple_checkBudget
    · exact fun st h => ⟨h.1, fun b hb => h.2 b (List.mem_of_mem_dropLast hb)⟩
    · exact fun st h hcheck => ⟨room_of_check hmax h.1 hcheck, h.2⟩
  · intro req
    apply triple_dispatch
    · intro st world h
      refine ⟨h.1.dispatched world true, ?_⟩
      exact Slots.forall_mem_push h.2 rfl
    · intro st world h
      refine ⟨h.1.dispatched world false, ?_⟩
      intro b hb
      dsimp only at hb
      rw [List.dropLast_concat] at hb
      exact h.2 b hb
  · intro n st h
    exact ⟨h.1.recordCall hmax _ n, h.2⟩

theorem triple_buildStructuralMap_answered (hmax : maxCalls < u32Max) (host : LlmHost σ)
    (parentTexts : List Str) :
    Triple (fun st => Charged maxCalls 0 st ∧ Answered st) (buildStructuralMap host parentTexts)
      (fun _ st => Charged maxCalls 0 st ∧ Answered st)
      fun _ st => Charged maxCalls 0 st ∧ AnsweredButLast st :=
  triple_buildStructuralMap (fun _ _ => triple_runLlmWithRetries hmax host _ _ _ _) parentTexts

end Bound

section Adjudication

variable {σ V D : Type} {maxCalls : Nat}

theorem keeps_onWorld {ε α : Type} (x : Eff ε (World σ) α) :
    Keeps (Charged maxCalls 0) (onWorld x) := by
  intro st h
  have hrun : (onWorld x).run.run st =
    ((x.run.run st.world).1, { st with world := (x.run.run st.world).2 }) := rfl
  rw [hrun]
  cases (x.run.run st.world).1 with
  | ok a => exact h.onWorld _
  | error e => exact h.onWorld _

theorem keeps_adjudicateViaLlm (hmax : maxCalls < u32Max) (provider : Option (LlmHost σ))
    (stores : ResolutionStores σ V D) (a b : EntityNode) (sim : Option Conf) (key : Str) :
    Keeps (Charged maxCalls 0) (adjudicateViaLlm provider stores a b sim key) := by
  unfold adjudicateViaLlm
  split
  · exact keeps_pure _
  · rename_i host
    apply Keeps.bind
    · exact fun _ h => h
    intro nonce
    apply (keeps_runLlmWithRetries hmax host _ _ _ _).attempt.bind
    intro result
    split
    · apply (keeps_onWorld _).attempt.bind
      intro _
      exact keeps_pure _
    · exact keeps_pure _
    · exact keeps_pure _
    · exact keeps_pure _

theorem keeps_tier3Adjudicate (hmax : maxCalls < u32Max) (provider : Option (LlmHost σ))
    (stores : ResolutionStores σ V D)
    (candidates : List (llmResolveInput provider stores).CandidatePair)
    (uf : (llmResolveInput provider stores).Sets) :
    Keeps (Charged maxCalls 0)
      (tier3Adjudicate (llmResolveInput provider stores) candidates uf) := by
  induction candidates generalizing uf with
  | nil => exact keeps_pure _
  | cons candidate rest ih =>
    obtain ⟨i, j, sim⟩ := candidate
    unfold tier3Adjudicate
    split
    · exact ih uf
    · apply (keeps_onWorld _).bind
      intro cached
      cases cached with
      | some cached => exact ih _
      | none =>
        apply (keeps_adjudicateViaLlm hmax provider stores _ _ _ _).bind
        intro answer
        cases answer with
        | verdict same conf => exact ih _
        | skip => exact ih uf
        | budgetStop => exact keeps_pure _

theorem keeps_resolveNotebook (hmax : maxCalls < u32Max) (order : IterationOrder)
    (provider : Option (LlmHost σ)) (stores : ResolutionStores σ V D) :
    Keeps (Charged maxCalls 0) (resolveNotebook order (llmResolveInput provider stores)) := by
  unfold resolveNotebook
  split
  · exact keeps_pure _
  · apply Keeps.bind
    · apply keeps_foldlM
      intro st i
      unfold tier2Node
      split
      · exact keeps_pure _
      · apply (keeps_onWorld _).bind
        intro neighbors
        exact keeps_pure _
    intro st
    apply (keeps_tier3Adjudicate hmax provider stores _ _).bind
    intro uf
    exact keeps_pure _

/-- The calls that a job has dispatched when it ends. -/
def dispatchedBy {ε α : Type} (x : Eff ε (JobState σ) α) (world : World σ) (budget : Budget) :
    List Bool :=
  (x.run.run (JobState.start world budget)).2.dispatched

section DeadProvider

variable {host : LlmHost σ} {stores : ResolutionStores σ V D} {e : LensError}

/-- A call that fails is not charged, and its pair is skipped. -/
theorem adjudicateViaLlm_of_fails
    (hdead : ∀ req world, (host.generate req).run.run world = (.error e, world))
    (a b : EntityNode) (sim : Option Conf) (key : Str) {st : JobState σ}
    (hroom : st.budget.checkBeforeDispatch st.world.session resolutionAdjudicationMaxTokens = .ok) :
    (adjudicateViaLlm (some host) stores a b sim key).run.run st =
      (.ok .skip, { st with dispatched := st.dispatched ++ [false] }) := by
  have hcheck : (checkBudget resolutionAdjudicationMaxTokens).run.run st = (.ok ⟨⟩, st) := by
    apply if_neg
    rw [hroom]
    decide
  have hcall : ∀ req, (dispatch host req).run.run st =
      (.error (.llm e), { st with dispatched := st.dispatched ++ [false] }) := by
    intro req
    exact dispatch_error (hdead req st.world)
  have hretries : ∀ system prompt, (runLlmWithRetries host system prompt
      resolutionAdjudicationMaxTokens host.parseAdjudication).run.run st =
      (.error (.llm e), { st with dispatched := st.dispatched ++ [false] }) := by
    intro system prompt
    unfold runLlmWithRetries attempts
    rw [run_bind_ok hcheck]
    exact run_bind_error (hcall _)
  have hnonce : (getNonce host : Eff LensError (JobState σ) Str).run.run st =
      (.ok (host.fenceNonce st.world), st) := rfl
  unfold adjudicateViaLlm
  dsimp only
  rw [run_bind_ok hnonce, run_bind_ok (run_attempt (hretries _ _))]
  rfl

/-- A provider that never answers is asked about every pair. -/
theorem tier3Adjudicate_of_fails
    (hdead : ∀ req world, (host.generate req).run.run world = (.error e, world))
    (hmiss : ∀ key version world, (stores.cacheGet key version).run.run world = (.ok none, world))
    (candidates : List (llmResolveInput (some host) stores).CandidatePair)
    (uf : (llmResolveInput (some host) stores).Sets)
    (hapart : ∀ c ∈ candidates, uf.find c.1 ≠ uf.find c.2.1) (st : JobState σ)
    (hroom : st.budget.checkBeforeDispatch st.world.session resolutionAdjudicationMaxTokens = .ok) :
    (tier3Adjudicate (llmResolveInput (some host) stores) candidates uf).run.run st =
      (.ok uf, { st with dispatched := st.dispatched ++ List.replicate candidates.length false }) := by
  induction candidates generalizing st with
  | nil =>
    rw [List.length_nil, List.replicate_zero, List.append_nil]
    rfl
  | cons candidate rest ih =>
    obtain ⟨i, j, sim⟩ := candidate
    have hrest := ih (fun c hc => hapart c (List.mem_cons_of_mem _ hc))
      { st with dispatched := st.dispatched ++ [false] } hroom
    have hcache : ∀ key version, ((llmResolveInput (some host) stores).cacheGet key version).run.run
        st = (.ok none, st) := by
      intro key version
      have hrun : ((llmResolveInput (some host) stores).cacheGet key version).run.run st =
        (((stores.cacheGet key version).run.run st.world).1,
          { st with world := ((stores.cacheGet key version).run.run st.world).2 }) := rfl
      rw [hrun, hmiss]
    unfold tier3Adjudicate
    rw [if_neg (hapart _ List.mem_cons_self), run_bind_ok (hcache _ _)]
    dsimp only
    have hask : ∀ a b key,
        ((llmResolveInput (some host) stores).adjudicateViaLlm a b sim key).run.run st =
          (.ok .skip, { st with dispatched := st.dispatched ++ [false] }) :=
      fun a b key => adjudicateViaLlm_of_fails hdead a b sim key hroom
    rw [run_bind_ok (hask _ _ _)]
    dsimp only
    rw [hrest, List.append_assoc, List.length_cons, List.replicate_succ, List.singleton_append]

end DeadProvider

/-- The structural map stays within the ceiling, and so does the resolution when no call but its
last fails. -/
theorem dispatched_le_maxCalls (hmax : maxCalls < u32Max) (maxTokens : Nat) :
    (∀ (host : LlmHost σ) (parentTexts : List Str) (world : World σ),
      (dispatchedBy (buildStructuralMap host parentTexts) world
        (Budget.withCaps maxTokens maxCalls)).length ≤ maxCalls) ∧
    ∀ (order : IterationOrder) (provider : Option (LlmHost σ)) (stores : ResolutionStores σ V D)
      (world : World σ),
      let dispatched := dispatchedBy (resolveNotebook order (llmResolveInput provider stores)) world
        (Budget.withCaps maxTokens maxCalls)
      (∀ answered ∈ dispatched.dropLast, answered = true) → dispatched.length ≤ maxCalls := by
  constructor
  · intro host parentTexts world
    have hrun : Triple (fun st => Charged maxCalls 0 st ∧ Answered st)
        (buildStructuralMap host parentTexts)
        (fun _ st => Charged maxCalls 0 st ∧ AnsweredButLast st)
        fun _ st => Charged maxCalls 0 st ∧ AnsweredButLast st := by
      apply (triple_buildStructuralMap_answered hmax host parentTexts).mono
      · exact fun _ h => h
      · exact fun _ st h => ⟨h.1, fun b hb => h.2 b (List.mem_of_mem_dropLast hb)⟩
      · exact fun _ _ h => h
    have hend := hrun.final ⟨Charged.start world maxTokens, fun _ h => by cases h⟩
    exact hend.1.bound hend.2
  · intro order provider stores world dispatched hanswered
    have hend := Triple.final (keeps_resolveNotebook hmax order provider stores)
      (Charged.start world maxTokens)
    exact hend.bound hanswered

/-- A provider that is down. -/
def deadHost : LlmHost Unit where
  generate := fun _ => throw (.network "connection refused")
  fenceNonce := fun _ => "0123456789ab".toList
  parseStrict := fun _ => .error (.parse "structural map invalid")
  parseAdjudication := fun _ => .error (.parse "adjudication invalid")
  debugStrs := fun _ => []
  formatSim := fun _ => "0.800".toList

/-- Three entities, and neighbours of the first in the band between the cutoffs. -/
def threeEntities (hits : List (String × Unit)) : ResolutionStores Unit Unit Unit where
  nodes := [⟨"a", .concept, "Ford".toList, none⟩, ⟨"b", .concept, "Ford Motor".toList, none⟩,
    ⟨"c", .concept, "Ford Company".toList, none⟩]
  vectors := fun id => if id = "a" then some () else none
  entityAnn := fun _ _ _ => pure hits
  similarity := fun _ => some (.ofRat (4 / 5))
  cacheGet := fun _ _ => pure none
  cachePut := fun _ _ _ _ _ => pure ⟨⟩
  promptVersion := "1"
  corefPairs := []
  toLowercase := fun s => s.map Char.toLower
  notebookId := "nb-1"

abbrev threeEntitiesInput (hits : List (String × Unit)) :
    ResolveInput LensError (JobState Unit) Unit Unit :=
  llmResolveInput (some deadHost) (threeEntities hits)

/-- The entity of a position. -/
def entityAt (hits : List (String × Unit)) (i : Fin 3) : (threeEntitiesInput hits).Node := i

theorem tier2Neighbor_threeEntities {hits : List (String × Unit)} {id : String}
    {i j : (threeEntitiesInput hits).Node} (t : Tier2 (threeEntitiesInput hits))
    (hid : indexById (threeEntitiesInput hits) id = some j) (hij : i < j)
    (huf : t.uf = UnionFind.new (threeEntitiesInput hits).nodes.length Conf) :
    tier2Neighbor (threeEntitiesInput hits) i t (id, ()) =
      t.addCandidate (i, j) (some (.ofRat (4 / 5))) := by
  have hlow : ¬ tier2AutoMergeSim ≤ .ofRat (4 / 5) := by
    unfold tier2AutoMergeSim
    rw [Conf.ofRat_le]
    norm_num
  have hhigh : ¬ Conf.ofRat (4 / 5) < tier2KeepSeparateSim := by
    unfold tier2KeepSeparateSim
    rw [not_lt, Conf.ofRat_le]
    norm_num
  have hapart : ¬ t.uf.find i = t.uf.find j := by
    rw [huf, UnionFind.find_new, UnionFind.find_new]
    exact ne_of_lt hij
  have hsim : (threeEntitiesInput hits).similarity () = some (.ofRat (4 / 5)) := rfl
  unfold tier2Neighbor
  rw [hid, hsim]
  dsimp only
  rw [if_neg (ne_of_gt hij), if_pos hij, if_neg hapart, if_neg hlow, if_neg hhigh]

/-- Only the first entity asks for neighbours. -/
theorem tier2Ann_threeEntities (hits : List (String × Unit)) (st : JobState Unit) :
    (tier2Ann (threeEntitiesInput hits)
      (UnionFind.new (threeEntitiesInput hits).nodes.length Conf)).run.run st =
      (.ok (hits.foldl (tier2Neighbor (threeEntitiesInput hits) (entityAt hits 0))
        ⟨UnionFind.new (threeEntitiesInput hits).nodes.length Conf, [], []⟩), st) :=
  rfl

/-- Every candidate is asked about, and none of the calls is charged. -/
theorem dispatchedBy_deadHost {hits : List (String × Unit)} {t : Tier2 (threeEntitiesInput hits)}
    {maxCalls : Nat}
    (ht : hits.foldl (tier2Neighbor (threeEntitiesInput hits) (entityAt hits 0))
      ⟨UnionFind.new (threeEntitiesInput hits).nodes.length Conf, [], []⟩ = t)
    (huf : t.uf = UnionFind.new (threeEntitiesInput hits).nodes.length Conf)
    (hapart : ∀ c ∈ t.candidates, c.1 ≠ c.2.1)
    (hroom : (Budget.withCaps 48000 maxCalls).checkBeforeDispatch ⟨0, 0, 500000⟩
      resolutionAdjudicationMaxTokens = .ok) :
    dispatchedBy (resolveNotebook ⟨fun l => l, fun l => .refl l⟩ (threeEntitiesInput hits))
      ⟨⟨0, 0, 500000⟩, ()⟩ (Budget.withCaps 48000 maxCalls) =
        List.replicate t.candidates.length false := by
  have htier1 : tier1ExactAndCoref (threeEntitiesInput hits)
      (UnionFind.new (threeEntitiesInput hits).nodes.length Conf) =
      UnionFind.new (threeEntitiesInput hits).nodes.length Conf := rfl
  have hfind : ∀ c ∈ t.candidates, t.uf.find c.1 ≠ t.uf.find c.2.1 := by
    intro c hc
    rw [huf, UnionFind.find_new, UnionFind.find_new]
    exact hapart c hc
  have hdead : ∀ req world, (deadHost.generate req).run.run world =
      (.error (.network "connection refused"), world) := fun _ _ => rfl
  have hmiss : ∀ key version world, ((threeEntities hits).cacheGet key version).run.run world =
      (.ok none, world) := fun _ _ _ => rfl
  have htier3 := tier3Adjudicate_of_fails hdead hmiss t.candidates t.uf hfind
    (JobState.start ⟨⟨0, 0, 500000⟩, ()⟩ (Budget.withCaps 48000 maxCalls)) hroom
  unfold dispatchedBy resolveNotebook
  rw [if_neg (fun h => by cases h), htier1]
  dsimp only
  rw [run_bind_ok (tier2Ann_threeEntities hits _), ht, run_bind_ok htier3]
  rfl

/-- The pairs that are put aside for the model. -/
def pairsWith (hits : List (String × Unit)) (others : List (Fin 3)) :
    Tier2 (threeEntitiesInput hits) where
  uf := UnionFind.new (threeEntitiesInput hits).nodes.length Conf
  seenPairs := others.reverse.map fun j => (entityAt hits 0, entityAt hits j)
  candidates := others.map fun j => (entityAt hits 0, entityAt hits j, some (.ofRat (4 / 5)))

theorem tier2Neighbor_pairsWith (hits : List (String × Unit)) (id : String) (j : Fin 3)
    (others : List (Fin 3)) (hid : indexById (threeEntitiesInput hits) id = some (entityAt hits j))
    (hj : 0 < j) (hnew : j ∉ others) :
    tier2Neighbor (threeEntitiesInput hits) (entityAt hits 0) (pairsWith hits others) (id, ()) =
      pairsWith hits (others ++ [j]) := by
  rw [tier2Neighbor_threeEntities (i := entityAt hits 0) _ hid hj rfl]
  unfold Tier2.addCandidate
  rw [if_neg]
  · simp [pairsWith]
  · intro hmem
    obtain ⟨k, hk, heq⟩ := List.mem_map.mp hmem
    rw [Prod.mk.injEq] at heq
    have hkj : k = j := heq.2
    exact hnew (hkj ▸ List.mem_reverse.mp hk)

theorem pairsWith_apart {hits : List (String × Unit)} {others : List (Fin 3)}
    (h : ∀ j ∈ others, j ≠ 0) : ∀ c ∈ (pairsWith hits others).candidates, c.1 ≠ c.2.1 := by
  intro c hc
  obtain ⟨j, hj, rfl⟩ := List.mem_map.mp hc
  exact Ne.symm (h j hj)

theorem deadHost_exceeds :
    dispatchedBy (resolveNotebook ⟨fun l => l, fun l => .refl l⟩
      (threeEntitiesInput [("b", ()), ("c", ())])) ⟨⟨0, 0, 500000⟩, ()⟩ (Budget.withCaps 48000 1) =
        [false, false] := by
  have hb := tier2Neighbor_pairsWith [("b", ()), ("c", ())] "b" 1 [] rfl (by decide) (by decide)
  have hc := tier2Neighbor_pairsWith [("b", ()), ("c", ())] "c" 2 [1] rfl (by decide) (by decide)
  apply dispatchedBy_deadHost (t := pairsWith _ [1, 2])
  · rw [List.foldl_cons, List.foldl_cons, List.foldl_nil]
    exact (congrArg (fun t => tier2Neighbor _ _ t _) hb).trans hc
  · rfl
  · exact pairsWith_apart (by decide)
  · decide

theorem dispatched_le_maxCalls_one :
    (dispatchedBy (buildStructuralMap deadHost ["doc".toList]) ⟨⟨0, 0, 500000⟩, ()⟩
      (Budget.withCaps 48000 1)).length ≤ 1 ∧
    (dispatchedBy (resolveNotebook ⟨fun l => l, fun l => .refl l⟩ (threeEntitiesInput [("b", ())]))
      ⟨⟨0, 0, 500000⟩, ()⟩ (Budget.withCaps 48000 1)).length ≤ 1 := by
  have hb := tier2Neighbor_pairsWith [("b", ())] "b" 1 [] rfl (by decide) (by decide)
  have hone : dispatchedBy (resolveNotebook ⟨fun l => l, fun l => .refl l⟩
      (threeEntitiesInput [("b", ())])) ⟨⟨0, 0, 500000⟩, ()⟩ (Budget.withCaps 48000 1) = [false] := by
    apply dispatchedBy_deadHost (t := pairsWith _ [1])
    · exact hb
    · rfl
    · exact pairsWith_apart (by decide)
    · decide
  obtain ⟨hmap, hresolve⟩ := dispatched_le_maxCalls (σ := Unit) (V := Unit) (D := Unit)
    (by decide : 1 < u32Max) 48000
  refine ⟨hmap deadHost _ _, hresolve _ _ _ _ ?_⟩
  rw [hone]
  intro answered h
  cases h

end Adjudication

end LensLM
