import LensLM.AnswerPrompt
import LensLM.Citation
import LensLM.FenceRedactor
import Mathlib.Data.List.Destutter
import Mathlib.Data.List.AList

/-!
# The stream of an answer

An answer is a stream of events. The stream looks at the token of the run in between, and ends when
it finds it cancelled.
-/

namespace LensLM

open ByteText

set_option autoImplicit false

section Events

inductive AnswerStage where
  | retrieving
  | thinking
  | answering
deriving DecidableEq, Repr

inductive AnswerEvent where
  | stage (stage : AnswerStage)
  | thinkingDelta (s : Str)
  | textDelta (s : Str)
  | citations (cites : List Citation)
  | done (tokensUsed : Nat) (grounded : Bool) (citationCount : Nat)
deriving DecidableEq, Repr

abbrev AnswerItem := Except LensError AnswerEvent

inductive StreamChunk where
  | textDelta (s : Str)
  | thinkingDelta (s : Str)
  | done (tokensUsed : Nat)
deriving DecidableEq, Repr

/-- What a stream does next: it hands out an item, or it looks at the token. -/
inductive AnswerStep where
  | emit (item : AnswerItem)
  | look
deriving DecidableEq

end Events

section Context

variable {κ V : Type}

structure ChunkLocatorRow where
  sectionPath : Str
  page : Option Nat
  charStart : Option Nat
  charEnd : Option Nat
deriving DecidableEq, Repr

structure AnswerRequest extends LlmRequest where
  messages : List LlmMessage
deriving DecidableEq

/-- What an answer is asked with, and what it meets. -/
structure AnswerCtx (κ V : Type) where
  question : Str
  history : List LlmMessage
  condenseFollowups : Bool
  modelContext : Nat
  tokenizer : Option (Str → Option Nat)
  prompts : AnswerPrompts κ
  nonce : Str
  generate : AnswerRequest → Except LensError Str
  embedQuery : Str → Except LensError V
  tieredSearch : Str → V → Nat → Except LensError (List (ContextUnit κ))
  hasLiveChunk : Except LensError Bool
  hasActiveIndex : Except LensError Bool
  loadSourceTitles : List (ContextUnit κ) → Except LensError Titles
  loadSectionLabels : List (ContextUnit κ) → Except LensError SectionLabels
  /-- The items of the provider, up to the end of its stream. -/
  generateStream : AnswerRequest → Except LensError (List (Except LensError StreamChunk))
  chunkRows : List String → Except LensError (AList fun _ : String => ChunkLocatorRow)

def hydrateLocators (cites : List Citation) (rows : AList fun _ : String => ChunkLocatorRow) :
    List Citation :=
  cites.map fun citation => { citation with
    locators := citation.locators.map fun locator =>
      match rows.lookup locator.chunkId with
      | some row =>
        { locator with
          sectionPath := some row.sectionPath
          page := row.page
          charStart := row.charStart
          charEnd := row.charEnd }
      | none => locator }

def distinctChunkIds (cites : List Citation) : List String :=
  ((cites.flatMap fun c => c.locators.map Locator.chunkId).insertionSort (· ≤ ·)).destutter (· ≠ ·)

namespace AnswerCtx

variable (ctx : AnswerCtx κ V)

def answerTemperature : ℚ := 13421773 / 2 ^ 27

def condenseMaxTokens : Nat := 128

def noSourcesMsg : Str :=
  "I couldn't find anything in this notebook's selected sources to answer that.".toList

/-- A follow-up as a question of its own, or the follow-up if that fails. -/
def condenseQuery (history : List LlmMessage) : Str :=
  let prompt := ctx.prompts.condense history ctx.question
  match ctx.generate ⟨⟨some prompt.1, prompt.2, condenseMaxTokens, 0, false, false⟩, []⟩ with
  | .ok text =>
    let q := trim (trimMatches '"' (trim text))
    if q.isEmpty then ctx.question else q
  | .error _ => ctx.question

/-- There is something to find, and no index to find it with. -/
def reindexingGap : Except LensError Bool := do
  if ← ctx.hasLiveChunk then
    return !(← ctx.hasActiveIndex)
  else return false

def loadChunkLocators (ids : List String) :
    Except LensError (AList fun _ : String => ChunkLocatorRow) :=
  if ids.isEmpty then .ok ∅ else ctx.chunkRows ids

/-- What the loop over the items of the provider keeps. -/
structure Relay where
  thinkingStarted : Bool
  answeringStarted : Bool
  tokensUsed : Nat
  answerText : Str
  redactor : FenceRedactor

def Relay.new (nonce : Str) : Relay := ⟨false, false, 0, [], .new nonce⟩

def emitText (text : Str) : List AnswerStep :=
  if text.isEmpty then [] else [.emit (.ok (.textDelta text))]

/-- The citations are drawn from the whole answer, and what was held back is handed out first. -/
def finish (units : List (ContextUnit κ)) (relay : Relay) : List AnswerStep :=
  let cites := extractCitations relay.answerText units
  let grounded := !cites.isEmpty || (trim relay.answerText).isEmpty
  .look :: (emitText relay.redactor.flush.1 ++
    match ctx.loadChunkLocators (distinctChunkIds cites) with
    | .error err => [.emit (.error err)]
    | .ok rows =>
      [.look, .emit (.ok (.citations (hydrateLocators cites rows))),
        .emit (.ok (.done relay.tokensUsed grounded (cites.length % 2 ^ 32)))])

def stageOnce (started : Bool) (stage : AnswerStage) : List AnswerStep :=
  if started then [] else [.emit (.ok (.stage stage))]

def relayItems (units : List (ContextUnit κ)) :
    Relay → List (Except LensError StreamChunk) → List AnswerStep
  | relay, [] => ctx.finish units relay
  | relay, .ok (.thinkingDelta s) :: items =>
    .look :: (stageOnce relay.thinkingStarted .thinking ++
      .emit (.ok (.thinkingDelta s)) ::
        relayItems units { relay with thinkingStarted := true } items)
  | relay, .ok (.textDelta s) :: items =>
    let pushed := relay.redactor.push s
    .look :: (stageOnce relay.answeringStarted .answering ++
      (emitText pushed.1 ++
        relayItems units { relay with
          answeringStarted := true
          answerText := relay.answerText ++ s
          redactor := pushed.2 } items))
  | relay, .ok (.done t) :: items => .look :: relayItems units { relay with tokensUsed := t } items
  | _, .error err :: _ => [.look, .emit (.error err)]

/-- Nothing is found, so that the model is not asked. -/
def noSources : List AnswerStep :=
  match ctx.reindexingGap with
  | .error err => [.emit (.error err)]
  | .ok true =>
    [.emit (.error (.reindexing
      "the notebook's embeddings are still being built; try again shortly"))]
  | .ok false =>
    [.emit (.ok (.stage .answering)), .emit (.ok (.textDelta noSourcesMsg)),
      .emit (.ok (.citations [])), .emit (.ok (.done 0 true 0))]

def budgetedHistory : List LlmMessage :=
  LensLM.budgetHistory ctx.tokenizer ctx.history ctx.modelContext

def retrievalQuery : Str :=
  if !ctx.budgetedHistory.isEmpty && ctx.condenseFollowups then ctx.condenseQuery ctx.budgetedHistory
  else ctx.question

def reservedHistoryTokens : Nat := measureTokens ctx.tokenizer (historyAsText ctx.budgetedHistory)

def fit (units : List (ContextUnit κ)) (titles : Titles) (sections : SectionLabels) : Fit κ :=
  FitInput.fitToContext ⟨ctx.prompts, titles, sections, ctx.question, ctx.nonce, ctx.tokenizer,
    ctx.modelContext⟩ units ctx.budgetedHistory

def request (fit : Fit κ) : AnswerRequest :=
  ⟨⟨some fit.system, fit.prompt, fit.maxTokens, answerTemperature, false, false⟩, fit.history⟩

/-- The units that are left after the fit are the ones that the answer can cite. -/
def generateAnswer (units : List (ContextUnit κ)) : List AnswerStep :=
  match ctx.loadSourceTitles units with
  | .error err => [.emit (.error err)]
  | .ok titles =>
    match ctx.loadSectionLabels units with
    | .error err => [.emit (.error err)]
    | .ok sections =>
      .look :: match ctx.generateStream (request (ctx.fit units titles sections)) with
        | .error err => [.emit (.error err)]
        | .ok items =>
          ctx.relayItems (ctx.fit units titles sections).units (.new ctx.nonce) items

def answerStream : List AnswerStep :=
  .emit (.ok (.stage .retrieving)) :: .look :: .look ::
    match ctx.embedQuery ctx.retrievalQuery with
    | .error err => [.emit (.error err)]
    | .ok qvec =>
      .look ::
        match ctx.tieredSearch ctx.retrievalQuery qvec ctx.reservedHistoryTokens with
        | .error err => [.emit (.error err)]
        | .ok units => .look :: if units.isEmpty then ctx.noSources else ctx.generateAnswer units

end AnswerCtx

end Context

section Runs

variable {κ V : Type}

/-- A stream on its way. `late` are the items that were handed out after the token had tripped. -/
structure AnswerRun where
  rest : List AnswerStep
  cancelled : Bool
  stopped : Bool
  out : List AnswerItem
  late : List AnswerItem

/-- The stream is polled, or the token trips. -/
inductive AnswerMove where
  | poll
  | trip
deriving DecidableEq

namespace AnswerRun

def start (ctx : AnswerCtx κ V) : AnswerRun := ⟨ctx.answerStream, false, false, [], []⟩

def step (s : AnswerRun) : AnswerMove → Option AnswerRun
  | .trip => some { s with cancelled := true }
  | .poll =>
    match s.rest with
    | [] => none
    | .emit item :: rest =>
      some { s with
        rest
        out := s.out ++ [item]
        late := if s.cancelled then s.late ++ [item] else s.late }
    | .look :: rest =>
      some (if s.cancelled then { s with rest := [], stopped := true } else { s with rest })

/-- The token trips while the stream works or waits, not when an item is ready. -/
def Trippable (s : AnswerRun) : Prop := ∀ item rest, s.rest ≠ .emit item :: rest

/-- The runs whose token trips where a look comes next. -/
inductive Reachable (ctx : AnswerCtx κ V) : AnswerRun → Prop
  | start : Reachable ctx (start ctx)
  | poll {s s' : AnswerRun} : Reachable ctx s → s.step .poll = some s' → Reachable ctx s'
  | trip {s s' : AnswerRun} : Reachable ctx s → s.Trippable → s.step .trip = some s' →
      Reachable ctx s'

end AnswerRun

end Runs

end LensLM
