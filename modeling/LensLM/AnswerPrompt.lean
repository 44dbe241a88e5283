import LensLM.LlmBudget
import LensLM.Router
import LensLM.VectorStore

/-!
# The prompt of an answer

The prompt is fitted into the context of the model: first the units of the lowest priority go, then
the oldest turns of the conversation.
-/

namespace LensLM

open ByteText

set_option autoImplicit false

section Measure

inductive ChatRole where
  | user
  | assistant
deriving DecidableEq, Repr

structure LlmMessage where
  role : ChatRole
  content : Str
deriving DecidableEq, Repr

/-- The count of a tokenizer that may fail, or the estimate. -/
def measureTokens (tokenizer : Option (Str → Option Nat)) (text : Str) : Nat :=
  match tokenizer with
  | some encode => (encode text).getD (estimateTokens text)
  | none => estimateTokens text

def historyAsText (history : List LlmMessage) : Str :=
  history.flatMap fun m => m.content ++ ['\n']

def reservedOutput : Nat := 2048

def minOutputTokens : Nat := 256

def historyBudgetDivisor : Nat := 3

variable (tokenizer : Option (Str → Option Nat))

/-- Whole pairs are dropped, the oldest first. -/
def dropPairs (cap : Nat) (kept : List LlmMessage) : List LlmMessage :=
  if 2 < kept.length then
    if (kept.map fun m => measureTokens tokenizer m.content).sum ≤ cap then kept
    else dropPairs cap (kept.drop 2)
  else kept
termination_by kept.length
decreasing_by
  rw [List.length_drop]
  omega

def budgetHistory (history : List LlmMessage) (context : Nat) : List LlmMessage :=
  if context = 0 || history.isEmpty then history
  else dropPairs tokenizer (context / historyBudgetDivisor) history

end Measure

section Fit

variable {κ : Type}

abbrev Titles := String → Option Str

/-- The section and the page of a chunk. -/
abbrev SectionLabels := String → Option (Option Str × Option Int)

/-- The texts that the prompts are built of. -/
structure AnswerPrompts (κ : Type) where
  groundedSystem : Str → Str
  groundedUser : List (ContextUnit κ) → Titles → SectionLabels → Str → Str → Str
  condense : List LlmMessage → Str → Str × Str

structure Fit (κ : Type) where
  units : List (ContextUnit κ)
  history : List LlmMessage
  system : Str
  prompt : Str
  maxTokens : Nat

/-- What `fitToContext` is called with. -/
structure FitInput (κ : Type) where
  prompts : AnswerPrompts κ
  titles : Titles
  sections : SectionLabels
  question : Str
  nonce : Str
  tokenizer : Option (Str → Option Nat)
  ctxLimit : Nat

namespace FitInput

variable (input : FitInput κ)

def system : Str := input.prompts.groundedSystem input.nonce

def prompt (units : List (ContextUnit κ)) : Str :=
  input.prompts.groundedUser units input.titles input.sections input.question input.nonce

/-- The tokens of the system, history and user texts. -/
def assembled (units : List (ContextUnit κ)) (history : List LlmMessage) : Nat :=
  measureTokens input.tokenizer input.system +
    measureTokens input.tokenizer (historyAsText history) +
      measureTokens input.tokenizer (input.prompt units)

/-- Units go first, down to one, then pairs of turns. -/
def fitLoop (units : List (ContextUnit κ)) (history : List LlmMessage) :
    List (ContextUnit κ) × List LlmMessage :=
  if input.assembled units history + minOutputTokens ≤ input.ctxLimit then (units, history)
  else if 1 < units.length then fitLoop units.dropLast history
  else if 2 < history.length then fitLoop units (history.drop 2)
  else (units, history)
termination_by units.length + history.length
decreasing_by
  all_goals simp only [List.length_dropLast, List.length_drop]
  all_goals omega

def fitToContext (units : List (ContextUnit κ)) (history : List LlmMessage) : Fit κ :=
  if input.ctxLimit = 0 then
    { units, history, system := input.system, prompt := input.prompt units,
      maxTokens := reservedOutput }
  else
    let kept := input.fitLoop units history
    { units := kept.1, history := kept.2, system := input.system, prompt := input.prompt kept.1,
      -- the `u32` that the rest of the limit is cast to
      maxTokens := max 1 (min (((input.ctxLimit - input.assembled kept.1 kept.2) % 2 ^ 32))
        reservedOutput) }

end FitInput

end Fit

end LensLM
