import LensLM.Chunk
import LensLM.Resolution
import LensLM.Lib.Words

/-!
# The text that is embedded for a chunk

A context of the document and the section stands before the body. Over the window, words are dropped
from the end of the context, and the body is never cut.
-/

namespace LensLM

open ByteText Words

set_option autoImplicit false

def embedderTokenWindow : Nat := 2048
def searchDocumentPrefixTokens : Nat := 4

/-- A tokenizer encodes without special tokens here. Where it fails, words are counted. -/
def countTokens (text : Str) (tokenizer : Option Tokenizer) : Nat :=
  match tokenizer with
  | some tk =>
    match tk.encode text with
    | .ok n => n
    | .error _ => (splitWhitespace text).length
  | none => (splitWhitespace text).length

def composePrefix (docSummary sectionPath : Str) : Str :=
  let summary := trim docSummary
  let path := trim sectionPath
  let clauses :=
    (if summary.isEmpty then [] else ["[Document: ".toList ++ summary ++ "]".toList]) ++
      if path.isEmpty then [] else ["[Section: ".toList ++ path ++ "]".toList]
  if clauses.isEmpty then [] else " ".toList.intercalate clauses ++ " ".toList

/-- The words that are kept, up to the first one that passes the budget. -/
def keepWords (count : Str → Nat) (budget : Nat) : List Str → List Str → List Str
  | kept, [] => kept
  | kept, w :: words =>
    let candidate := if kept.isEmpty then w else " ".toList.intercalate kept ++ ' ' :: w
    if count candidate ≤ budget then keepWords count budget (kept ++ [w]) words else kept

def truncateToTokenBudget (text : Str) (budget : Nat) (tokenizer : Option Tokenizer) : Str :=
  if budget = 0 then []
  else " ".toList.intercalate
    (keepWords (fun text => countTokens text tokenizer) budget [] (splitWhitespace text))

def composeWithin (budget : Nat) (context body : Str) (tokenizer : Option Tokenizer) : Str :=
  let bodyTokens := countTokens body tokenizer
  if context.isEmpty || decide (budget ≤ bodyTokens) then body
  else
    let contextBudget := budget - bodyTokens
    if countTokens context tokenizer ≤ contextBudget then context ++ body
    else
      let truncated := truncateToTokenBudget context contextBudget tokenizer
      if truncated.isEmpty then body else truncated ++ ' ' :: body

def composeEmbeddingText (context body : Str) (tokenizer : Option Tokenizer) : Str :=
  composeWithin (embedderTokenWindow - searchDocumentPrefixTokens) context body tokenizer

section Truncate

variable {count : Str → Nat} {budget : Nat}

/-- The loop tries the words it keeps with the next one. -/
theorem keepWords_cons (kept : List Str) (w : Str) (words : List Str) :
    keepWords count budget kept (w :: words) =
      if count (" ".toList.intercalate (kept ++ [w])) ≤ budget then
        keepWords count budget (kept ++ [w]) words
      else kept := by
  rw [keepWords]
  cases kept with
  | nil =>
    rw [List.nil_append, List.intercalate_singleton]
    rfl
  | cons v kept =>
    rw [intercalate_concat _ (List.cons_ne_nil v kept)]
    rfl

theorem keepWords_prefix (kept words : List Str) :
    keepWords count budget kept words <+: kept ++ words := by
  induction words generalizing kept with
  | nil => exact List.prefix_append kept []
  | cons w words ih =>
    rw [keepWords_cons]
    split
    · have hnext := ih (kept ++ [w])
      rwa [List.append_assoc] at hnext
    · exact List.prefix_append kept _

theorem keepWords_within (count : Str → Nat) {budget : Nat} {kept : List Str}
    (h : kept = [] ∨ count (" ".toList.intercalate kept) ≤ budget) (words : List Str) :
    keepWords count budget kept words = [] ∨
      count (" ".toList.intercalate (keepWords count budget kept words)) ≤ budget := by
  induction words generalizing kept with
  | nil => exact h
  | cons w words ih =>
    rw [keepWords_cons]
    split
    · rename_i hfits
      exact ih (.inr hfits)
    · exact h

/-- A context that is cut: some of its leading words, within the budget. -/
theorem truncateToTokenBudget_spec {context : Str} {tokenizer : Option Tokenizer}
    (h : truncateToTokenBudget context budget tokenizer ≠ []) :
    ∃ kept, kept <+: splitWhitespace context ∧
      truncateToTokenBudget context budget tokenizer = " ".toList.intercalate kept ∧
      countTokens (" ".toList.intercalate kept) tokenizer ≤ budget := by
  unfold truncateToTokenBudget at h ⊢
  split at h
  · exact absurd rfl h
  · rename_i hbudget
    rw [if_neg hbudget]
    refine ⟨_, keepWords_prefix [] _, rfl, ?_⟩
    rcases keepWords_within (fun text => countTokens text tokenizer) (.inl rfl)
      (splitWhitespace context) with hnil | hwithin
    · rw [hnil] at h
      exact absurd rfl h
    · exact hwithin

end Truncate

section Compose

/-- What is left of a context in front of a body. -/
inductive LeftOf (context : Str) : Str → Prop
  | whole : LeftOf context context
  | words (kept : List Str) : kept <+: splitWhitespace context →
      LeftOf context (" ".toList.intercalate kept ++ [' '])
  | none : LeftOf context []

/-- Where a context is joined to a body, as a whole or cut, the tokens add up. -/
structure AddsUp (context body : Str) (tokenizer : Option Tokenizer) : Prop where
  whole : countTokens (context ++ body) tokenizer ≤
    countTokens context tokenizer + countTokens body tokenizer
  words : ∀ kept, kept <+: splitWhitespace context →
    countTokens (" ".toList.intercalate kept ++ ' ' :: body) tokenizer ≤
      countTokens (" ".toList.intercalate kept) tokenizer + countTokens body tokenizer

/-- The body stands whole at the end, and the text fits where the body does. -/
structure BodyFirst (budget : Nat) (context body : Str) (tokenizer : Option Tokenizer)
    (text : Str) : Prop where
  ends : ∃ left, LeftOf context left ∧ text = left ++ body
  within : countTokens body tokenizer ≤ budget → countTokens text tokenizer ≤ budget

theorem bodyFirst_body (budget : Nat) (context body : Str) (tokenizer : Option Tokenizer) :
    BodyFirst budget context body tokenizer body := ⟨⟨[], .none, rfl⟩, id⟩

theorem bodyFirst_composeWithin {context body : Str} {tokenizer : Option Tokenizer}
    (h : AddsUp context body tokenizer) (budget : Nat) :
    BodyFirst budget context body tokenizer (composeWithin budget context body tokenizer) := by
  unfold composeWithin
  dsimp only
  split
  · exact bodyFirst_body budget context body tokenizer
  · rename_i hroom
    have hroom : countTokens body tokenizer < budget := by
      simp only [Bool.or_eq_true, decide_eq_true_eq, not_or, not_le] at hroom
      exact hroom.2
    split
    · rename_i hfits
      refine ⟨⟨context, .whole, rfl⟩, fun _ => ?_⟩
      have := h.whole
      omega
    · split
      · exact bodyFirst_body budget context body tokenizer
      · rename_i hcut
        obtain ⟨kept, hkept, htext, hfits⟩ :=
          truncateToTokenBudget_spec (fun hnil => hcut (List.isEmpty_iff.mpr hnil))
        rw [htext]
        refine ⟨⟨_, .words kept hkept, by rw [List.append_assoc]; rfl⟩, fun _ => ?_⟩
        have := h.words kept hkept
        omega

/-- A composed context ends with a blank. -/
theorem composePrefix_blank (docSummary sectionPath : Str) : composePrefix docSummary sectionPath = [] ∨
    ∃ clauses, composePrefix docSummary sectionPath = clauses ++ [' '] := by
  unfold composePrefix
  extract_lets summary path clauses
  split
  · exact .inl rfl
  · exact .inr ⟨_, rfl⟩

/-- A counter that adds up over a blank adds up over a composed context. -/
theorem addsUp_composePrefix {tokenizer : Option Tokenizer}
    (hblank : ∀ a b, countTokens (a ++ ' ' :: b) tokenizer =
      countTokens a tokenizer + countTokens b tokenizer)
    (docSummary sectionPath body : Str) :
    AddsUp (composePrefix docSummary sectionPath) body tokenizer where
  whole := by
    rcases composePrefix_blank docSummary sectionPath with hnone | ⟨clauses, hclauses⟩
    · rw [hnone]
      exact Nat.le_add_left _ _
    · rw [hclauses, List.append_assoc]
      have hjoin := hblank clauses body
      have halone := hblank clauses []
      exact hjoin.trans_le (Nat.add_le_add_right ((Nat.le_add_right _ _).trans halone.ge) _)
  words kept _ := (hblank (" ".toList.intercalate kept) body).le

theorem countTokens_blank (a b : Str) : countTokens (a ++ ' ' :: b) none =
    countTokens a none + countTokens b none := by
  unfold countTokens splitWhitespace
  dsimp only
  rw [List.splitOnP_append_cons _ _ (by decide), List.filter_append, List.length_append]

/-- The context gives way to the body, at any budget and at that of the embedder. -/
theorem composeEmbeddingText_bodyFirst {context body : Str} {tokenizer : Option Tokenizer}
    (h : AddsUp context body tokenizer) :
    (∀ budget, BodyFirst budget context body tokenizer (composeWithin budget context body tokenizer)) ∧
      BodyFirst (embedderTokenWindow - searchDocumentPrefixTokens) context body tokenizer
        (composeEmbeddingText context body tokenizer) :=
  ⟨bodyFirst_composeWithin h, bodyFirst_composeWithin h _⟩

theorem composeEmbeddingText_bodyFirst_words :
    (∀ budget, BodyFirst budget (composePrefix "A doc about Ada".toList "Intro > Bio".toList)
      "The canonical chunk body.".toList none
      (composeWithin budget (composePrefix "A doc about Ada".toList "Intro > Bio".toList)
        "The canonical chunk body.".toList none)) ∧
      BodyFirst (embedderTokenWindow - searchDocumentPrefixTokens)
        (composePrefix "A doc about Ada".toList "Intro > Bio".toList)
        "The canonical chunk body.".toList none
        (composeEmbeddingText (composePrefix "A doc about Ada".toList "Intro > Bio".toList)
          "The canonical chunk body.".toList none) :=
  composeEmbeddingText_bodyFirst (addsUp_composePrefix countTokens_blank _ _ _)

/-- Two words of the context are left where the body leaves room for two. -/
example : composeWithin 4 (composePrefix "ctx".toList "Sec".toList) "the body".toList none =
    "[Document: ctx] the body".toList := by decide +kernel

end Compose

end LensLM
