import LensLM.Lib.Whitespace
import LensLM.PromptFit
import Mathlib.Data.List.AList

/-!
# The history of a conversation

The rows of a transcript are grouped into turns. A turn that is generated anew gets its row after
those of later turns.
-/

namespace LensLM

open ByteText

set_option autoImplicit false

inductive ChatState where
  | cancelled
  | errored
deriving DecidableEq, Repr

structure ChatMessage where
  turnId : String
  role : ChatRole
  content : Str
  state : Option ChatState
deriving DecidableEq, Repr

/-- The turns in the order of their first rows, their questions and their answers. -/
structure TurnGroups where
  order : List String
  userOf : AList fun _ : String => Str
  answerOf : AList fun _ : String => Str

namespace TurnGroups

def empty : TurnGroups := ⟨[], ∅, ∅⟩

def add (g : TurnGroups) (r : ChatMessage) : TurnGroups :=
  let turn := r.turnId
  let order := if (g.userOf.lookup turn).isNone && (g.answerOf.lookup turn).isNone then
    g.order ++ [turn] else g.order
  match r.role with
  | .user => ⟨order, g.userOf.insert turn r.content, g.answerOf⟩
  | .assistant =>
    if r.state.isNone && !(trim r.content).isEmpty then
      ⟨order, g.userOf, g.answerOf.insert turn r.content⟩
    else ⟨order, g.userOf, g.answerOf⟩

/-- The loop ends at the first row of the current turn. -/
def addAll (currentTurnId : String) (g : TurnGroups) : List ChatMessage → TurnGroups
  | [] => g
  | r :: rows => if r.turnId = currentTurnId then g else addAll currentTurnId (g.add r) rows

def messages (g : TurnGroups) : List LlmMessage :=
  g.order.flatMap fun turn =>
    match g.userOf.lookup turn, g.answerOf.lookup turn with
    | some u, some a => [⟨.user, u⟩, ⟨.assistant, a⟩]
    | _, _ => []

end TurnGroups

def nextMultipleOfTwo (n : Nat) : Nat := if n % 2 = 0 then n else n + (2 - n % 2)

def historyMessages (rows : List ChatMessage) (currentTurnId : String) (limit : Nat) :
    List LlmMessage :=
  if limit = 0 then []
  else
    let msgs := (TurnGroups.empty.addAll currentTurnId rows).messages
    if limit < msgs.length then
      msgs.drop (min (nextMultipleOfTwo (msgs.length - limit)) msgs.length)
    else msgs

section Complete

def ChatMessage.IsUser (r : ChatMessage) : Prop := r.role = .user

/-- An answer that is not blank and has no marker. -/
def ChatMessage.IsAnswer (r : ChatMessage) : Prop :=
  r.role = .assistant ∧ r.state = none ∧ trim r.content ≠ []

instance (r : ChatMessage) : Decidable r.IsUser := inferInstanceAs (Decidable (_ = _))
instance (r : ChatMessage) : Decidable r.IsAnswer := inferInstanceAs (Decidable (_ ∧ _ ∧ _))

def beforeTurn (currentTurnId : String) (rows : List ChatMessage) : List ChatMessage :=
  rows.takeWhile fun r => r.turnId ≠ currentTurnId

def userText (rows : List ChatMessage) (turn : String) : Option Str :=
  ((rows.filter fun r => r.IsUser ∧ r.turnId = turn).getLast?).map ChatMessage.content

def newestAnswer (rows : List ChatMessage) (turn : String) : Option Str :=
  ((rows.filter fun r => r.IsAnswer ∧ r.turnId = turn).getLast?).map ChatMessage.content

/-- The turns in the order of their user rows. -/
def turnOrder (rows : List ChatMessage) : List String :=
  ((rows.filter fun r => r.IsUser).map ChatMessage.turnId).eraseDups

/-- The question and the answer of each turn that has both. -/
def completeTurns (rows : List ChatMessage) : List (Str × Str) :=
  (turnOrder rows).filterMap fun turn =>
    match userText rows turn, newestAnswer rows turn with
    | some u, some a => some (u, a)
    | _, _ => none

/-- Every assistant row comes after a user row of its turn. -/
def UserFirst (rows : List ChatMessage) : Prop :=
  ∀ before r after, rows = before ++ r :: after → r.role = .assistant →
    ∃ u ∈ before, u.IsUser ∧ u.turnId = r.turnId

variable {rows before : List ChatMessage} {r : ChatMessage} {turn : String}

theorem mem_turnOrder_iff : turn ∈ turnOrder rows ↔ ∃ u ∈ rows, u.IsUser ∧ u.turnId = turn := by
  simp [turnOrder, List.mem_eraseDups, and_assoc]

theorem userText_concat : userText (rows ++ [r]) turn =
    if r.IsUser ∧ r.turnId = turn then some r.content else userText rows turn := by
  unfold userText
  rw [List.filter_append]
  split
  · next h => simp [h]
  · next h => simp [h]

theorem newestAnswer_concat : newestAnswer (rows ++ [r]) turn =
    if r.IsAnswer ∧ r.turnId = turn then some r.content else newestAnswer rows turn := by
  unfold newestAnswer
  rw [List.filter_append]
  split
  · next h => simp [h]
  · next h => simp [h]

theorem userText_isSome_iff : (userText rows turn).isSome ↔ turn ∈ turnOrder rows := by
  rw [mem_turnOrder_iff]
  simp [userText]

theorem newestAnswer_isSome (h : (newestAnswer rows turn).isSome) :
    ∃ a ∈ rows, a.role = .assistant ∧ a.turnId = turn := by
  obtain ⟨text, htext⟩ := Option.isSome_iff_exists.mp h
  obtain ⟨a, ha, -⟩ := Option.map_eq_some_iff.mp htext
  obtain ⟨hmem, hanswer⟩ := List.mem_filter.mp (List.mem_of_getLast? ha)
  obtain ⟨hanswer, hturn⟩ := of_decide_eq_true hanswer
  exact ⟨a, hmem, hanswer.1, hturn⟩

theorem turnOrder_concat_user (hr : r.IsUser) : turnOrder (rows ++ [r]) =
    if r.turnId ∈ turnOrder rows then turnOrder rows else turnOrder rows ++ [r.turnId] := by
  have hmem : r.turnId ∈ turnOrder rows ↔
      r.turnId ∈ (rows.filter fun r => r.IsUser).map ChatMessage.turnId := List.mem_eraseDups
  have hlast : [r].filter (fun r => decide r.IsUser) = [r] := by simp [hr]
  simp only [hmem]
  unfold turnOrder
  rw [List.filter_append, List.map_append, List.eraseDups_append, hlast]
  split
  · next h => simp [List.removeAll, h]
  · next h => simp [List.removeAll, h, List.eraseDups_cons]

theorem turnOrder_concat_assistant (hr : ¬ r.IsUser) :
    turnOrder (rows ++ [r]) = turnOrder rows := by
  unfold turnOrder
  rw [List.filter_append]
  simp [hr]

theorem turnOrder_nodup (rows : List ChatMessage) : (turnOrder rows).Nodup := by
  induction rows using List.reverseRecOn with
  | nil => exact List.nodup_nil
  | append_singleton rows r ih =>
    by_cases hr : r.IsUser
    · rw [turnOrder_concat_user hr]
      split
      · exact ih
      · next hnew => exact ih.append (List.nodup_singleton _) (by simpa using hnew)
    · rw [turnOrder_concat_assistant hr]
      exact ih

end Complete

section Groups

variable {rows before : List ChatMessage} {r : ChatMessage} {g : TurnGroups}

/-- The groups hold what the rows so far say of each turn. -/
structure Grouped (rows : List ChatMessage) (g : TurnGroups) : Prop where
  order : g.order = turnOrder rows
  users : ∀ turn, g.userOf.lookup turn = userText rows turn
  answers : ∀ turn, g.answerOf.lookup turn = newestAnswer rows turn

theorem grouped_empty : Grouped [] TurnGroups.empty := ⟨rfl, fun _ => rfl, fun _ => rfl⟩

theorem lookup_insert_eq (m : AList fun _ : String => Str) (k : String) (v : Str) (turn : String) :
    (m.insert k v).lookup turn = if k = turn then some v else m.lookup turn := by
  by_cases hk : k = turn
  · rw [if_pos hk, ← hk, AList.lookup_insert]
  · rw [if_neg hk, AList.lookup_insert_ne (Ne.symm hk)]

theorem Grouped.isNone_iff (h : Grouped before g)
    (hasked : ∀ a ∈ before, a.role = .assistant → a.turnId ∈ turnOrder before) (turn : String) :
    ((g.userOf.lookup turn).isNone && (g.answerOf.lookup turn).isNone) = true ↔
      turn ∉ turnOrder before := by
  rw [h.users, h.answers, Bool.and_eq_true, Option.isNone_iff_eq_none, Option.isNone_iff_eq_none,
    ← userText_isSome_iff, Option.not_isSome_iff_eq_none]
  constructor
  · exact And.left
  · intro hnone
    refine ⟨hnone, ?_⟩
    by_contra hanswer
    obtain ⟨a, ha, hrole, rfl⟩ := newestAnswer_isSome (Option.isSome_iff_ne_none.mpr hanswer)
    have huser := userText_isSome_iff.mpr (hasked a ha hrole)
    rw [hnone] at huser
    simp at huser

theorem Grouped.add (h : Grouped before g)
    (hasked : ∀ a ∈ before, a.role = .assistant → a.turnId ∈ turnOrder before)
    (hfirst : r.role = .assistant → r.turnId ∈ turnOrder before) :
    Grouped (before ++ [r]) (g.add r) := by
  have hnew := h.isNone_iff hasked r.turnId
  cases hrole : r.role with
  | user =>
    have huser : r.IsUser := hrole
    have hno : ¬ r.IsAnswer := by simp [ChatMessage.IsAnswer, hrole]
    simp only [TurnGroups.add, hrole]
    refine ⟨?_, ?_, ?_⟩
    · rw [turnOrder_concat_user huser, h.order]
      by_cases hseen : r.turnId ∈ turnOrder before
      · rw [if_pos hseen, if_neg (mt hnew.mp (not_not_intro hseen))]
      · rw [if_neg hseen, if_pos (hnew.mpr hseen)]
    · intro turn
      rw [userText_concat, lookup_insert_eq, h.users]
      simp only [huser, true_and]
    · intro turn
      rw [newestAnswer_concat, if_neg (not_and_of_not_left _ hno), h.answers]
  | assistant =>
    have hno : ¬ r.IsUser := by simp [ChatMessage.IsUser, hrole]
    have hseen := hfirst hrole
    simp only [TurnGroups.add, hrole, if_neg (mt hnew.mp (not_not_intro hseen))]
    have hanswer : r.IsAnswer ↔ (r.state.isNone && !(trim r.content).isEmpty) = true := by
      simp [ChatMessage.IsAnswer, hrole]
    split
    · next hgood =>
      refine ⟨?_, ?_, ?_⟩
      · rw [turnOrder_concat_assistant hno, h.order]
      · intro turn
        rw [userText_concat, if_neg (not_and_of_not_left _ hno), h.users]
      · intro turn
        rw [newestAnswer_concat, lookup_insert_eq, h.answers]
        simp only [hanswer.mpr hgood, true_and]
    · next hbad =>
      refine ⟨?_, ?_, ?_⟩
      · rw [turnOrder_concat_assistant hno, h.order]
      · intro turn
        rw [userText_concat, if_neg (not_and_of_not_left _ hno), h.users]
      · intro turn
        rw [newestAnswer_concat, if_neg (not_and_of_not_left _ (mt hanswer.mp hbad)), h.answers]

/-- Up to the current turn each row is added to the groups of those before it. -/
theorem Grouped.addAll {currentTurnId : String} (h : Grouped before g)
    (hfirst : UserFirst (before ++ rows)) :
    Grouped (before ++ beforeTurn currentTurnId rows) (g.addAll currentTurnId rows) := by
  induction rows generalizing before g with
  | nil =>
    rw [beforeTurn, List.takeWhile_nil, List.append_nil]
    exact h
  | cons r rows ih =>
    simp only [TurnGroups.addAll]
    split
    · next hcurrent =>
      rw [beforeTurn, List.takeWhile_cons_of_neg (by simpa using hcurrent), List.append_nil]
      exact h
    · next hother =>
      rw [beforeTurn, List.takeWhile_cons_of_pos (by simpa using hother)]
      have hasked : ∀ a ∈ before, a.role = .assistant → a.turnId ∈ turnOrder before := by
        intro a ha hrole
        obtain ⟨pre, post, rfl⟩ := List.append_of_mem ha
        obtain ⟨u, hu, huser⟩ := hfirst pre a (post ++ r :: rows) (by simp) hrole
        exact mem_turnOrder_iff.mpr ⟨u, by simp [hu], huser⟩
      have hnext : r.role = .assistant → r.turnId ∈ turnOrder before := by
        intro hrole
        exact mem_turnOrder_iff.mpr (hfirst before r rows rfl hrole)
      have htail := ih (h.add hasked hnext) (by simpa using hfirst)
      simpa [beforeTurn] using htail

theorem Grouped.messages (h : Grouped rows g) : g.messages = turnMessages (completeTurns rows) := by
  unfold TurnGroups.messages completeTurns
  rw [h.order]
  induction turnOrder rows with
  | nil => rfl
  | cons turn order ih =>
    rw [List.flatMap_cons, ih, List.filterMap_cons, h.users, h.answers]
    cases userText rows turn with
    | none => rfl
    | some u => cases newestAnswer rows turn <;> rfl

end Groups

theorem drop_turnMessages (turns : List (Str × Str)) (n : Nat) :
    (turnMessages turns).drop (2 * n) = turnMessages (turns.drop n) := by
  induction n generalizing turns with
  | zero => rfl
  | succ n ih =>
    cases turns with
    | nil => simp
    | cons t turns =>
      rw [show 2 * (n + 1) = 2 + 2 * n by omega, ← List.drop_drop, drop_turnMessages_cons, ih,
        List.drop_succ_cons]

/-- Questions at the even places, answers at the odd ones. -/
def Alternating (messages : List LlmMessage) : Prop :=
  ∀ i m, messages[i]? = some m → m.role = if i % 2 = 0 then .user else .assistant

theorem turnMessages_alternating (turns : List (Str × Str)) : Alternating (turnMessages turns) := by
  induction turns with
  | nil => intro i m h; simp at h
  | cons t turns ih =>
    intro i m h
    rw [turnMessages_cons] at h
    rcases i with _ | _ | i
    · obtain rfl : LlmMessage.mk .user t.1 = m := by simpa using h
      rfl
    · obtain rfl : LlmMessage.mk .assistant t.2 = m := by simpa using h
      rfl
    · rw [ih i m (by simpa using h), show (i + 1 + 1) % 2 = i % 2 by omega]

/-- The history holds the newest turns that are complete before the current turn, as many as the
limit has room for. -/
theorem historyMessages_complete (rows : List ChatMessage) (currentTurnId : String) (limit : Nat)
    (hfirst : UserFirst rows) :
    let turns := completeTurns (beforeTurn currentTurnId rows)
    let history := historyMessages rows currentTurnId limit
    history = turnMessages (turns.drop (turns.length - limit / 2)) ∧ Alternating history ∧
      Even history.length ∧ history.length ≤ limit ∧
        (turnOrder (beforeTurn currentTurnId rows)).Nodup := by
  intro turns history
  have hmessages : (TurnGroups.empty.addAll currentTurnId rows).messages = turnMessages turns :=
    (grouped_empty.addAll hfirst).messages
  have hhistory : history = turnMessages (turns.drop (turns.length - limit / 2)) := by
    simp only [history, historyMessages, hmessages, length_turnMessages]
    split
    · next hzero => simp [hzero]
    · split
      · next hmore =>
        have hdrop : min (nextMultipleOfTwo (2 * turns.length - limit)) (2 * turns.length) =
            2 * (turns.length - limit / 2) := by
          unfold nextMultipleOfTwo
          split <;> omega
        rw [hdrop, drop_turnMessages]
      · next hall =>
        have hzero : turns.length - limit / 2 = 0 := by omega
        rw [hzero, List.drop_zero]
  refine ⟨hhistory, ?_, ?_, ?_, turnOrder_nodup _⟩
  · rw [hhistory]
    exact turnMessages_alternating _
  · rw [hhistory, length_turnMessages]
    exact even_two_mul _
  · rw [hhistory, length_turnMessages, List.length_drop]
    omega

/-- The answer that was generated anew counts, and a limit of three has room for one turn. -/
theorem historyMessages_complete_regenerated :
    let rows : List ChatMessage := [⟨"t1", .user, "q1".toList, none⟩,
      ⟨"t1", .assistant, "old".toList, none⟩, ⟨"t2", .user, "q2".toList, none⟩,
      ⟨"t1", .assistant, "new".toList, none⟩, ⟨"t3", .user, "q3".toList, none⟩]
    UserFirst rows ∧ historyMessages rows "t3" 3 = turnMessages [("q1".toList, "new".toList)] := by
  intro rows
  have hfirst : UserFirst rows := by
    intro before r after heq hrole
    rcases before with _ | ⟨b1, _ | ⟨b2, _ | ⟨b3, _ | ⟨b4, _ | ⟨b5, before⟩⟩⟩⟩⟩ <;>
      simp only [rows, List.nil_append, List.cons_append, List.cons.injEq] at heq
    · simp [← heq.1] at hrole
    · exact ⟨b1, by simp, by rw [← heq.1]; rfl, by rw [← heq.1, ← heq.2.1]⟩
    · simp [← heq.2.2.1] at hrole
    · exact ⟨b1, by simp, by rw [← heq.1]; rfl, by rw [← heq.1, ← heq.2.2.2.1]⟩
    · simp [← heq.2.2.2.2.1] at hrole
    · simp at heq
  have h := (historyMessages_complete rows "t3" 3 hfirst).1
  exact ⟨hfirst, h.trans (by decide)⟩

end LensLM
