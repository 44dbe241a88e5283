import LensLM.Block
import LensLM.Lib.Outline

/-!
# The heading trail

`SectionPathStack` keeps one title per heading level. Its trail joins the titles in force,
and the trail splits back into as many titles as long as none contains the separator.
-/

namespace LensLM

open ByteText Outline

set_option autoImplicit false

/-- `levels[0]` is the title of the H1 in force, `levels[5]` that of the H6. -/
structure SectionPathStack where
  levels : List (Option Str)
  size : levels.length = 6

namespace SectionPathStack

def new : SectionPathStack := ⟨List.replicate 6 none, rfl⟩

/-- The slot of a level, which is clamped to 1..6. -/
def slot (level : Nat) : Nat := max 1 (min level 6) - 1

theorem slot_lt (level : Nat) : slot level < 6 := by
  unfold slot
  omega

/-- Records a title at its level and clears every deeper level. -/
def push (st : SectionPathStack) (level : Nat) (text : Str) : SectionPathStack where
  levels := st.levels.take (slot level) ++ some text :: List.replicate (5 - slot level) none
  size := by
    have := slot_lt level
    simp only [List.length_append, List.length_take, List.length_cons, List.length_replicate,
      st.size]
    omega

/-- The titles in force, from H1 down. -/
def titles (st : SectionPathStack) : List Str := st.levels.filterMap id

end SectionPathStack

def trailSeparator : Str := [' ', '>', ' ']

/-- Joins titles with the separator. -/
def joinTrail : List Str → Str
  | [] => []
  | [t] => t
  | t :: u :: ts => t ++ trailSeparator ++ joinTrail (u :: ts)

def SectionPathStack.current (st : SectionPathStack) : Str := joinTrail st.titles

/-- The leftmost non-overlapping split at the separator. -/
def splitTrail : Str → List Str
  | ' ' :: '>' :: ' ' :: s => [] :: splitTrail s
  | [] => [[]]
  | c :: s =>
    match splitTrail s with
    | [] => [[c]]
    | t :: ts => (c :: t) :: ts

/-- A title that neither contains the separator nor ends in a part of it. -/
def SeparatorFree (t : Str) : Prop := ¬ trailSeparator <:+: t ∧ ¬ [' ', '>'] <:+ t

instance (t : Str) : Decidable (SeparatorFree t) := inferInstanceAs (Decidable (_ ∧ _))

theorem SeparatorFree.tail {c : Char} {t : Str} (h : SeparatorFree (c :: t)) :
    SeparatorFree t :=
  ⟨fun hi => h.1 (hi.trans (List.suffix_cons c t).isInfix),
    fun hs => h.2 (hs.trans (List.suffix_cons c t))⟩

theorem splitTrail_cons {c : Char} {s t : Str} {ts : List Str}
    (h : ¬ trailSeparator <+: c :: s) (hs : splitTrail s = t :: ts) :
    splitTrail (c :: s) = (c :: t) :: ts := by
  have hcase : ∀ s', c = ' ' → s = '>' :: ' ' :: s' → False := by
    intro s' hc hs'
    exact h ⟨s', by simp [trailSeparator, hc, hs']⟩
  rw [splitTrail.eq_3 c s hcase, hs]

theorem SeparatorFree.not_prefix {c : Char} {t : Str} (h : SeparatorFree (c :: t)) (r : Str) :
    ¬ trailSeparator <+: c :: (t ++ trailSeparator ++ r) := by
  intro hp
  obtain ⟨u, hu⟩ := hp
  simp only [trailSeparator, List.cons_append, List.nil_append, List.cons.injEq] at hu
  obtain ⟨rfl, hu⟩ := hu
  match t, h, hu with
  | [], _, hu => simp at hu
  | [d], h, hu =>
    obtain rfl : '>' = d := by simpa using (List.cons.inj hu).1
    exact h.2 (List.suffix_refl _)
  | d :: e :: t, h, hu =>
    simp only [List.cons_append, List.cons.injEq] at hu
    obtain ⟨rfl, rfl, _⟩ := hu
    exact h.1 (List.IsPrefix.isInfix ⟨t, rfl⟩)

theorem splitTrail_append {t : Str} (h : SeparatorFree t) (r : Str) :
    splitTrail (t ++ trailSeparator ++ r) = t :: splitTrail r := by
  induction t with
  | nil => rfl
  | cons c t ih =>
    exact splitTrail_cons (h.not_prefix r) (ih h.tail)

theorem splitTrail_self {t : Str} (h : SeparatorFree t) : splitTrail t = [t] := by
  induction t with
  | nil => rfl
  | cons c t ih =>
    exact splitTrail_cons (fun hp => h.1 hp.isInfix) (ih h.tail)

/-- The trail of separator-free titles splits back into them. -/
theorem splitTrail_joinTrail {ts : List Str} (hne : ts ≠ []) (h : ∀ t ∈ ts, SeparatorFree t) :
    splitTrail (joinTrail ts) = ts := by
  induction ts with
  | nil => exact absurd rfl hne
  | cons t ts ih =>
    cases ts with
    | nil => exact splitTrail_self (h t List.mem_cons_self)
    | cons u us =>
      unfold joinTrail
      rw [splitTrail_append (h t List.mem_cons_self),
        ih (by simp) fun v hv => h v (List.mem_cons_of_mem t hv)]

theorem joinTrail_ne_nil {ts : List Str} (hne : ts ≠ []) (h : ∀ t ∈ ts, t ≠ []) :
    joinTrail ts ≠ [] := by
  cases ts with
  | nil => exact absurd rfl hne
  | cons t ts =>
    cases ts with
    | nil => exact h t List.mem_cons_self
    | cons u us => simp [joinTrail, trailSeparator]

/-- A heading of a document. -/
structure Heading where
  level : Nat
  title : Str
  start : Nat
  stop : Nat
  low : 1 ≤ level
  high : level ≤ 6
deriving DecidableEq

/-- Up to each level the stack holds the titles of the headings in force. -/
def Tracks (st : SectionPathStack) (chain : List Heading) : Prop :=
  ∀ k, (st.levels.take k).filterMap id =
    (chain.filter fun h => h.level ≤ k).map Heading.title

theorem tracks_new : Tracks SectionPathStack.new [] := by
  intro k
  rw [List.filter_nil, List.map_nil, List.filterMap_eq_nil_iff]
  intro o ho
  exact List.eq_of_mem_replicate (List.mem_of_mem_take ho)

theorem Tracks.push {st : SectionPathStack} {chain : List Heading} (h : Tracks st chain)
    (k : Heading) : Tracks (st.push k.level k.title) (enter Heading.level chain k) := by
  have hlow := k.low
  have hhigh := k.high
  have hslot : SectionPathStack.slot k.level + 1 = k.level := by
    unfold SectionPathStack.slot
    omega
  have hlen : (st.levels.take (SectionPathStack.slot k.level)).length =
      SectionPathStack.slot k.level := by
    rw [List.length_take, st.size]
    omega
  intro n
  simp only [SectionPathStack.push, List.take_append, hlen, List.take_take, List.filterMap_append,
    enter, shallower, List.filter_append, List.map_append, List.filter_filter]
  by_cases hn : n < k.level
  · have hsub : n - SectionPathStack.slot k.level = 0 := by omega
    have hmin : min n (SectionPathStack.slot k.level) = n := by omega
    rw [hsub, hmin, h n, List.filter_cons_of_neg (by simpa using hn)]
    simp only [List.take_zero, List.filterMap_nil, List.append_nil, List.filter_nil, List.map_nil]
    congr 1
    apply List.filter_congr
    intro m _
    rw [← Bool.decide_and, decide_eq_decide]
    omega
  · obtain ⟨d, hd⟩ : ∃ d, n - SectionPathStack.slot k.level = d + 1 :=
      ⟨n - k.level, by omega⟩
    have hmin : min n (SectionPathStack.slot k.level) = SectionPathStack.slot k.level := by omega
    rw [hd, hmin, h, List.filter_cons_of_pos (by simp; omega)]
    simp only [List.take_succ_cons, List.filter_nil, List.map_cons, List.map_nil]
    congr 1
    · congr 1
      apply List.filter_congr
      intro m _
      rw [← Bool.decide_and, decide_eq_decide]
      omega
    · simp

theorem Tracks.titles {st : SectionPathStack} {chain : List Heading} (h : Tracks st chain) :
    st.titles = chain.map Heading.title := by
  have h6 := h 6
  rw [List.take_of_length_le (Nat.le_of_eq st.size)] at h6
  rw [SectionPathStack.titles, h6]
  congr 1
  apply List.filter_eq_self.mpr
  intro k _
  exact decide_eq_true k.high

theorem Tracks.length_le {st : SectionPathStack} {chain : List Heading} (h : Tracks st chain) :
    chain.length ≤ 6 := by
  have := congrArg List.length h.titles
  rw [List.length_map] at this
  rw [← this, ← st.size]
  exact List.length_filterMap_le _ _

end LensLM
