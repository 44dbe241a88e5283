import LensLM.Lib.Spans
import Mathlib.Data.List.Induction

/-!
# Heading trees

Headings arrive in document order, each with a level and a start. A heading closes every
heading in force at its own level or deeper. Its section runs to the next heading whose
level is at most its own.
-/

namespace Outline

open Spans

set_option autoImplicit false

section Force

variable {α : Type} (level : α → Nat)

/-- The headings of a chain that a new heading leaves in force. -/
def shallower (chain : List α) (h : α) : List α := chain.filter fun k => level k < level h

def enter (chain : List α) (h : α) : List α := shallower level chain h ++ [h]

/-- The headings in force at the end of a sequence. -/
def inForce (hs : List α) : List α := hs.foldl (enter level) []

/-- The heading under which a heading stands. -/
def parentOf (pre : List α) (h : α) : Option α := (shallower level (inForce level pre) h).getLast?

def parentsFrom (chain : List α) : List α → List (Option α)
  | [] => []
  | h :: hs => (shallower level chain h).getLast? :: parentsFrom (enter level chain h) hs

/-- The parents of the headings of a sequence, in order. -/
def parents (hs : List α) : List (Option α) := parentsFrom level [] hs

theorem inForce_concat (pre : List α) (h : α) :
    inForce level (pre ++ [h]) = enter level (inForce level pre) h := by
  simp [inForce]

theorem parentsFrom_append (chain hs ks : List α) :
    parentsFrom level chain (hs ++ ks) =
      parentsFrom level chain hs ++ parentsFrom level (hs.foldl (enter level) chain) ks := by
  induction hs generalizing chain with
  | nil => rfl
  | cons h hs ih => simp [parentsFrom, ih]

theorem parents_concat (pre : List α) (h : α) :
    parents level (pre ++ [h]) = parents level pre ++ [parentOf level pre h] :=
  parentsFrom_append level [] pre [h]

def Ascends (chain : List α) : Prop := chain.Pairwise fun a b => level a < level b

variable {level}

theorem mem_shallower {chain : List α} {h k : α} :
    k ∈ shallower level chain h ↔ k ∈ chain ∧ level k < level h := by
  simp [shallower]

theorem Ascends.enter {chain : List α} (hc : Ascends level chain) (h : α) :
    Ascends level (enter level chain h) := by
  refine List.pairwise_append.mpr ⟨hc.sublist List.filter_sublist, List.pairwise_singleton _ _, ?_⟩
  intro a ha b hb
  rw [List.mem_singleton.mp hb]
  exact (mem_shallower.mp ha).2

theorem ascends_foldl {chain : List α} (hc : Ascends level chain) (hs : List α) :
    Ascends level (hs.foldl (Outline.enter level) chain) := by
  induction hs generalizing chain with
  | nil => exact hc
  | cons h hs ih => exact ih (hc.enter h)

theorem inForce_ascends (hs : List α) : Ascends level (inForce level hs) :=
  ascends_foldl List.Pairwise.nil hs

theorem inForce_sublist (hs : List α) : (inForce level hs).Sublist hs := by
  induction hs using List.reverseRecOn with
  | nil => exact List.Sublist.slnil
  | append_singleton pre h ih =>
    rw [inForce_concat]
    exact (List.filter_sublist.trans ih).append (List.Sublist.refl [h])

/-- In an ascending chain the shallower headings are a prefix. -/
theorem shallower_initial {chain : List α} (hc : Ascends level chain) (h : α) :
    shallower level chain h <+: chain := by
  induction chain with
  | nil => exact List.prefix_refl []
  | cons k chain ih =>
    obtain ⟨hk, hrest⟩ := List.pairwise_cons.mp hc
    unfold shallower
    by_cases hlt : level k < level h
    · rw [List.filter_cons_of_pos (by simpa using hlt)]
      exact List.cons_prefix_cons.mpr ⟨rfl, ih hrest⟩
    · rw [List.filter_cons_of_neg (by simpa using hlt)]
      have hnil : chain.filter (fun k => level k < level h) = [] := by
        apply List.filter_eq_nil_iff.mpr
        intro a ha
        have := hk a ha
        simp only [decide_eq_true_eq]
        omega
      rw [hnil]
      exact List.nil_prefix

/-- The headings of a sequence that a following heading leaves in force. -/
def keep (level : α → Nat) : List α → α → List α
  | [], _ => []
  | k :: pre, h =>
    if level k < level h ∧ ∀ m ∈ pre, level k < level m then k :: keep level pre h
    else keep level pre h

theorem keep_concat (pre : List α) (m h : α) :
    keep level (pre ++ [m]) h =
      (keep level pre m).filter (fun k => level k < level h) ++
        [m].filter (fun k => level k < level h) := by
  induction pre with
  | nil => simp [keep, List.filter_cons]
  | cons k pre ih =>
    simp only [List.cons_append, keep, ih]
    have hall : (∀ x ∈ pre ++ [m], level k < level x) ↔
        (∀ x ∈ pre, level k < level x) ∧ level k < level m := by
      simp [or_imp, forall_and]
    simp only [hall]
    by_cases hpre : ∀ x ∈ pre, level k < level x
    · by_cases hkh : level k < level h <;> by_cases hkm : level k < level m <;>
        simp [hkh, hkm, eq_true hpre]
    · simp [eq_false hpre]

theorem shallower_inForce (pre : List α) (h : α) :
    shallower level (inForce level pre) h = keep level pre h := by
  induction pre using List.reverseRecOn generalizing h with
  | nil => rfl
  | append_singleton pre m ih =>
    rw [inForce_concat, keep_concat, ← ih m]
    simp [shallower, enter]

theorem mem_of_parentOf {pre : List α} {h p : α} (hp : parentOf level pre h = some p) : p ∈ pre :=
  (inForce_sublist pre).subset (mem_shallower.mp (List.mem_of_getLast? hp)).1

theorem mem_of_mem_parents {hs : List α} {p : α} (hp : some p ∈ parents level hs) : p ∈ hs := by
  induction hs using List.reverseRecOn with
  | nil => simp [parents, parentsFrom] at hp
  | append_singleton pre h ih =>
    rw [parents_concat] at hp
    apply List.mem_append_left
    rcases List.mem_append.mp hp with hp | hp
    · exact ih hp
    · exact mem_of_parentOf (List.mem_singleton.mp hp).symm

/-- The heading in force at a depth of a chain; none at depth zero. -/
def ancestor (chain : List α) (d : Nat) : Option α := (chain.take d).getLast?

theorem ancestor_succ {chain : List α} {d : Nat} (hd : d < chain.length) :
    ancestor chain (d + 1) = some chain[d] := by
  rw [ancestor, List.take_succ_eq_append_getElem hd, List.getLast?_concat]

theorem ancestor_injective {chain : List α} (hc : Ascends level chain) {d m : Nat} (hdm : d < m)
    (hm : m ≤ chain.length) : ancestor chain d ≠ ancestor chain m := by
  obtain ⟨n, rfl⟩ : ∃ n, m = n + 1 := ⟨m - 1, by omega⟩
  rw [ancestor_succ (by omega)]
  cases d with
  | zero => simp [ancestor]
  | succ d =>
    rw [ancestor_succ (by omega)]
    intro heq
    have hlt := List.pairwise_iff_getElem.mp hc d n (by omega) (by omega) (by omega)
    rw [Option.some.inj heq] at hlt
    omega

end Force

section Depth

variable {α : Type} {level : α → Nat}

/-- Each heading with the number of headings in force once it is entered. -/
def depthsFrom (level : α → Nat) (chain : List α) : List α → List (Nat × α)
  | [] => []
  | h :: hs => ((enter level chain h).length, h) :: depthsFrom level (enter level chain h) hs

/-- The next heading that is no deeper in the tree is the next one of at most that level. -/
theorem find_depth {above below hs : List α} {h : α}
    (hc : Ascends level (above ++ h :: below)) :
    ((depthsFrom level (above ++ h :: below) hs).find? fun p => p.1 ≤ above.length + 1).map
      Prod.snd = hs.find? fun k => level k ≤ level h := by
  induction hs generalizing below with
  | nil => rfl
  | cons k hs ih =>
    obtain ⟨ha, hb, hab⟩ := List.pairwise_append.mp hc
    obtain ⟨hhb, _⟩ := List.pairwise_cons.mp hb
    unfold depthsFrom
    by_cases hle : level k ≤ level h
    · have hcut : shallower level (above ++ h :: below) k = shallower level above k := by
        unfold shallower
        have hnil : (h :: below).filter (fun m => level m < level k) = [] := by
          apply List.filter_eq_nil_iff.mpr
          intro m hm
          simp only [decide_eq_true_eq]
          rcases List.mem_cons.mp hm with rfl | hm
          · omega
          · have := hhb m hm
            omega
        rw [List.filter_append, hnil, List.append_nil]
      have hlen : (shallower level above k).length ≤ above.length := List.length_filter_le _ _
      rw [List.find?_cons_of_pos (by simpa [enter, hcut] using hlen),
        List.find?_cons_of_pos (by simpa using hle)]
      rfl
    · have hkeep : shallower level (above ++ h :: below) k =
          above ++ h :: below.filter (fun m => level m < level k) := by
        unfold shallower
        rw [List.filter_append, List.filter_cons_of_pos (by simp; omega)]
        congr 1
        apply List.filter_eq_self.mpr
        intro m hm
        have := hab m hm h List.mem_cons_self
        simp only [decide_eq_true_eq]
        omega
      have henter : enter level (above ++ h :: below) k =
          above ++ h :: (below.filter (fun m => level m < level k) ++ [k]) := by
        simp [enter, hkeep]
      rw [List.find?_cons_of_neg (by simp [henter]), List.find?_cons_of_neg (by simpa using hle),
        henter]
      apply ih
      rw [← henter]
      exact hc.enter k

end Depth

section Sections

variable {α : Type} (level start : α → Nat) (docEnd : Nat)

/-- The start of the next heading of at most that level, or the end of the document. -/
def stopAt (h : α) (post : List α) : Nat :=
  ((post.find? fun k => level k ≤ level h).map start).getD docEnd

def spans : List α → List Span
  | [] => []
  | h :: hs => ⟨start h, stopAt level start docEnd h hs⟩ :: spans hs

@[simp] theorem spans_length (hs : List α) :
    (spans level start docEnd hs).length = hs.length := by
  induction hs with
  | nil => rfl
  | cons h hs ih => simp [spans, ih]

/-- Spans that overlap only by containing one another. -/
def Laminar (l : List Span) : Prop := l.Pairwise fun a b => a.stop ≤ b.start ∨ b.Within a

variable {level start docEnd}

theorem lt_stopAt {h : α} {post : List α} (hpost : ∀ k ∈ post, start h < start k)
    (hdoc : start h < docEnd) : start h < stopAt level start docEnd h post := by
  unfold stopAt
  cases hf : post.find? fun k => level k ≤ level h with
  | none => exact hdoc
  | some k => exact hpost k (List.mem_of_find?_eq_some hf)

/-- A section ends by the first heading after it of at most its level. -/
theorem stopAt_le {k h : α} {mid post : List α}
    (hasc : (mid ++ h :: post).Pairwise fun a b => start a < start b)
    (hcut : ¬ (level k < level h ∧ ∀ m ∈ mid, level k < level m)) :
    stopAt level start docEnd k (mid ++ h :: post) ≤ start h := by
  unfold stopAt
  induction mid with
  | nil =>
    have hle : level h ≤ level k := by simpa using hcut
    simp [hle]
  | cons m mid ih =>
    obtain ⟨hm, hrest⟩ := List.pairwise_cons.mp hasc
    by_cases hle : level m ≤ level k
    · have := hm h (by simp)
      simp only [List.cons_append]
      rw [List.find?_cons_of_pos (by simpa using hle)]
      exact Nat.le_of_lt this
    · have hlt : level k < level m := by omega
      simp only [List.cons_append]
      rw [List.find?_cons_of_neg (by simpa using hlt)]
      exact ih hrest fun h' => hcut ⟨h'.1, by simpa using ⟨hlt, h'.2⟩⟩

/-- A section outlasts the sections of the deeper headings that follow it. -/
theorem stopAt_mono {k h : α} {mid post : List α}
    (hasc : (h :: post).Pairwise fun a b => start a < start b)
    (hdoc : ∀ m ∈ h :: post, start m < docEnd)
    (hkeep : level k < level h ∧ ∀ m ∈ mid, level k < level m) :
    stopAt level start docEnd h post ≤ stopAt level start docEnd k (mid ++ h :: post) := by
  have hskip : (mid ++ h :: post).find? (fun m => level m ≤ level k) =
      post.find? fun m => level m ≤ level k := by
    rw [List.find?_append, List.find?_eq_none.mpr (by
      intro m hm
      have := hkeep.2 m hm
      simp only [decide_eq_true_eq]
      omega)]
    rw [Option.none_or, List.find?_cons_of_neg (by simpa using hkeep.1)]
  unfold stopAt
  rw [hskip]
  clear hskip
  have hlt := hkeep.1
  have hpost := (List.pairwise_cons.mp hasc).2
  have hdoc' : ∀ m ∈ post, start m < docEnd := fun m hm => hdoc m (List.mem_cons_of_mem h hm)
  clear hasc hdoc
  induction post with
  | nil => exact Nat.le_refl _
  | cons m post ih =>
    obtain ⟨hm, hrest⟩ := List.pairwise_cons.mp hpost
    by_cases hle : level m ≤ level h
    · rw [List.find?_cons_of_pos (by simpa using hle)]
      by_cases hle' : level m ≤ level k
      · apply Nat.le_of_eq
        rw [List.find?_cons_of_pos (by simpa using hle')]
      · rw [List.find?_cons_of_neg (by simpa using hle')]
        cases hf : post.find? fun m => level m ≤ level k with
        | none =>
          have := hdoc' m List.mem_cons_self
          simp only [Option.map_some, Option.getD_some, Option.map_none, Option.getD_none]
          omega
        | some m' =>
          have := hm m' (List.mem_of_find?_eq_some hf)
          simp only [Option.map_some, Option.getD_some]
          omega
    · rw [List.find?_cons_of_neg (by simpa using hle),
        List.find?_cons_of_neg (by simp only [decide_eq_true_eq]; omega)]
      exact ih hrest fun m' hm' => hdoc' m' (List.mem_cons_of_mem m hm')

/-- The sections around a section are exactly those of the headings above it. -/
theorem enclosing_spans {pre post : List α} {h : α}
    (hasc : (pre ++ h :: post).Pairwise fun a b => start a < start b)
    (hdoc : ∀ m ∈ pre ++ h :: post, start m < docEnd) :
    (((spans level start docEnd (pre ++ h :: post)).take pre.length).filter fun t =>
      Span.Within ⟨start h, stopAt level start docEnd h post⟩ t).map Span.start =
    (shallower level (inForce level pre) h).map start := by
  rw [shallower_inForce]
  induction pre with
  | nil => simp [keep]
  | cons k pre ih =>
    obtain ⟨hk, hrest⟩ := List.pairwise_cons.mp hasc
    have hih := ih hrest fun m hm => hdoc m (List.mem_cons_of_mem k hm)
    have htail := (List.pairwise_append.mp hrest).2.1
    have hkh := hk h (by simp)
    simp only [List.cons_append, spans, List.length_cons, List.take_succ_cons, keep]
    by_cases hkeep : level k < level h ∧ ∀ m ∈ pre, level k < level m
    · have hstop : stopAt level start docEnd h post ≤ _ := stopAt_mono htail
        (fun m hm => hdoc m (by simp at hm ⊢; tauto)) hkeep
      have hin : Span.Within ⟨start h, stopAt level start docEnd h post⟩
          ⟨start k, stopAt level start docEnd k (pre ++ h :: post)⟩ :=
        ⟨Nat.le_of_lt hkh, hstop⟩
      rw [List.filter_cons_of_pos (by simpa using hin), if_pos hkeep, List.map_cons, hih]
      rfl
    · have hcut : stopAt level start docEnd k (pre ++ h :: post) ≤ _ := stopAt_le hrest hkeep
      have hlt : _ < stopAt level start docEnd h post := lt_stopAt
        (List.pairwise_cons.mp htail).1 (hdoc h (by simp))
      have hout : ¬ Span.Within ⟨start h, stopAt level start docEnd h post⟩
          ⟨start k, stopAt level start docEnd k (pre ++ h :: post)⟩ := by
        intro hw
        have := hw.2
        simp only at this
        omega
      rw [List.filter_cons_of_neg (by simpa using hout), if_neg hkeep, hih]

theorem mem_spans {hs : List α} {t : Span} (ht : t ∈ spans level start docEnd hs) :
    ∃ mid h post, hs = mid ++ h :: post ∧ t = ⟨start h, stopAt level start docEnd h post⟩ := by
  induction hs with
  | nil => simp [spans] at ht
  | cons k hs ih =>
    rcases List.mem_cons.mp ht with ht | ht
    · exact ⟨[], k, hs, rfl, ht⟩
    · obtain ⟨mid, h, post, heq, hspan⟩ := ih ht
      exact ⟨k :: mid, h, post, by rw [heq]; rfl, hspan⟩

theorem spans_laminar {hs : List α} (hasc : hs.Pairwise fun a b => start a < start b)
    (hdoc : ∀ m ∈ hs, start m < docEnd) : Laminar (spans level start docEnd hs) := by
  induction hs with
  | nil => exact List.Pairwise.nil
  | cons k hs ih =>
    obtain ⟨hk, hrest⟩ := List.pairwise_cons.mp hasc
    apply List.pairwise_cons.mpr
    refine ⟨?_, ih hrest fun m hm => hdoc m (List.mem_cons_of_mem k hm)⟩
    intro t ht
    obtain ⟨mid, h, post, rfl, rfl⟩ := mem_spans ht
    by_cases hkeep : level k < level h ∧ ∀ m ∈ mid, level k < level m
    · refine Or.inr ⟨Nat.le_of_lt (hk h (by simp)), ?_⟩
      apply stopAt_mono (List.pairwise_append.mp hrest).2.1 _ hkeep
      intro m hm
      exact hdoc m (List.mem_cons_of_mem k (List.mem_append_right mid hm))
    · exact Or.inl (stopAt_le hrest hkeep)

end Sections

end Outline
