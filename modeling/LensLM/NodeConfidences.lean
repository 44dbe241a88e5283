import LensLM.UnionFind
import Mathlib.Data.List.Sort

/-!
# Confidences of the group members

A depth-first walk over the recorded edges carries the smallest confidence on the path from
the first node of a group.
-/

namespace LensLM

open LinkForest

set_option autoImplicit false

section Walk

variable {n : Nat} {κ : Type}

/-- The neighbours of a node, in the order of the recorded edges. -/
def adj (uf : UnionFind n κ) (v : Fin n) : List (Fin n × κ) :=
  uf.edges.flatMap fun e =>
    (if e.1 = v then [(e.2.1, e.2.2)] else []) ++ (if e.2.1 = v then [(e.1, e.2.2)] else [])

theorem mem_adj {uf : UnionFind n κ} {v w : Fin n} {k : κ} :
    (w, k) ∈ adj uf v ↔ Joined uf.edges v w k := by
  unfold adj LinkForest.Joined
  simp only [List.mem_flatMap, List.mem_append, Prod.exists]
  constructor
  · rintro ⟨a, b, c, he, h | h⟩
    · split at h
      · simp only [List.mem_singleton, Prod.mk.injEq] at h
        obtain ⟨rfl, rfl⟩ := h
        rename_i ha
        exact .inl (ha ▸ he)
      · cases h
    · split at h
      · simp only [List.mem_singleton, Prod.mk.injEq] at h
        obtain ⟨rfl, rfl⟩ := h
        rename_i hb
        exact .inr (hb ▸ he)
      · cases h
  · rintro (h | h)
    · exact ⟨v, w, k, h, .inl (by simp)⟩
    · exact ⟨w, v, k, h, .inr (by simp)⟩

theorem adj_ne_nil {uf : UnionFind n κ} {v w : Fin n} (h : Linked uf.edges v w) (hne : v ≠ w) :
    (adj uf v).isEmpty = false := by
  rw [List.isEmpty_eq_false_iff]
  -- a node without neighbours is linked to itself only
  intro hnil
  have hnone : ∀ x k, ¬ Joined uf.edges v x k := by
    intro x k hj
    rw [← mem_adj, hnil] at hj
    cases hj
  have hself : ∀ {x y}, Linked uf.edges x y → (x = v ↔ y = v) := by
    intro x y hxy
    induction hxy with
    | rel x y he =>
      obtain ⟨k, hk⟩ := he
      constructor
      · rintro rfl
        exact absurd (.inl hk) (hnone y k)
      · rintro rfl
        exact absurd (.inr hk) (hnone x k)
    | refl => exact Iff.rfl
    | symm _ _ _ ih => exact ih.symm
    | trans _ _ _ _ _ ih₁ ih₂ => exact ih₁.trans ih₂
  exact hne ((hself h).mp rfl).symm

structure Walk (n : Nat) (κ : Type) where
  conf : Fin n → Option κ
  visited : Fin n → Bool
  stack : List (Fin n × κ)
  groupMin : κ

variable [LinearOrder κ]

def pushUnvisited (pathMin : κ) (st : Walk n κ) (next : Fin n × κ) : Walk n κ :=
  if st.visited next.1 then st
  else { st with
    visited := Function.update st.visited next.1 true
    stack := (next.1, min pathMin next.2) :: st.stack }

/-- The confidence of the entry popped; the first node of the group has none yet. -/
def popEntry (start : Fin n) (st : Walk n κ) (node : Fin n) (pathMin : κ) : Walk n κ :=
  if node ≠ start then
    { st with
      conf := Function.update st.conf node (some pathMin)
      groupMin := min st.groupMin pathMin }
  else st

/-- One turn of the loop, for the entry popped from the stack. -/
def visit (uf : UnionFind n κ) (start : Fin n) (st : Walk n κ) (node : Fin n) (pathMin : κ) :
    Walk n κ :=
  (adj uf node).foldl (pushUnvisited pathMin) (popEntry start st node pathMin)

section PopEntry

variable (start : Fin n) (st : Walk n κ) (node : Fin n) (pathMin : κ)

@[simp] theorem popEntry_visited : (popEntry start st node pathMin).visited = st.visited := by
  unfold popEntry
  split <;> rfl

@[simp] theorem popEntry_stack : (popEntry start st node pathMin).stack = st.stack := by
  unfold popEntry
  split <;> rfl

theorem popEntry_conf_of_ne {v : Fin n} (h : v ≠ node) :
    (popEntry start st node pathMin).conf v = st.conf v := by
  unfold popEntry
  split
  · exact Function.update_of_ne h ..
  · rfl

theorem popEntry_groupMin_le : (popEntry start st node pathMin).groupMin ≤ st.groupMin := by
  unfold popEntry
  split
  · exact min_le_left _ _
  · exact le_refl _

theorem popEntry_self (h : node ≠ start) : (popEntry start st node pathMin).conf node = some pathMin ∧
    (popEntry start st node pathMin).groupMin ≤ pathMin := by
  unfold popEntry
  rw [if_pos h]
  exact ⟨Function.update_self .., min_le_right _ _⟩

theorem popEntry_groupMin_cases : (popEntry start st node pathMin).groupMin = st.groupMin ∨
    node ≠ start ∧ (popEntry start st node pathMin).groupMin = pathMin := by
  unfold popEntry
  split
  · rename_i h
    cases min_choice st.groupMin pathMin with
    | inl hmin => exact .inl hmin
    | inr hmin => exact .inr ⟨h, hmin⟩
  · exact .inl rfl

end PopEntry

/-- Nodes still to be visited and entries still to be popped. -/
def Walk.measure (st : Walk n κ) : Nat :=
  (Finset.univ.filter fun v => st.visited v = false).card + st.stack.length

theorem measure_pushUnvisited (pathMin : κ) (st : Walk n κ) (next : Fin n × κ) :
    (pushUnvisited pathMin st next).measure = st.measure := by
  unfold pushUnvisited
  split
  · rfl
  · rename_i hv
    have herase : (Finset.univ.filter fun v => Function.update st.visited next.1 true v = false) =
        (Finset.univ.filter fun v => st.visited v = false).erase next.1 := by
      ext v
      by_cases hvn : v = next.1
      · subst hvn
        simp
      · simp [hvn]
    have hmem : next.1 ∈ Finset.univ.filter fun v => st.visited v = false := by simpa using hv
    have hcard := Finset.card_erase_add_one hmem
    simp only [Walk.measure, List.length_cons, herase]
    omega

theorem measure_visit (uf : UnionFind n κ) (start : Fin n) (st : Walk n κ) (node : Fin n)
    (pathMin : κ) : (visit uf start st node pathMin).measure = st.measure := by
  have hpush : ∀ (nbrs : List (Fin n × κ)) (st : Walk n κ),
      (nbrs.foldl (pushUnvisited pathMin) st).measure = st.measure := by
    intro nbrs
    induction nbrs with
    | nil => exact fun _ => rfl
    | cons next nbrs ih =>
      intro st
      rw [List.foldl_cons, ih, measure_pushUnvisited]
  unfold visit
  rw [hpush]
  simp [Walk.measure]

def walk (uf : UnionFind n κ) (start : Fin n) (st : Walk n κ) : Walk n κ :=
  match _hs : st.stack with
  | [] => st
  | (node, pathMin) :: rest =>
    walk uf start (visit uf start { st with stack := rest } node pathMin)
termination_by st.measure
decreasing_by
  rw [measure_visit]
  simp [Walk.measure, _hs]

/-- What a run over the neighbours does: the unvisited ones are marked and pushed. -/
structure Pushed (nbrs : List (Fin n × κ)) (pathMin : κ) (st st' : Walk n κ) : Prop where
  conf : st'.conf = st.conf
  groupMin : st'.groupMin = st.groupMin
  visited : ∀ v, st'.visited v = true ↔ st.visited v = true ∨ ∃ k, (v, k) ∈ nbrs
  old : ∀ x ∈ st.stack, x ∈ st'.stack
  stack : ∀ v m, (v, m) ∈ st'.stack → (v, m) ∈ st.stack ∨
    (st.visited v = false ∧ ∃ k, (v, k) ∈ nbrs ∧ m = min pathMin k)
  new : ∀ v, st'.visited v = true → st.visited v = false → ∃ m, (v, m) ∈ st'.stack

theorem pushed_foldl (nbrs : List (Fin n × κ)) (pathMin : κ) (st : Walk n κ) :
    Pushed nbrs pathMin st (nbrs.foldl (pushUnvisited pathMin) st) := by
  induction nbrs generalizing st with
  | nil =>
    constructor
    case conf => rfl
    case groupMin => rfl
    case visited => simp
    case old => exact fun _ h => h
    case stack => exact fun _ _ h => .inl h
    case new =>
      intro v h h'
      rw [List.foldl_nil, h'] at h
      cases h
  | cons next nbrs ih =>
    obtain ⟨w, k⟩ := next
    have hih := ih (pushUnvisited pathMin st (w, k))
    rw [List.foldl_cons]
    by_cases hw : st.visited w = true
    · have hsame : pushUnvisited pathMin st (w, k) = st := if_pos hw
      rw [hsame] at hih ⊢
      refine ⟨hih.conf, hih.groupMin, ?_, hih.old, ?_, hih.new⟩
      · intro v
        rw [hih.visited]
        constructor
        · rintro (h | ⟨k', h⟩)
          · exact .inl h
          · exact .inr ⟨k', List.mem_cons_of_mem _ h⟩
        · rintro (h | ⟨k', h⟩)
          · exact .inl h
          · cases List.mem_cons.mp h with
            | inl h =>
              rw [Prod.mk.injEq] at h
              exact .inl (h.1 ▸ hw)
            | inr h => exact .inr ⟨k', h⟩
      · intro v m h
        cases hih.stack v m h with
        | inl h => exact .inl h
        | inr h =>
          obtain ⟨hv, k', hk, hm⟩ := h
          exact .inr ⟨hv, k', List.mem_cons_of_mem _ hk, hm⟩
    · have hpush : pushUnvisited pathMin st (w, k) =
          { st with
            visited := Function.update st.visited w true
            stack := (w, min pathMin k) :: st.stack } := if_neg hw
      rw [hpush] at hih ⊢
      have hw : st.visited w = false := by simpa using hw
      refine ⟨hih.conf, hih.groupMin, ?_, ?_, ?_, ?_⟩
      · intro v
        rw [hih.visited]
        by_cases hvw : v = w
        · subst hvw
          simp
        · simp [hvw]
      · intro x hx
        exact hih.old x (List.mem_cons_of_mem _ hx)
      · intro v m h
        cases hih.stack v m h with
        | inl h =>
          cases List.mem_cons.mp h with
          | inl h =>
            rw [Prod.mk.injEq] at h
            obtain ⟨rfl, rfl⟩ := h
            exact .inr ⟨hw, k, List.mem_cons_self, rfl⟩
          | inr h => exact .inl h
        | inr h =>
          obtain ⟨hv, k', hk, hm⟩ := h
          by_cases hvw : v = w
          · subst hvw
            simp at hv
          · have hv : st.visited v = false := by simpa [Function.update_of_ne hvw] using hv
            exact .inr ⟨hv, k', List.mem_cons_of_mem _ hk, hm⟩
      · intro v h hv
        by_cases hvw : v = w
        · subst hvw
          exact ⟨_, hih.old _ List.mem_cons_self⟩
        · exact hih.new v h (by simpa [Function.update_of_ne hvw] using hv)

variable [OrderTop κ]

/-- A run of the walk from `start`, which finds its group unvisited. -/
structure WalkInv (uf : UnionFind n κ) (start : Fin n) (visited₀ : Fin n → Bool)
    (conf₀ : Fin n → Option κ) (st : Walk n κ) : Prop where
  visited : ∀ v, st.visited v = true → visited₀ v = true ∨ Linked uf.edges start v
  old : ∀ v, visited₀ v = true → st.visited v = true
  started : st.visited start = true
  stack : ∀ v m, (v, m) ∈ st.stack → ∃ p, WeakestPath uf.edges start p v m ∧
    ∀ x ∈ p, st.visited x = true
  conf : ∀ v, st.visited v = true → visited₀ v = false → v ≠ start → (∃ m, (v, m) ∈ st.stack) ∨
    ∃ m p, st.conf v = some m ∧ WeakestPath uf.edges start p v m ∧ st.groupMin ≤ m
  closed : ∀ v, st.visited v = true → visited₀ v = false → (∀ m, (v, m) ∉ st.stack) →
    ∀ w k, Joined uf.edges v w k → st.visited w = true
  frame : ∀ v, ¬ Linked uf.edges start v → st.conf v = conf₀ v
  least : st.groupMin = ⊤ ∨ ∃ v p, v ≠ start ∧ WeakestPath uf.edges start p v st.groupMin

theorem WalkInv.visit {uf : UnionFind n κ} {start node : Fin n} {visited₀ : Fin n → Bool}
    {conf₀ : Fin n → Option κ} {st : Walk n κ} {pathMin : κ} {rest : List (Fin n × κ)}
    (h : WalkInv uf start visited₀ conf₀ st) (hs : st.stack = (node, pathMin) :: rest) :
    WalkInv uf start visited₀ conf₀ (visit uf start { st with stack := rest } node pathMin) := by
  obtain ⟨p, hp, hvis⟩ := h.stack node pathMin (by simp [hs])
  have hpush := pushed_foldl (adj uf node) pathMin
    (popEntry start { st with stack := rest } node pathMin)
  unfold LensLM.visit
  generalize (adj uf node).foldl (pushUnvisited pathMin)
    (popEntry start { st with stack := rest } node pathMin) = st' at hpush ⊢
  have hvisited : ∀ v, st'.visited v = true ↔ st.visited v = true ∨
      ∃ k, Joined uf.edges node v k := by
    intro v
    rw [hpush.visited, popEntry_visited]
    simp only [mem_adj]
  have hmono : ∀ v, st.visited v = true → st'.visited v = true :=
    fun v hv => (hvisited v).mpr (.inl hv)
  constructor
  case visited =>
    intro v hv
    cases (hvisited v).mp hv with
    | inl hv => exact h.visited v hv
    | inr hv =>
      obtain ⟨k, hk⟩ := hv
      exact .inr (hp.linked.trans hk.linked)
  case old => exact fun v hv => hmono v (h.old v hv)
  case started => exact hmono start h.started
  case stack =>
    intro v m hm
    cases hpush.stack v m hm with
    | inl hm =>
      rw [popEntry_stack] at hm
      obtain ⟨q, hq, hqv⟩ := h.stack v m (by simp [hs, hm])
      exact ⟨q, hq, fun x hx => hmono x (hqv x hx)⟩
    | inr hm =>
      -- a neighbour not visited yet is on no path to the node
      obtain ⟨hnew, k, hk, rfl⟩ := hm
      rw [popEntry_visited] at hnew
      have hvp : v ∉ p := by
        intro hv
        rw [hvis v hv] at hnew
        cases hnew
      have hj := mem_adj.mp hk
      refine ⟨v :: p, hp.step hj hvp, ?_⟩
      intro x hx
      cases List.mem_cons.mp hx with
      | inl hx => exact (hvisited x).mpr (.inr ⟨k, hx ▸ hj⟩)
      | inr hx => exact hmono x (hvis x hx)
  case conf =>
    intro v hv hv₀ hvs
    by_cases hnew : st.visited v = true
    · rw [hpush.conf, hpush.groupMin]
      cases h.conf v hnew hv₀ hvs with
      | inl hm =>
        obtain ⟨m, hm⟩ := hm
        rw [hs] at hm
        cases List.mem_cons.mp hm with
        | inl hm =>
          rw [Prod.mk.injEq] at hm
          obtain ⟨rfl, rfl⟩ := hm
          obtain ⟨hc, hl⟩ := popEntry_self start { st with stack := rest } v m hvs
          exact .inr ⟨m, p, hc, hp, hl⟩
        | inr hm => exact .inl ⟨m, hpush.old _ (by rw [popEntry_stack]; exact hm)⟩
      | inr hm =>
        obtain ⟨m, q, hc, hq, hl⟩ := hm
        by_cases hvn : v = node
        · subst hvn
          obtain ⟨hc, hl⟩ := popEntry_self start { st with stack := rest } v pathMin hvs
          exact .inr ⟨pathMin, p, hc, hp, hl⟩
        · rw [popEntry_conf_of_ne _ _ _ _ hvn]
          exact .inr ⟨m, q, hc, hq, le_trans (popEntry_groupMin_le ..) hl⟩
    · exact .inl (hpush.new v hv (by simpa using hnew))
  case closed =>
    intro v hv hv₀ hout w k hj
    by_cases hvn : v = node
    · subst hvn
      exact (hvisited w).mpr (.inr ⟨k, hj⟩)
    · by_cases hnew : st.visited v = true
      · refine hmono w (h.closed v hnew hv₀ ?_ w k hj)
        intro m hm
        rw [hs] at hm
        cases List.mem_cons.mp hm with
        | inl hm =>
          rw [Prod.mk.injEq] at hm
          exact hvn hm.1
        | inr hm => exact hout m (hpush.old _ (by rw [popEntry_stack]; exact hm))
      · obtain ⟨m, hm⟩ := hpush.new v hv (by simpa using hnew)
        exact absurd hm (hout m)
  case frame =>
    intro v hv
    have hvn : v ≠ node := fun h => hv (h ▸ hp.linked)
    rw [hpush.conf, popEntry_conf_of_ne _ _ _ _ hvn]
    exact h.frame v hv
  case least =>
    rw [hpush.groupMin]
    cases popEntry_groupMin_cases start { st with stack := rest } node pathMin with
    | inl hmin =>
      rw [hmin]
      exact h.least
    | inr hmin =>
      rw [hmin.2]
      exact .inr ⟨node, p, hmin.1, hp⟩

/-- The walk ends with nothing left to pop. -/
theorem WalkInv.walk {uf : UnionFind n κ} {start : Fin n} {visited₀ : Fin n → Bool}
    {conf₀ : Fin n → Option κ} {st : Walk n κ} (h : WalkInv uf start visited₀ conf₀ st) :
    WalkInv uf start visited₀ conf₀ (walk uf start st) ∧ (walk uf start st).stack = [] := by
  fun_induction LensLM.walk uf start st with
  | case1 st hs => exact ⟨h, hs⟩
  | case2 st node pathMin rest hs ih => exact ih (h.visit hs)

/-- What the walk from an unvisited group leaves: its group visited, with the confidences of
its members but the first. -/
structure Walked (uf : UnionFind n κ) (start : Fin n) (visited₀ : Fin n → Bool)
    (conf₀ : Fin n → Option κ) (st : Walk n κ) : Prop where
  visited : ∀ v, st.visited v = true ↔ visited₀ v = true ∨ Linked uf.edges start v
  conf : ∀ v, Linked uf.edges start v → v ≠ start →
    ∃ m p, st.conf v = some m ∧ WeakestPath uf.edges start p v m ∧ st.groupMin ≤ m
  frame : ∀ v, ¬ Linked uf.edges start v → st.conf v = conf₀ v
  least : st.groupMin = ⊤ ∨ ∃ v p, v ≠ start ∧ WeakestPath uf.edges start p v st.groupMin

theorem walked {uf : UnionFind n κ} {start : Fin n} {visited₀ : Fin n → Bool}
    {conf₀ : Fin n → Option κ} (hfresh : ∀ v, Linked uf.edges start v → visited₀ v = false) :
    Walked uf start visited₀ conf₀ (walk uf start
      { conf := conf₀, visited := Function.update visited₀ start true, stack := [(start, ⊤)],
        groupMin := ⊤ }) := by
  have hinit : WalkInv uf start visited₀ conf₀
      { conf := conf₀, visited := Function.update visited₀ start true, stack := [(start, ⊤)],
        groupMin := ⊤ } := by
    constructor
    case visited =>
      intro v hv
      by_cases hvs : v = start
      · exact .inr (hvs ▸ .refl _ _)
      · exact .inl (by simpa [hvs] using hv)
    case old =>
      intro v hv
      by_cases hvs : v = start
      · simp [hvs]
      · simpa [hvs] using hv
    case started => simp
    case stack =>
      intro v m hm
      simp only [List.mem_singleton, Prod.mk.injEq] at hm
      obtain ⟨rfl, rfl⟩ := hm
      exact ⟨[v], .start, by simp⟩
    case conf =>
      intro v hv hv₀ hvs
      simp [hvs, hv₀] at hv
    case closed =>
      intro v hv hv₀ hout
      by_cases hvs : v = start
      · subst hvs
        simp at hout
      · simp [hvs, hv₀] at hv
    case frame => exact fun _ _ => rfl
    case least => exact .inl rfl
  obtain ⟨h, hstack⟩ := hinit.walk
  have hout : ∀ v m, (v, m) ∉ (walk uf start
      { conf := conf₀, visited := Function.update visited₀ start true, stack := [(start, ⊤)],
        groupMin := ⊤ }).stack := by
    intro v m hm
    rw [hstack] at hm
    cases hm
  generalize walk uf start _ = st at h hout
  -- the visited nodes of the group have visited neighbours
  have hgroup : ∀ v, Linked uf.edges start v → st.visited v = true := by
    have hstep : ∀ v w, Linked uf.edges v w → Linked uf.edges start v →
        (st.visited v = true ↔ st.visited w = true) := by
      intro v w hvw
      induction hvw with
      | rel v w he =>
        obtain ⟨k, hk⟩ := he
        intro hv
        have hw := hv.trans (.of_mem hk)
        constructor
        · exact fun h' => h.closed v h' (hfresh v hv) (hout v) w k (.inl hk)
        · exact fun h' => h.closed w h' (hfresh w hw) (hout w) v k (.inr hk)
      | refl => exact fun _ => Iff.rfl
      | symm v w hvw ih => exact fun hv => (ih (hv.trans (Linked.symm hvw))).symm
      | trans u v w huv _ ih₁ ih₂ => exact fun hu => (ih₁ hu).trans (ih₂ (hu.trans huv))
    exact fun v hv => (hstep start v hv (.refl _ _)).mp h.started
  constructor
  case visited =>
    intro v
    constructor
    · exact h.visited v
    · rintro (hv | hv)
      · exact h.old v hv
      · exact hgroup v hv
  case conf =>
    intro v hv hvs
    exact (h.conf v (hgroup v hv) (hfresh v hv) hvs).resolve_left fun ⟨m, hm⟩ => hout v m hm
  case frame => exact h.frame
  case least => exact h.least

/-- The groups in turn, each from its first node. -/
def walkFrom (uf : UnionFind n κ) (acc : (Fin n → Option κ) × (Fin n → Bool)) (start : Fin n) :
    (Fin n → Option κ) × (Fin n → Bool) :=
  if (adj uf start).isEmpty || acc.2 start then acc
  else
    let st := walk uf start
      { conf := acc.1, visited := Function.update acc.2 start true, stack := [(start, ⊤)],
        groupMin := ⊤ }
    (Function.update st.conf start (some st.groupMin), st.visited)

def nodeConfidences (uf : UnionFind n κ) : Fin n → Option κ :=
  ((List.finRange n).foldl (walkFrom uf) (fun _ => none, fun _ => false)).1

/-- The confidence of a member: the smallest on its path from the first node of the group, or
for the first node the smallest on its paths to the others. -/
def MemberConf (es : List (Fin n × Fin n × κ)) (first v : Fin n) (c : κ) : Prop :=
  if v = first then IsLeast {m | ∃ w p, w ≠ first ∧ WeakestPath es first p w m} c
  else ∃ p, WeakestPath es first p v c

/-- The first node of its group. -/
def IsFirst (es : List (Fin n × Fin n × κ)) (first : Fin n) : Prop :=
  ∀ v, Linked es first v → first ≤ v

theorem Walked.memberConf {uf : UnionFind n κ} {start : Fin n} {visited₀ : Fin n → Bool}
    {conf₀ : Fin n → Option κ} {st : Walk n κ} (h : Walked uf start visited₀ conf₀ st)
    (hf : Forest uf.edges) (hadj : (adj uf start).isEmpty = false) {v : Fin n}
    (hv : Linked uf.edges start v) : ∃ c,
      Function.update st.conf start (some st.groupMin) v = some c ∧
        MemberConf uf.edges start v c := by
  unfold MemberConf
  by_cases hvs : v = start
  · subst hvs
    rw [Function.update_self]
    refine ⟨st.groupMin, rfl, ?_⟩
    rw [if_pos rfl]
    constructor
    · cases h.least with
      | inr h => exact h
      | inl htop =>
        obtain ⟨⟨w, k⟩, hw⟩ := List.exists_mem_of_ne_nil _ (List.isEmpty_eq_false_iff.mp hadj)
        have hj := mem_adj.mp hw
        have hne : w ≠ v := Ne.symm (hf.ne hj)
        obtain ⟨m, p, _, hp, hle⟩ := h.conf w hj.linked hne
        rw [htop] at hle ⊢
        exact ⟨w, p, hne, (top_le_iff.mp hle) ▸ hp⟩
    · rintro m ⟨w, p, hne, hp⟩
      obtain ⟨l, q, _, hq, hle⟩ := h.conf w hp.linked hne
      rw [hp.unique hf hq]
      exact hle
  · obtain ⟨m, p, hm, hp, _⟩ := h.conf v hv hvs
    rw [Function.update_of_ne hvs]
    refine ⟨m, hm, ?_⟩
    rw [if_neg hvs]
    exact ⟨p, hp⟩

/-- The state of the outer loop after the starts `done`. -/
structure Covered (uf : UnionFind n κ) (done : List (Fin n))
    (acc : (Fin n → Option κ) × (Fin n → Bool)) : Prop where
  visited : ∀ v, acc.2 v = true ↔
    ∃ s ∈ done, Linked uf.edges s v ∧ (adj uf s).isEmpty = false
  conf : ∀ v, acc.2 v = true → ∃ first c, IsFirst uf.edges first ∧ Linked uf.edges first v ∧
    acc.1 v = some c ∧ MemberConf uf.edges first v c

theorem Covered.step {uf : UnionFind n κ} {done : List (Fin n)} {start : Fin n}
    {acc : (Fin n → Option κ) × (Fin n → Bool)} (h : Covered uf done acc) (hf : Forest uf.edges)
    (hdone : ∀ s, s < start → s ∈ done) :
    Covered uf (done ++ [start]) (walkFrom uf acc start) := by
  unfold walkFrom
  by_cases hskip : ((adj uf start).isEmpty || acc.2 start) = true
  · rw [if_pos hskip]
    refine ⟨?_, h.conf⟩
    intro v
    rw [h.visited]
    constructor
    · rintro ⟨s, hs, hl⟩
      exact ⟨s, List.mem_append_left _ hs, hl⟩
    · rintro ⟨s, hs, hl, hadj⟩
      cases List.mem_append.mp hs with
      | inl hs => exact ⟨s, hs, hl, hadj⟩
      | inr hs =>
        rw [List.mem_singleton] at hs
        subst hs
        rw [hadj, Bool.false_or, h.visited] at hskip
        obtain ⟨t, ht, hts, hadjt⟩ := hskip
        exact ⟨t, ht, hts.trans hl, hadjt⟩
  · rw [if_neg hskip]
    simp only [Bool.or_eq_true, not_or, Bool.not_eq_true] at hskip
    obtain ⟨hadj, hunvisited⟩ := hskip
    have hfresh : ∀ v, Linked uf.edges start v → acc.2 v = false := by
      intro v hv
      rw [← Bool.not_eq_true, h.visited]
      rintro ⟨s, hs, hsv, hadjs⟩
      have hvisited := (h.visited start).mpr ⟨s, hs, hsv.trans hv.symm, hadjs⟩
      rw [hunvisited] at hvisited
      cases hvisited
    have hw : Walked uf start acc.2 acc.1 _ := walked hfresh
    have hfirst : IsFirst uf.edges start := by
      intro v hv
      by_contra hlt
      rw [not_le] at hlt
      have hvisited := (h.visited start).mpr
        ⟨v, hdone v hlt, hv.symm, adj_ne_nil hv.symm (ne_of_lt hlt)⟩
      rw [hunvisited] at hvisited
      cases hvisited
    constructor
    case visited =>
      intro v
      rw [hw.visited, h.visited]
      simp only [List.mem_append, List.mem_singleton, or_and_right, exists_or, exists_eq_left,
        hadj, and_true]
    case conf =>
      intro v hv
      by_cases hl : Linked uf.edges start v
      · obtain ⟨c, hc, hm⟩ := hw.memberConf hf hadj hl
        exact ⟨start, c, hfirst, hl, hc, hm⟩
      · have hold : acc.2 v = true := ((hw.visited v).mp hv).resolve_right hl
        have hvs : v ≠ start := fun h => hl (h ▸ .refl _ _)
        obtain ⟨first, c, hff, hfv, hc, hm⟩ := h.conf v hold
        have hkeep := (hw.frame v hl).trans hc
        exact ⟨first, c, hff, hfv, (Function.update_of_ne hvs ..).trans hkeep, hm⟩

theorem covered_finRange {uf : UnionFind n κ} (hf : Forest uf.edges) :
    Covered uf (List.finRange n)
      ((List.finRange n).foldl (walkFrom uf) (fun _ => none, fun _ => false)) := by
  have hrun : ∀ (rest done : List (Fin n)) acc, done ++ rest = List.finRange n →
      Covered uf done acc → Covered uf (List.finRange n) (rest.foldl (walkFrom uf) acc) := by
    intro rest
    induction rest with
    | nil =>
      intro done acc hsplit h
      rw [List.append_nil] at hsplit
      exact hsplit ▸ h
    | cons start rest ih =>
      intro done acc hsplit h
      refine ih (done ++ [start]) _ (by simpa using hsplit) (h.step hf ?_)
      intro s hs
      have hsorted := (List.sortedLT_finRange n).pairwise
      have hmem := List.mem_finRange s
      rw [← hsplit] at hsorted hmem
      cases List.mem_append.mp hmem with
      | inl hmem => exact hmem
      | inr hmem =>
        cases List.mem_cons.mp hmem with
        | inl heq => exact absurd hs (heq ▸ lt_irrefl _)
        | inr hmem =>
          have hlt := (List.pairwise_cons.mp (List.pairwise_append.mp hsorted).2.1).1 s hmem
          exact absurd hs (lt_asymm hlt)
  refine hrun _ [] _ rfl ⟨?_, ?_⟩
  · simp
  · intro v hv
    cases hv

/-- Every node that is linked to another has the confidence of its path in the forest. -/
theorem nodeConfidences_memberConf {uf : UnionFind n κ} (hf : Forest uf.edges) {v w : Fin n}
    (h : Linked uf.edges v w) (hne : v ≠ w) : ∃ first c, IsFirst uf.edges first ∧
      Linked uf.edges first v ∧ nodeConfidences uf v = some c ∧
      MemberConf uf.edges first v c := by
  have hcov := covered_finRange hf
  exact hcov.conf v ((hcov.visited v).mpr ⟨v, List.mem_finRange v, .refl _ _, adj_ne_nil h hne⟩)

end Walk

end LensLM
