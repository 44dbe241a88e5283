import Mathlib.Data.List.AList
import Mathlib.Data.Finset.Basic

/-!
# The registries of the runs that can be cancelled

Each registry holds the cancellation token of a key's run. A run registers when it starts and
removes its token when its guard is dropped, whatever other runs have done meanwhile.
-/

namespace LensLM

set_option autoImplicit false

section Registries

inductive CancelRegistry where
  | media
  | ask
  | dialogue
  | tts
deriving DecidableEq, Repr

/-- Tokens are told apart by identity. -/
abbrev Token := Nat

structure CancelTokens where
  entries : CancelRegistry → AList fun _ : String => Token
  cancelled : Finset Token
  next : Token

namespace CancelTokens

def lookup (s : CancelTokens) (registry : CancelRegistry) (key : String) : Option Token :=
  (s.entries registry).lookup key

def cancelToken (s : CancelTokens) (token : Token) : CancelTokens :=
  { s with cancelled := insert token s.cancelled }

/-- A new token replaces the one of the key, if there is one. -/
def insertToken (registry : CancelRegistry) (key : String) (s : CancelTokens) :
    Token × CancelTokens :=
  (s.next, { s with
    entries := Function.update s.entries registry ((s.entries registry).insert key s.next)
    next := s.next + 1 })

/-- The token that is replaced is cancelled. -/
def registerSingleFlight (registry : CancelRegistry) (key : String) (s : CancelTokens) :
    Token × CancelTokens :=
  let inserted := insertToken registry key s
  match s.lookup registry key with
  | some prev => (inserted.1, inserted.2.cancelToken prev)
  | none => inserted

def cancelEntry (registry : CancelRegistry) (key : String) (s : CancelTokens) :
    Bool × CancelTokens :=
  match s.lookup registry key with
  | some token => (true, s.cancelToken token)
  | none => (false, s)

def removeEntry (registry : CancelRegistry) (key : String) (s : CancelTokens) : CancelTokens :=
  { s with entries := Function.update s.entries registry ((s.entries registry).erase key) }

def removeIfOwner (registry : CancelRegistry) (key : String) (owner : Token) (s : CancelTokens) :
    CancelTokens :=
  match s.lookup registry key with
  | some current => if current = owner then removeEntry registry key s else s
  | none => s

def registerMediaCancel : String → CancelTokens → Token × CancelTokens := insertToken .media

def cancelMediaIngest : String → CancelTokens → Bool × CancelTokens := cancelEntry .media

def removeMediaCancel : String → CancelTokens → CancelTokens := removeEntry .media

def registerAsk : String → CancelTokens → Token × CancelTokens := registerSingleFlight .ask

def cancelAskNotebook : String → CancelTokens → Bool × CancelTokens := cancelEntry .ask

def removeAskIfOwner : String → Token → CancelTokens → CancelTokens := removeIfOwner .ask

def registerDialogue : String → CancelTokens → Token × CancelTokens :=
  registerSingleFlight .dialogue

def cancelDialogueGeneration : String → CancelTokens → Bool × CancelTokens := cancelEntry .dialogue

def removeDialogueIfOwner : String → Token → CancelTokens → CancelTokens := removeIfOwner .dialogue

def registerTts : String → CancelTokens → Token × CancelTokens := registerSingleFlight .tts

def cancelSynthesis : String → CancelTokens → Bool × CancelTokens := cancelEntry .tts

def removeTtsIfOwner : String → Token → CancelTokens → CancelTokens := removeIfOwner .tts

def register : CancelRegistry → String → CancelTokens → Token × CancelTokens
  | .media => registerMediaCancel
  | .ask => registerAsk
  | .dialogue => registerDialogue
  | .tts => registerTts

def cancel : CancelRegistry → String → CancelTokens → Bool × CancelTokens
  | .media => cancelMediaIngest
  | .ask => cancelAskNotebook
  | .dialogue => cancelDialogueGeneration
  | .tts => cancelSynthesis

end CancelTokens

/-- The guard of a run; the one of an audio ingest does not know its token. -/
structure CancelGuard where
  run : Nat
  registry : CancelRegistry
  key : String
  owner : Token
deriving DecidableEq, Repr

def CancelGuard.For (registry : CancelRegistry) (key : String) (guard : CancelGuard) : Prop :=
  guard.registry = registry ∧ guard.key = key

instance (registry : CancelRegistry) (key : String) :
    DecidablePred (CancelGuard.For registry key) := fun _ => inferInstanceAs (Decidable (_ ∧ _))

def CancelGuard.drop (guard : CancelGuard) : CancelTokens → CancelTokens :=
  match guard.registry with
  | .media => CancelTokens.removeMediaCancel guard.key
  | .ask => CancelTokens.removeAskIfOwner guard.key guard.owner
  | .dialogue => CancelTokens.removeDialogueIfOwner guard.key guard.owner
  | .tts => CancelTokens.removeTtsIfOwner guard.key guard.owner

/-- The tokens, the run that holds the ingest permit, the guards that are not dropped and all that
there have been, the newest first. -/
structure CancelState where
  tokens : CancelTokens
  permit : Option Nat
  live : List CancelGuard
  registered : List CancelGuard

inductive CancelEvent where
  | acquirePermit (run : Nat)
  | releasePermit (run : Nat)
  | register (run : Nat) (registry : CancelRegistry) (key : String)
  | cancel (registry : CancelRegistry) (key : String)
  | drop (guard : CancelGuard)

namespace CancelState

def empty : CancelState := ⟨⟨fun _ => ∅, ∅, 0⟩, none, [], []⟩

/-- The guard that a run has not dropped. -/
def HasGuard (s : CancelState) (run : Nat) : Prop := ∃ g ∈ s.live, g.run = run

instance (s : CancelState) (run : Nat) : Decidable (s.HasGuard run) :=
  inferInstanceAs (Decidable (∃ g ∈ s.live, g.run = run))

/-- An audio ingest registers while it holds the permit, and drops its guard before it gives the
permit back. -/
def step (s : CancelState) : CancelEvent → Option CancelState
  | .acquirePermit run => if s.permit = none then some { s with permit := some run } else none
  | .releasePermit run =>
    if s.permit = some run ∧ ¬ s.HasGuard run then some { s with permit := none } else none
  | .register run registry key =>
    if ¬ s.HasGuard run ∧ (registry = .media → s.permit = some run) then
      let registered := s.tokens.register registry key
      let guard := ⟨run, registry, key, registered.1⟩
      some { s with
        tokens := registered.2
        live := guard :: s.live
        registered := guard :: s.registered }
    else none
  | .cancel registry key => some { s with tokens := (s.tokens.cancel registry key).2 }
  | .drop guard =>
    if guard ∈ s.live then some { s with tokens := guard.drop s.tokens, live := s.live.erase guard }
    else none

inductive Reachable : CancelState → Prop
  | empty : Reachable empty
  | step {s s' : CancelState} {e : CancelEvent} : Reachable s → s.step e = some s' → Reachable s'

/-- The run of a key that has registered last. -/
def latest (s : CancelState) (registry : CancelRegistry) (key : String) : Option CancelGuard :=
  s.registered.find? (CancelGuard.For registry key)

end CancelState

end Registries

section Effects

variable {s : CancelTokens} {registry registry' : CancelRegistry} {key key' : String}

namespace CancelTokens

theorem lookup_insertToken : (insertToken registry key s).2.lookup registry' key' =
    if registry' = registry ∧ key' = key then some s.next else s.lookup registry' key' := by
  unfold lookup insertToken
  dsimp only
  by_cases hr : registry' = registry
  · subst hr
    rw [Function.update_self]
    by_cases hk : key' = key
    · subst hk
      rw [AList.lookup_insert, if_pos ⟨rfl, rfl⟩]
    · rw [AList.lookup_insert_ne hk, if_neg fun h => hk h.2]
  · rw [Function.update_of_ne hr, if_neg fun h => hr h.1]

theorem lookup_removeEntry : (removeEntry registry key s).lookup registry' key' =
    if registry' = registry ∧ key' = key then none else s.lookup registry' key' := by
  unfold lookup removeEntry
  dsimp only
  by_cases hr : registry' = registry
  · subst hr
    rw [Function.update_self]
    by_cases hk : key' = key
    · subst hk
      rw [AList.lookup_erase, if_pos ⟨rfl, rfl⟩]
    · rw [AList.lookup_erase_ne hk, if_neg fun h => hk h.2]
  · rw [Function.update_of_ne hr, if_neg fun h => hr h.1]

theorem lookup_removeIfOwner {owner : Token} :
    (removeIfOwner registry key owner s).lookup registry' key' =
      if (registry' = registry ∧ key' = key) ∧ s.lookup registry' key' = some owner then none
      else s.lookup registry' key' := by
  unfold removeIfOwner
  by_cases h : s.lookup registry key = some owner
  · simp only [h, if_true, lookup_removeEntry]
    by_cases hk : registry' = registry ∧ key' = key
    · rw [if_pos hk, if_pos ⟨hk, by rw [hk.1, hk.2, h]⟩]
    · rw [if_neg hk, if_neg fun h => hk h.1]
  · have hsame : (match s.lookup registry key with
        | some current => if current = owner then removeEntry registry key s else s
        | none => s) = s := by
      cases hl : s.lookup registry key with
      | none => rfl
      | some current => exact if_neg fun hc => h (hl.trans (congrArg some hc))
    rw [hsame, if_neg]
    rintro ⟨⟨rfl, rfl⟩, ho⟩
    exact h ho

/-- All registries but that of the audio ingests register in the same way. -/
theorem register_eq : (s.register registry key) =
    if registry = .media then insertToken registry key s
    else registerSingleFlight registry key s := by
  cases registry <;> rfl

theorem register_fst : (s.register registry key).1 = s.next := by
  rw [register_eq]
  split
  · rfl
  · unfold registerSingleFlight
    cases s.lookup registry key <;> rfl

theorem next_register : (s.register registry key).2.next = s.next + 1 := by
  rw [register_eq]
  split
  · rfl
  · unfold registerSingleFlight
    cases s.lookup registry key <;> rfl

theorem lookup_register : (s.register registry key).2.lookup registry' key' =
    if registry' = registry ∧ key' = key then some s.next else s.lookup registry' key' := by
  rw [register_eq]
  split
  · exact lookup_insertToken
  · unfold registerSingleFlight
    cases s.lookup registry key <;> exact lookup_insertToken

theorem mem_cancelled_register {t : Token} : t ∈ (s.register registry key).2.cancelled ↔
    t ∈ s.cancelled ∨ registry ≠ .media ∧ s.lookup registry key = some t := by
  rw [register_eq]
  split
  · rename_i hm
    simp [hm, insertToken]
  · rename_i hm
    unfold registerSingleFlight
    cases hl : s.lookup registry key with
    | none => simp [insertToken]
    | some prev =>
      simp only [cancelToken, insertToken, Finset.mem_insert, ne_eq, hm, not_false_eq_true,
        true_and, Option.some.injEq]
      rw [or_comm, eq_comm]

theorem cancel_eq : s.cancel registry key = cancelEntry registry key s := by
  cases registry <;> rfl

theorem cancel_fst : (s.cancel registry key).1 = (s.lookup registry key).isSome := by
  rw [cancel_eq, cancelEntry]
  cases s.lookup registry key <;> rfl

theorem lookup_cancel :
    (s.cancel registry key).2.lookup registry' key' = s.lookup registry' key' := by
  rw [cancel_eq, cancelEntry]
  cases s.lookup registry key <;> rfl

theorem next_cancel : (s.cancel registry key).2.next = s.next := by
  rw [cancel_eq, cancelEntry]
  cases s.lookup registry key <;> rfl

theorem cancelled_cancel {t : Token} (h : s.lookup registry key = some t) :
    (s.cancel registry key).2.cancelled = insert t s.cancelled := by
  rw [cancel_eq, cancelEntry, h]
  rfl

theorem subset_cancel : s.cancelled ⊆ (s.cancel registry key).2.cancelled := by
  rw [cancel_eq, cancelEntry]
  cases s.lookup registry key with
  | none => exact subset_rfl
  | some t => exact Finset.subset_insert _ _

end CancelTokens

/-- What the drop of a guard removes, if the registry of the audio ingests has its token at all. -/
theorem lookup_drop {g : CancelGuard}
    (hm : g.registry = .media → s.lookup g.registry g.key = some g.owner) :
    (g.drop s).lookup registry key =
      if g.For registry key ∧ s.lookup registry key = some g.owner then none
      else s.lookup registry key := by
  obtain ⟨run, r, k, owner⟩ := g
  have hfor : CancelGuard.For registry key ⟨run, r, k, owner⟩ ↔ registry = r ∧ key = k := by
    unfold CancelGuard.For
    exact and_congr eq_comm eq_comm
  simp only [hfor]
  cases r with
  | media =>
    refine CancelTokens.lookup_removeEntry.trans ?_
    by_cases h : registry = .media ∧ key = k
    · rw [if_pos h, if_pos ⟨h, by rw [h.1, h.2]; exact hm rfl⟩]
    · rw [if_neg h, if_neg fun h' => h h'.1]
  | ask => exact CancelTokens.lookup_removeIfOwner
  | dialogue => exact CancelTokens.lookup_removeIfOwner
  | tts => exact CancelTokens.lookup_removeIfOwner

theorem next_drop {g : CancelGuard} : (g.drop s).next = s.next := by
  have hif : ∀ r k o, (CancelTokens.removeIfOwner r k o s).next = s.next := by
    intro r k o
    unfold CancelTokens.removeIfOwner
    split
    · split <;> rfl
    · rfl
  obtain ⟨run, r, k, owner⟩ := g
  cases r with
  | media => rfl
  | ask => exact hif ..
  | dialogue => exact hif ..
  | tts => exact hif ..

theorem cancelled_drop {g : CancelGuard} : (g.drop s).cancelled = s.cancelled := by
  have hif : ∀ r k o, (CancelTokens.removeIfOwner r k o s).cancelled = s.cancelled := by
    intro r k o
    unfold CancelTokens.removeIfOwner
    split
    · split <;> rfl
    · rfl
  obtain ⟨run, r, k, owner⟩ := g
  cases r with
  | media => rfl
  | ask => exact hif ..
  | dialogue => exact hif ..
  | tts => exact hif ..

end Effects

namespace CancelState

section Invariant

variable {s s' : CancelState} {registry : CancelRegistry} {key : String}

/-- A registry holds the token of the run that has registered last for a key, while it is live. A
live run that has been superseded is cancelled, and an audio ingest is not superseded. -/
structure Inv (s : CancelState) : Prop where
  fresh : ∀ g ∈ s.registered, g.owner < s.tokens.next
  sub : s.live.Sublist s.registered
  owners : (s.registered.map CancelGuard.owner).Nodup
  runs : (s.live.map CancelGuard.run).Nodup
  entry : ∀ registry key t, s.tokens.lookup registry key = some t ↔
    ∃ g ∈ s.live, g.owner = t ∧ s.latest registry key = some g
  superseded : ∀ g ∈ s.live, s.latest g.registry g.key ≠ some g →
    g.registry ≠ .media ∧ g.owner ∈ s.tokens.cancelled
  permit : ∀ g ∈ s.live, g.registry = .media → s.permit = some g.run

theorem latest_for {g : CancelGuard} (h : s.latest registry key = some g) : g.For registry key := by
  simpa using List.find?_some h

theorem Inv.owner_eq (h : s.Inv) {g g' : CancelGuard} (hg : g ∈ s.live) (hg' : g' ∈ s.live)
    (ho : g.owner = g'.owner) : g = g' :=
  List.inj_on_of_nodup_map h.owners (h.sub.subset hg) (h.sub.subset hg') ho

theorem Inv.run_eq (h : s.Inv) {g g' : CancelGuard} (hg : g ∈ s.live) (hg' : g' ∈ s.live)
    (hr : g.run = g'.run) : g = g' :=
  List.inj_on_of_nodup_map h.runs hg hg' hr

/-- The permit admits one audio ingest at a time. -/
theorem Inv.media_unique (h : s.Inv) {g g' : CancelGuard} (hg : g ∈ s.live) (hg' : g' ∈ s.live)
    (hm : g.registry = .media) (hm' : g'.registry = .media) : g = g' := by
  have hp := h.permit g hg hm
  rw [h.permit g' hg' hm'] at hp
  exact h.run_eq hg hg' (Option.some.inj hp).symm

theorem Inv.lookup_media (h : s.Inv) {g : CancelGuard} (hg : g ∈ s.live)
    (hm : g.registry = .media) : s.tokens.lookup g.registry g.key = some g.owner := by
  apply (h.entry _ _ _).mpr
  refine ⟨g, hg, rfl, ?_⟩
  by_contra hne
  exact (h.superseded g hg hne).1 hm

theorem inv_empty : empty.Inv := by
  refine ⟨nofun, List.Sublist.refl _, List.nodup_nil, List.nodup_nil, ?_, nofun, nofun⟩
  intro registry key t
  simp [empty, CancelTokens.lookup]

theorem Inv.acquire (h : s.Inv) {run : Nat} (hfree : s.permit = none) :
    Inv { s with permit := some run } := by
  refine ⟨h.fresh, h.sub, h.owners, h.runs, h.entry, h.superseded, ?_⟩
  intro g hg hm
  have hp := h.permit g hg hm
  rw [hfree] at hp
  cases hp

theorem Inv.release (h : s.Inv) {run : Nat} (hp : s.permit = some run) (hno : ¬ s.HasGuard run) :
    Inv { s with permit := none } := by
  refine ⟨h.fresh, h.sub, h.owners, h.runs, h.entry, h.superseded, ?_⟩
  intro g hg hm
  have hp' := h.permit g hg hm
  rw [hp] at hp'
  exact absurd ⟨g, hg, (Option.some.inj hp').symm⟩ hno

theorem Inv.cancel (h : s.Inv) : Inv { s with tokens := (s.tokens.cancel registry key).2 } := by
  refine ⟨?_, h.sub, h.owners, h.runs, ?_, ?_, h.permit⟩
  · intro g hg
    rw [CancelTokens.next_cancel]
    exact h.fresh g hg
  · intro r k t
    rw [CancelTokens.lookup_cancel]
    exact h.entry r k t
  · intro g hg hne
    obtain ⟨hm, hc⟩ := h.superseded g hg hne
    exact ⟨hm, CancelTokens.subset_cancel hc⟩

/-- A new run supersedes the one whose token it finds. -/
theorem Inv.register (h : s.Inv) {run : Nat} (hno : ¬ s.HasGuard run)
    (hpermit : registry = .media → s.permit = some run) :
    Inv { s with
      tokens := (s.tokens.register registry key).2
      live := ⟨run, registry, key, (s.tokens.register registry key).1⟩ :: s.live
      registered := ⟨run, registry, key, (s.tokens.register registry key).1⟩ :: s.registered } := by
  rw [CancelTokens.register_fst]
  generalize hguard : (⟨run, registry, key, s.tokens.next⟩ : CancelGuard) = guard
  have howner : guard.owner = s.tokens.next := by rw [← hguard]
  have hlatest : ∀ r k, List.find? (CancelGuard.For r k) (guard :: s.registered) =
      if r = registry ∧ k = key then some guard else s.latest r k := by
    intro r k
    by_cases hk : r = registry ∧ k = key
    · rw [if_pos hk]
      apply List.find?_cons_of_pos
      rw [← hguard]
      exact decide_eq_true ⟨hk.1.symm, hk.2.symm⟩
    · rw [if_neg hk]
      apply List.find?_cons_of_neg
      rw [← hguard]
      simpa using fun h : CancelGuard.For r k ⟨run, registry, key, s.tokens.next⟩ =>
        hk ⟨h.1.symm, h.2.symm⟩
  have hold : ∀ r k, s.latest r k ≠ some guard := by
    intro r k hl
    have hlt := h.fresh guard (List.mem_of_find?_eq_some hl)
    rw [howner] at hlt
    exact Nat.lt_irrefl _ hlt
  refine ⟨?_, ?_, ?_, ?_, ?_, ?_, ?_⟩
  · intro g hg
    rw [CancelTokens.next_register]
    rcases List.mem_cons.mp hg with rfl | hg
    · rw [howner]
      exact Nat.lt_succ_self _
    · exact Nat.lt_succ_of_lt (h.fresh g hg)
  · exact h.sub.cons_cons guard
  · rw [List.map_cons, List.nodup_cons]
    refine ⟨fun hmem => ?_, h.owners⟩
    obtain ⟨g, hg, ho⟩ := List.mem_map.mp hmem
    have hlt := h.fresh g hg
    rw [ho, howner] at hlt
    exact Nat.lt_irrefl _ hlt
  · rw [List.map_cons, List.nodup_cons]
    refine ⟨fun hmem => ?_, h.runs⟩
    obtain ⟨g, hg, hr⟩ := List.mem_map.mp hmem
    rw [← hguard] at hr
    exact hno ⟨g, hg, hr⟩
  · intro r k t
    show (s.tokens.register registry key).2.lookup r k = some t ↔ ∃ g ∈ guard :: s.live,
      g.owner = t ∧ List.find? (CancelGuard.For r k) (guard :: s.registered) = some g
    rw [CancelTokens.lookup_register, hlatest]
    by_cases hk : r = registry ∧ k = key
    · rw [if_pos hk, if_pos hk, ← howner]
      simp
    · rw [if_neg hk, if_neg hk, h.entry]
      simp only [List.mem_cons, exists_eq_or_imp, hold r k, and_false, false_or]
  · intro g hg hne
    have hne : List.find? (CancelGuard.For g.registry g.key) (guard :: s.registered) ≠ some g := hne
    rw [hlatest] at hne
    rcases List.mem_cons.mp hg with rfl | hg
    · rw [← hguard, if_pos ⟨rfl, rfl⟩] at hne
      exact absurd rfl hne
    · have hcancelled : s.latest g.registry g.key ≠ some g → g.registry ≠ .media ∧
          g.owner ∈ (s.tokens.register registry key).2.cancelled := by
        intro hne
        obtain ⟨hm, hc⟩ := h.superseded g hg hne
        exact ⟨hm, CancelTokens.mem_cancelled_register.mpr (.inl hc)⟩
      by_cases hk : g.registry = registry ∧ g.key = key
      · by_cases hl : s.latest g.registry g.key = some g
        · have hm : registry ≠ .media := by
            intro hm
            have hp := h.permit g hg (hk.1.trans hm)
            rw [hpermit hm] at hp
            exact hno ⟨g, hg, (Option.some.inj hp).symm⟩
          have hlookup := (h.entry _ _ _).mpr ⟨g, hg, rfl, hl⟩
          rw [hk.1, hk.2] at hlookup
          refine ⟨hk.1 ▸ hm, ?_⟩
          exact CancelTokens.mem_cancelled_register.mpr (.inr ⟨hm, hlookup⟩)
        · exact hcancelled hl
      · rw [if_neg hk] at hne
        exact hcancelled hne
  · intro g hg hm
    rcases List.mem_cons.mp hg with rfl | hg
    · rw [← hguard] at hm ⊢
      exact hpermit hm
    · exact h.permit g hg hm

theorem Inv.lookup_drop (h : s.Inv) {guard : CancelGuard} (hguard : guard ∈ s.live) :
    (guard.drop s.tokens).lookup registry key =
      if guard.For registry key ∧ s.tokens.lookup registry key = some guard.owner then none
      else s.tokens.lookup registry key :=
  LensLM.lookup_drop (h.lookup_media hguard)

theorem Inv.drop (h : s.Inv) {guard : CancelGuard} (hguard : guard ∈ s.live) :
    Inv { s with tokens := guard.drop s.tokens, live := s.live.erase guard } := by
  have hmem : ∀ g, g ∈ s.live.erase guard ↔ g ≠ guard ∧ g ∈ s.live :=
    fun g => (List.Nodup.of_map _ h.runs).mem_erase_iff
  refine ⟨?_, List.erase_sublist.trans h.sub, h.owners, ?_, ?_, ?_, ?_⟩
  · intro g hg
    rw [next_drop]
    exact h.fresh g hg
  · exact h.runs.sublist (List.erase_sublist.map _)
  · intro r k t
    show (guard.drop s.tokens).lookup r k = some t ↔
      ∃ g ∈ s.live.erase guard, g.owner = t ∧ s.latest r k = some g
    rw [h.lookup_drop hguard]
    constructor
    · intro hl
      split at hl
      · cases hl
      · rename_i hkept
        obtain ⟨g, hg, ho, hlatest⟩ := (h.entry r k t).mp hl
        refine ⟨g, (hmem g).mpr ⟨?_, hg⟩, ho, hlatest⟩
        rintro rfl
        exact hkept ⟨latest_for hlatest, hl.trans (congrArg some ho.symm)⟩
    · rintro ⟨g, hg, ho, hlatest⟩
      obtain ⟨hne, hg⟩ := (hmem g).mp hg
      have hl := (h.entry r k t).mpr ⟨g, hg, ho, hlatest⟩
      rw [if_neg, hl]
      rintro ⟨_, hown⟩
      rw [hl, ← ho] at hown
      exact hne (h.owner_eq hg hguard (Option.some.inj hown))
  · intro g hg hne
    rw [cancelled_drop]
    exact h.superseded g ((hmem g).mp hg).2 hne
  · intro g hg hm
    exact h.permit g ((hmem g).mp hg).2 hm

theorem Inv.step (h : s.Inv) {e : CancelEvent} (hs : s.step e = some s') : s'.Inv := by
  cases e with
  | acquirePermit run =>
    simp only [CancelState.step, Option.ite_none_right_eq_some] at hs
    obtain ⟨hfree, hs⟩ := hs
    cases hs
    exact h.acquire hfree
  | releasePermit run =>
    simp only [CancelState.step, Option.ite_none_right_eq_some] at hs
    obtain ⟨⟨hp, hno⟩, hs⟩ := hs
    cases hs
    exact h.release hp hno
  | register run registry key =>
    simp only [CancelState.step, Option.ite_none_right_eq_some] at hs
    obtain ⟨⟨hno, hpermit⟩, hs⟩ := hs
    cases hs
    exact h.register hno hpermit
  | cancel registry key =>
    cases hs
    exact h.cancel
  | drop guard =>
    simp only [CancelState.step, Option.ite_none_right_eq_some] at hs
    obtain ⟨hguard, hs⟩ := hs
    cases hs
    exact h.drop hguard

theorem inv_of_reachable (h : Reachable s) : s.Inv := by
  induction h with
  | empty => exact inv_empty
  | step _ hs ih => exact ih.step hs

end Invariant

section Sound

variable {s : CancelState}

/-- The cancellation of a key finds the run that has registered last, if it is live. -/
theorem Inv.cancel_iff (h : s.Inv) (registry : CancelRegistry) (key : String) :
    (s.tokens.cancel registry key).1 = true ↔
      ∃ g ∈ s.live, s.latest registry key = some g := by
  rw [CancelTokens.cancel_fst, Option.isSome_iff_exists]
  constructor
  · rintro ⟨t, ht⟩
    obtain ⟨g, hg, _, hl⟩ := (h.entry registry key t).mp ht
    exact ⟨g, hg, hl⟩
  · rintro ⟨g, hg, hl⟩
    exact ⟨g.owner, (h.entry registry key _).mpr ⟨g, hg, rfl, hl⟩⟩

/-- The first element that a list of distinct ones has is the first of every part that has it. -/
theorem find?_of_sublist {α : Type} {p : α → Bool} {part l : List α} {a : α}
    (hsub : part.Sublist l) (hl : l.Nodup) (hfind : l.find? p = some a) (ha : a ∈ part) :
    part.find? p = some a := by
  induction hsub with
  | slnil => exact hfind
  | cons x hsub ih =>
    obtain ⟨hx, hl⟩ := List.nodup_cons.mp hl
    have hne : x ≠ a := fun h => hx (h ▸ hsub.subset ha)
    cases hp : p x with
    | true =>
      rw [List.find?_cons_of_pos hp] at hfind
      exact absurd (Option.some.inj hfind) hne
    | false =>
      rw [List.find?_cons_of_neg (by simp [hp])] at hfind
      exact ih hl hfind ha
  | cons_cons x hsub ih =>
    obtain ⟨_, hl⟩ := List.nodup_cons.mp hl
    cases hp : p x with
    | true =>
      rw [List.find?_cons_of_pos hp] at hfind ⊢
      exact hfind
    | false =>
      rw [List.find?_cons_of_neg (by simp [hp])] at hfind ⊢
      have hne : a ≠ x := by
        rintro rfl
        have hpa := List.find?_some hfind
        rw [hp] at hpa
        cases hpa
      exact ih hl hfind ((List.mem_cons.mp ha).resolve_left hne)

/-- The run that has registered last is the last of those that are live. -/
theorem Inv.find_live (h : s.Inv) {registry : CancelRegistry} {key : String} {g : CancelGuard}
    (hg : g ∈ s.live) (hl : s.latest registry key = some g) :
    s.live.find? (CancelGuard.For registry key) = some g :=
  find?_of_sublist h.sub (List.Nodup.of_map _ h.owners) hl hg

/-- A cancellation that finds a run cancels the last of the live ones. -/
theorem Inv.cancel_latest (h : s.Inv) {registry : CancelRegistry} {key : String}
    (hfound : (s.tokens.cancel registry key).1 = true) :
    ∃ g, s.live.find? (CancelGuard.For registry key) = some g ∧
      (s.tokens.cancel registry key).2.cancelled = insert g.owner s.tokens.cancelled := by
  obtain ⟨g, hg, hl⟩ := (h.cancel_iff registry key).mp hfound
  refine ⟨g, h.find_live hg hl, CancelTokens.cancelled_cancel ?_⟩
  exact (h.entry registry key _).mpr ⟨g, hg, rfl, hl⟩

/-- Where a cancellation finds no run, the live ones are cancelled already. -/
theorem Inv.cancelled_of_not_found (h : s.Inv) {registry : CancelRegistry} {key : String}
    (hfound : (s.tokens.cancel registry key).1 = false) {g : CancelGuard} (hg : g ∈ s.live)
    (hfor : g.For registry key) : g.registry ≠ .media ∧ g.owner ∈ s.tokens.cancelled := by
  apply h.superseded g hg
  rw [hfor.1, hfor.2]
  intro hl
  rw [(h.cancel_iff registry key).mpr ⟨g, hg, hl⟩] at hfound
  cases hfound

/-- The drop of a guard leaves the tokens of the other live runs. -/
theorem Inv.drop_keeps (h : s.Inv) {g other : CancelGuard} (hg : g ∈ s.live)
    (hother : other ∈ s.live) (hne : other ≠ g)
    (hl : s.tokens.lookup other.registry other.key = some other.owner) :
    (g.drop s.tokens).lookup other.registry other.key = some other.owner := by
  rw [h.lookup_drop hg, if_neg, hl]
  rintro ⟨_, ho⟩
  rw [hl] at ho
  exact hne (h.owner_eq hother hg (Option.some.inj ho))

/-- A registry that supersedes leaves one run of a key uncancelled. -/
theorem Inv.uncancelled_unique (h : s.Inv) {registry : CancelRegistry} {key : String}
    {g g' : CancelGuard} (hg : g ∈ s.live) (hg' : g' ∈ s.live) (hfor : g.For registry key)
    (hfor' : g'.For registry key) (hc : g.owner ∉ s.tokens.cancelled)
    (hc' : g'.owner ∉ s.tokens.cancelled) : g = g' := by
  have hlatest : ∀ x ∈ s.live, x.For registry key → x.owner ∉ s.tokens.cancelled →
      s.latest registry key = some x := by
    intro x hx hfor hc
    by_contra hne
    rw [← hfor.1, ← hfor.2] at hne
    exact hc (h.superseded x hx hne).2
  have hl := hlatest g hg hfor hc
  rw [hlatest g' hg' hfor' hc'] at hl
  exact (Option.some.inj hl).symm

/-- What holds in every interleaving of registrations, cancellations and drops. -/
theorem cancelRegistries_sound (h : Reachable s) (registry : CancelRegistry) (key : String) :
    ((s.tokens.cancel registry key).1 = true ↔ ∃ g ∈ s.live, s.latest registry key = some g) ∧
    (registry = .media →
      ((s.tokens.cancel registry key).1 = true ↔ ∃ g ∈ s.live, g.For registry key)) ∧
    ((s.tokens.cancel registry key).1 = true →
      ∃ g, s.live.find? (CancelGuard.For registry key) = some g ∧
        (s.tokens.cancel registry key).2.cancelled = insert g.owner s.tokens.cancelled) ∧
    ((s.tokens.cancel registry key).1 = false →
      ∀ g ∈ s.live, g.For registry key → g.owner ∈ s.tokens.cancelled) ∧
    (∀ g ∈ s.live, ∀ other ∈ s.live, other ≠ g →
      s.tokens.lookup other.registry other.key = some other.owner →
        (g.drop s.tokens).lookup other.registry other.key = some other.owner) ∧
    (registry ≠ .media → ∀ g ∈ s.live, ∀ g' ∈ s.live, g.For registry key → g'.For registry key →
      g.owner ∉ s.tokens.cancelled → g'.owner ∉ s.tokens.cancelled → g = g') := by
  have hinv := inv_of_reachable h
  refine ⟨hinv.cancel_iff registry key, ?_, hinv.cancel_latest, ?_, ?_, ?_⟩
  · intro hm
    constructor
    · intro hfound
      obtain ⟨g, hg, hl⟩ := (hinv.cancel_iff registry key).mp hfound
      exact ⟨g, hg, latest_for hl⟩
    · rintro ⟨g, hg, hfor⟩
      by_contra hfound
      have hcancelled := hinv.cancelled_of_not_found (by simpa using hfound) hg hfor
      exact hcancelled.1 (hfor.1.trans hm)
  · exact fun hfound g hg hfor => (hinv.cancelled_of_not_found hfound hg hfor).2
  · exact fun g hg other hother hne hl => hinv.drop_keeps hg hother hne hl
  · exact fun _ g hg g' hg' hfor hfor' hc hc' =>
      hinv.uncancelled_unique hg hg' hfor hfor' hc hc'

end Sound

section Examples

def after (s : CancelState) : List CancelEvent → Option CancelState
  | [] => some s
  | e :: events => (s.step e).bind fun s => s.after events

theorem reachable_after {s s' : CancelState} {events : List CancelEvent} (h : Reachable s)
    (hs : s.after events = some s') : Reachable s' := by
  induction events generalizing s with
  | nil =>
    cases hs
    exact h
  | cons e events ih =>
    obtain ⟨mid, hmid, hs⟩ := Option.bind_eq_some_iff.mp hs
    exact ih (h.step hmid) hs

/-- A run is cancelled by the one that supersedes it, and a cancellation does not find it once that
one has dropped its guard. -/
theorem superseded_run_not_found : ∃ s, Reachable s ∧
    (∃ g ∈ s.live, g.For .ask "n") ∧ (s.tokens.cancel .ask "n").1 = false := by
  have hs : ∃ s, empty.after [.register 0 .ask "n", .register 1 .ask "n",
      .drop ⟨1, .ask, "n", 1⟩] = some s ∧ (∃ g ∈ s.live, g.For .ask "n") ∧
        (s.tokens.cancel .ask "n").1 = false := ⟨_, rfl, by decide, by decide⟩
  obtain ⟨s, hs, hlost⟩ := hs
  exact ⟨s, reachable_after .empty hs, hlost⟩

/-- A cancellation finds the second of two runs, and leaves the first one cancelled. -/
theorem cancelRegistries_sound_two : ∃ s, Reachable s ∧
    s.live.map CancelGuard.owner = [1, 0] ∧ (s.tokens.cancel .ask "n").1 = true ∧
      ∃ g, s.live.find? (CancelGuard.For .ask "n") = some g ∧
        (s.tokens.cancel .ask "n").2.cancelled = insert g.owner s.tokens.cancelled := by
  have hs : ∃ s, empty.after [.register 0 .ask "n", .register 1 .ask "n"] = some s ∧
      s.live.map CancelGuard.owner = [1, 0] ∧ (s.tokens.cancel .ask "n").1 = true :=
    ⟨_, rfl, by decide, by decide⟩
  obtain ⟨s, hs, howners, hfound⟩ := hs
  have hreach := reachable_after .empty hs
  exact ⟨s, hreach, howners, hfound, (cancelRegistries_sound hreach .ask "n").2.2.1 hfound⟩

end Examples

end CancelState

end LensLM
