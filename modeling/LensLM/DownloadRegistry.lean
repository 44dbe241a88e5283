import LensLM.CancelRegistries

/-!
# The registry of the downloads

Callers that download the same thing share one token, which the registry holds with their number.
-/

namespace LensLM

set_option autoImplicit false

section Downloads

inductive DownloadKind where
  | tts
  | whisper
deriving DecidableEq, Repr

structure DownloadKey where
  kind : DownloadKind
  id : String
deriving DecidableEq, Repr

structure DownloadTokens where
  entries : AList fun _ : DownloadKey => Token × Nat
  cancelled : Finset Token
  next : Token

namespace DownloadTokens

/-- Joins the download that is registered, or registers a new one. -/
def registerDownload (key : DownloadKey) (s : DownloadTokens) : Token × DownloadTokens :=
  match s.entries.lookup key with
  | some (token, holders) =>
    (token, { s with entries := s.entries.insert key (token, holders + 1) })
  | none => (s.next, { s with entries := s.entries.insert key (s.next, 1), next := s.next + 1 })

def cancelDownload (key : DownloadKey) (s : DownloadTokens) : Bool × DownloadTokens :=
  match s.entries.lookup key with
  | some (token, _) => (true, { s with cancelled := insert token s.cancelled })
  | none => (false, s)

def removeDownloadIfOwner (key : DownloadKey) (owner : Token) (s : DownloadTokens) :
    DownloadTokens :=
  match s.entries.lookup key with
  | some (token, holders) =>
    if token = owner then
      if holders - 1 = 0 then { s with entries := s.entries.erase key }
      else { s with entries := s.entries.insert key (token, holders - 1) }
    else s
  | none => s

end DownloadTokens

structure DownloadGuard where
  key : DownloadKey
  owner : Token
deriving DecidableEq, Repr

def DownloadGuard.drop (guard : DownloadGuard) : DownloadTokens → DownloadTokens :=
  DownloadTokens.removeDownloadIfOwner guard.key guard.owner

/-- The tokens, and the guards that are not dropped. -/
structure DownloadState where
  tokens : DownloadTokens
  live : List DownloadGuard

inductive DownloadEvent where
  | register (key : DownloadKey)
  | cancel (key : DownloadKey)
  | drop (guard : DownloadGuard)

namespace DownloadState

def empty : DownloadState := ⟨⟨∅, ∅, 0⟩, []⟩

def step (s : DownloadState) : DownloadEvent → Option DownloadState
  | .register key =>
    let registered := s.tokens.registerDownload key
    some { tokens := registered.2, live := ⟨key, registered.1⟩ :: s.live }
  | .cancel key => some { s with tokens := (s.tokens.cancelDownload key).2 }
  | .drop guard =>
    if guard ∈ s.live then some { tokens := guard.drop s.tokens, live := s.live.erase guard }
    else none

inductive Reachable : DownloadState → Prop
  | empty : Reachable empty
  | step {s s' : DownloadState} {e : DownloadEvent} :
      Reachable s → s.step e = some s' → Reachable s'

end DownloadState

end Downloads

namespace DownloadState

section Invariant

variable {s s' : DownloadState}

/-- The entry of a key counts the guards of the key, which all hold its token. -/
structure Inv (s : DownloadState) : Prop where
  counted : ∀ key token holders, s.tokens.entries.lookup key = some (token, holders) →
    holders = s.live.count ⟨key, token⟩ ∧ 0 < holders
  held : ∀ g ∈ s.live, ∃ holders, s.tokens.entries.lookup g.key = some (g.owner, holders)
  fresh : ∀ g ∈ s.live, g.owner < s.tokens.next
  old : ∀ t ∈ s.tokens.cancelled, t < s.tokens.next
  apart : ∀ g ∈ s.live, ∀ g' ∈ s.live, g.owner = g'.owner → g.key = g'.key

theorem inv_empty : empty.Inv := ⟨by simp [empty], nofun, nofun, by simp [empty], nofun⟩

/-- A key without an entry has no guards. -/
theorem Inv.no_guards (h : s.Inv) {key : DownloadKey} (hl : s.tokens.entries.lookup key = none)
    {g : DownloadGuard} (hg : g ∈ s.live) : g.key ≠ key := by
  rintro rfl
  obtain ⟨holders, hh⟩ := h.held g hg
  rw [hl] at hh
  cases hh

/-- A new holder of the token of a key. -/
theorem Inv.push (h : s.Inv) {key : DownloadKey} {token next : Token} {holders : Nat}
    (hholders : holders = s.live.count ⟨key, token⟩)
    (hkey : ∀ g ∈ s.live, g.key = key ↔ g.owner = token) (hnext : s.tokens.next ≤ next)
    (htoken : token < next) :
    Inv ⟨{ s.tokens with entries := s.tokens.entries.insert key (token, holders + 1), next },
      ⟨key, token⟩ :: s.live⟩ := by
  refine ⟨?_, ?_, ?_, fun t ht => (h.old t ht).trans_le hnext, ?_⟩
  · intro k t n hl
    by_cases hk : k = key
    · subst hk
      rw [AList.lookup_insert] at hl
      cases hl
      rw [List.count_cons_self]
      omega
    · have hl : (s.tokens.entries.insert key (token, holders + 1)).lookup k = some (t, n) := hl
      rw [AList.lookup_insert_ne hk] at hl
      have hne : (⟨key, token⟩ : DownloadGuard) ≠ ⟨k, t⟩ := by
        intro he
        cases he
        exact hk rfl
      rw [List.count_cons_of_ne hne]
      exact h.counted k t n hl
  · intro g hg
    show ∃ n, (s.tokens.entries.insert key (token, holders + 1)).lookup g.key = some (g.owner, n)
    rcases List.mem_cons.mp hg with rfl | hg
    · exact ⟨holders + 1, AList.lookup_insert _⟩
    · by_cases hk : g.key = key
      · rw [hk, AList.lookup_insert, (hkey g hg).mp hk]
        exact ⟨holders + 1, rfl⟩
      · rw [AList.lookup_insert_ne hk]
        exact h.held g hg
  · intro g hg
    rcases List.mem_cons.mp hg with rfl | hg
    · exact htoken
    · exact (h.fresh g hg).trans_le hnext
  · intro g hg g' hg' ho
    rcases List.mem_cons.mp hg with rfl | hg
    · rcases List.mem_cons.mp hg' with rfl | hg'
      · rfl
      · exact ((hkey g' hg').mpr ho.symm).symm
    · rcases List.mem_cons.mp hg' with rfl | hg'
      · exact (hkey g hg).mpr ho
      · exact h.apart g hg g' hg' ho

theorem Inv.register (h : s.Inv) (key : DownloadKey) :
    Inv ⟨(s.tokens.registerDownload key).2,
      ⟨key, (s.tokens.registerDownload key).1⟩ :: s.live⟩ := by
  unfold DownloadTokens.registerDownload
  cases hl : s.tokens.entries.lookup key with
  | some entry =>
    obtain ⟨token, holders⟩ := entry
    obtain ⟨hcount, hpos⟩ := h.counted key token holders hl
    have hmem : ⟨key, token⟩ ∈ s.live := List.count_pos_iff.mp (hcount ▸ hpos)
    apply h.push hcount _ (Nat.le_refl _) (h.fresh _ hmem)
    intro g hg
    constructor
    · rintro rfl
      obtain ⟨n, hn⟩ := h.held g hg
      rw [hl] at hn
      exact (congrArg Prod.fst (Option.some.inj hn)).symm
    · exact fun ho => h.apart g hg _ hmem ho
  | none =>
    apply h.push _ _ (Nat.le_succ _) (Nat.lt_succ_self _)
    · rw [List.count_eq_zero_of_not_mem]
      exact fun hmem => h.no_guards hl hmem rfl
    · intro g hg
      constructor
      · exact fun hk => absurd hk (h.no_guards hl hg)
      · exact fun ho => absurd ho (h.fresh g hg).ne

theorem Inv.cancel (h : s.Inv) (key : DownloadKey) :
    Inv { s with tokens := (s.tokens.cancelDownload key).2 } := by
  unfold DownloadTokens.cancelDownload
  cases hl : s.tokens.entries.lookup key with
  | none => exact h
  | some entry =>
    obtain ⟨token, holders⟩ := entry
    obtain ⟨hcount, hpos⟩ := h.counted key token holders hl
    have hmem : ⟨key, token⟩ ∈ s.live := List.count_pos_iff.mp (hcount ▸ hpos)
    refine ⟨h.counted, h.held, h.fresh, ?_, h.apart⟩
    intro t ht
    rcases Finset.mem_insert.mp ht with rfl | ht
    · exact h.fresh _ hmem
    · exact h.old t ht

/-- The last holder removes the entry, another one counts itself out. -/
theorem Inv.drop (h : s.Inv) {guard : DownloadGuard} (hguard : guard ∈ s.live) :
    Inv ⟨guard.drop s.tokens, s.live.erase guard⟩ := by
  obtain ⟨key, owner⟩ := guard
  obtain ⟨holders, hl⟩ := h.held _ hguard
  obtain ⟨hcount, hpos⟩ := h.counted key owner holders hl
  have hsame : ∀ g ∈ s.live, g.key = key → g = ⟨key, owner⟩ := by
    rintro g hg rfl
    obtain ⟨n, hn⟩ := h.held g hg
    rw [hl] at hn
    have howner : owner = g.owner := congrArg Prod.fst (Option.some.inj hn)
    rw [howner]
  have herase : (s.live.erase ⟨key, owner⟩).count ⟨key, owner⟩ = holders - 1 := by
    rw [List.count_erase_self, hcount]
  have hother : ∀ k t, k ≠ key →
      (s.live.erase ⟨key, owner⟩).count ⟨k, t⟩ = s.live.count ⟨k, t⟩ := by
    intro k t hk
    apply List.count_erase_of_ne
    intro he
    cases he
    exact hk rfl
  have hfresh : ∀ g ∈ s.live.erase ⟨key, owner⟩, g.owner < s.tokens.next :=
    fun g hg => h.fresh g (List.mem_of_mem_erase hg)
  have hapart : ∀ g ∈ s.live.erase ⟨key, owner⟩, ∀ g' ∈ s.live.erase ⟨key, owner⟩,
      g.owner = g'.owner → g.key = g'.key :=
    fun g hg g' hg' => h.apart g (List.mem_of_mem_erase hg) g' (List.mem_of_mem_erase hg')
  unfold DownloadGuard.drop DownloadTokens.removeDownloadIfOwner
  rw [hl]
  dsimp only
  rw [if_pos rfl]
  by_cases hlast : holders - 1 = 0
  · rw [if_pos hlast]
    have hnone : ⟨key, owner⟩ ∉ s.live.erase ⟨key, owner⟩ := by
      rw [← List.count_eq_zero, herase]
      exact hlast
    refine ⟨?_, ?_, hfresh, h.old, hapart⟩
    · intro k t n hk
      have hk : (s.tokens.entries.erase key).lookup k = some (t, n) := hk
      have hne : k ≠ key := by
        rintro rfl
        rw [AList.lookup_erase] at hk
        cases hk
      rw [AList.lookup_erase_ne hne] at hk
      show n = (s.live.erase ⟨key, owner⟩).count ⟨k, t⟩ ∧ 0 < n
      rw [hother k t hne]
      exact h.counted k t n hk
    · intro g hg
      have hne : g.key ≠ key := fun hk => hnone (hsame g (List.mem_of_mem_erase hg) hk ▸ hg)
      show ∃ n, (s.tokens.entries.erase key).lookup g.key = some (g.owner, n)
      rw [AList.lookup_erase_ne hne]
      exact h.held g (List.mem_of_mem_erase hg)
  · rw [if_neg hlast]
    refine ⟨?_, ?_, hfresh, h.old, hapart⟩
    · intro k t n hk
      have hk : (s.tokens.entries.insert key (owner, holders - 1)).lookup k = some (t, n) := hk
      show n = (s.live.erase ⟨key, owner⟩).count ⟨k, t⟩ ∧ 0 < n
      by_cases hne : k = key
      · subst hne
        rw [AList.lookup_insert] at hk
        cases hk
        rw [herase]
        omega
      · rw [AList.lookup_insert_ne hne] at hk
        rw [hother k t hne]
        exact h.counted k t n hk
    · intro g hg
      show ∃ n, (s.tokens.entries.insert key (owner, holders - 1)).lookup g.key = some (g.owner, n)
      by_cases hne : g.key = key
      · rw [hsame g (List.mem_of_mem_erase hg) hne, AList.lookup_insert]
        exact ⟨holders - 1, rfl⟩
      · rw [AList.lookup_insert_ne hne]
        exact h.held g (List.mem_of_mem_erase hg)

theorem inv_of_reachable (h : Reachable s) : s.Inv := by
  induction h with
  | empty => exact inv_empty
  | @step s s' e _ hs ih =>
    cases e with
    | register key =>
      cases hs
      exact ih.register key
    | cancel key =>
      cases hs
      exact ih.cancel key
    | drop guard =>
      simp only [DownloadState.step, Option.ite_none_right_eq_some] at hs
      obtain ⟨hguard, hs⟩ := hs
      cases hs
      exact ih.drop hguard

end Invariant

section Sound

variable {s : DownloadState}

/-- A registry counts the guards of a token. -/
theorem Inv.holders_eq (h : s.Inv) {key : DownloadKey} {token : Token} {holders : Nat}
    (hl : s.tokens.entries.lookup key = some (token, holders)) :
    holders = s.live.countP fun g => g.owner = token := by
  obtain ⟨hcount, hpos⟩ := h.counted key token holders hl
  have hmem : ⟨key, token⟩ ∈ s.live := List.count_pos_iff.mp (hcount ▸ hpos)
  rw [hcount, List.count]
  apply List.countP_congr
  intro g hg
  simp only [beq_iff_eq, decide_eq_true_eq]
  constructor
  · rintro rfl
    rfl
  · intro ho
    obtain ⟨k, o⟩ := g
    obtain rfl : o = token := ho
    rw [show k = key from h.apart _ hg _ hmem rfl]

theorem Inv.lookup_eq_none_iff (h : s.Inv) (key : DownloadKey) :
    s.tokens.entries.lookup key = none ↔ ∀ g ∈ s.live, g.key ≠ key := by
  constructor
  · exact fun hl g hg => h.no_guards hl hg
  · intro hno
    cases hl : s.tokens.entries.lookup key with
    | none => rfl
    | some entry =>
      obtain ⟨hcount, hpos⟩ := h.counted key entry.1 entry.2 hl
      exact absurd rfl (hno _ (List.count_pos_iff.mp (hcount ▸ hpos)))

/-- A caller gets a token that can be used unless it joins a download that has been cancelled. -/
theorem Inv.registered_uncancelled_iff (h : s.Inv) (key : DownloadKey) :
    (s.tokens.registerDownload key).1 ∉ s.tokens.cancelled ↔
      ∀ g ∈ s.live, g.key = key → g.owner ∉ s.tokens.cancelled := by
  unfold DownloadTokens.registerDownload
  cases hl : s.tokens.entries.lookup key with
  | none =>
    constructor
    · exact fun _ g hg hk => absurd hk (h.no_guards hl hg)
    · exact fun _ hc => Nat.lt_irrefl _ (h.old _ hc)
  | some entry =>
    obtain ⟨token, holders⟩ := entry
    obtain ⟨hcount, hpos⟩ := h.counted key token holders hl
    constructor
    · rintro hc g hg rfl
      obtain ⟨n, hn⟩ := h.held g hg
      rw [hl] at hn
      rw [← show token = g.owner from congrArg Prod.fst (Option.some.inj hn)]
      exact hc
    · exact fun hall => hall _ (List.count_pos_iff.mp (hcount ▸ hpos)) rfl

/-- In every interleaving an entry counts its guards and goes with the last of them, and what a
caller gets can be used exactly if no guard of the key holds a cancelled token. -/
theorem registerDownload_uncancelled_iff (h : Reachable s) (key : DownloadKey) :
    (∀ token holders, s.tokens.entries.lookup key = some (token, holders) →
      holders = s.live.countP fun g => g.owner = token) ∧
    (s.tokens.entries.lookup key = none ↔ ∀ g ∈ s.live, g.key ≠ key) ∧
    ((s.tokens.registerDownload key).1 ∉ s.tokens.cancelled ↔
      ∀ g ∈ s.live, g.key = key → g.owner ∉ s.tokens.cancelled) := by
  have hinv := inv_of_reachable h
  exact ⟨fun _ _ hl => hinv.holders_eq hl, hinv.lookup_eq_none_iff key,
    hinv.registered_uncancelled_iff key⟩

end Sound

section Examples

def after (s : DownloadState) : List DownloadEvent → Option DownloadState
  | [] => some s
  | e :: events => (s.step e).bind fun s => s.after events

theorem reachable_after {s s' : DownloadState} {events : List DownloadEvent} (h : Reachable s)
    (hs : s.after events = some s') : Reachable s' := by
  induction events generalizing s with
  | nil =>
    cases hs
    exact h
  | cons e events ih =>
    obtain ⟨mid, hmid, hs⟩ := Option.bind_eq_some_iff.mp hs
    exact ih (h.step hmid) hs

/-- A download that is started while a cancelled one winds down gets its token. -/
theorem registered_cancelled : ∃ s, Reachable s ∧
    (s.tokens.registerDownload ⟨.tts, "orpheus"⟩).1 ∈ s.tokens.cancelled := by
  have hs : ∃ s, empty.after [.register ⟨.tts, "orpheus"⟩, .cancel ⟨.tts, "orpheus"⟩] = some s ∧
      (s.tokens.registerDownload ⟨.tts, "orpheus"⟩).1 ∈ s.tokens.cancelled :=
    ⟨_, rfl, by decide⟩
  obtain ⟨s, hs, hc⟩ := hs
  exact ⟨s, reachable_after .empty hs, hc⟩

/-- One that is started afterwards gets a new token. -/
theorem registered_uncancelled : ∃ s, Reachable s ∧ s.tokens.cancelled = {0} ∧
    (s.tokens.registerDownload ⟨.tts, "orpheus"⟩).1 ∉ s.tokens.cancelled := by
  have hs : ∃ s, empty.after [.register ⟨.tts, "orpheus"⟩, .cancel ⟨.tts, "orpheus"⟩,
      .drop ⟨⟨.tts, "orpheus"⟩, 0⟩] = some s ∧ s.tokens.cancelled = {0} ∧ s.live = [] :=
    ⟨_, rfl, by decide, by decide⟩
  obtain ⟨s, hs, hc, hlive⟩ := hs
  have hreach := reachable_after .empty hs
  refine ⟨s, hreach, hc, (registerDownload_uncancelled_iff hreach _).2.2.mpr ?_⟩
  rw [hlive]
  exact nofun

end Examples

end DownloadState

end LensLM
