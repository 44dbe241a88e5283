import LensLM.Lib.ByteText
import LensLM.Lib.EventRuns
import Mathlib.Data.List.Nodup

/-!
# Keyboard shortcuts

Every action has a default binding, which the user may replace by a recorded one and restore. The
keymap holds the replaced ones as tokens.
-/

namespace LensLM.Shortcuts

open ByteText EventRuns

set_option autoImplicit false

section Binding

inductive Platform where
  | darwin
  | win32
  | linux
deriving DecidableEq, Repr

structure Binding where
  key : Str
  mod : Bool
  shift : Bool
  alt : Bool
deriving DecidableEq, Repr

structure KeyEvent where
  key : Str
  ctrlKey : Bool
  metaKey : Bool
  shiftKey : Bool
  altKey : Bool
deriving DecidableEq, Repr

def namedKeys : List (Str × Str) :=
  [("space", "Space"), ("enter", "Enter"), ("escape", "Escape"), ("arrowleft", "ArrowLeft"),
    ("arrowright", "ArrowRight"), ("arrowup", "ArrowUp"), ("arrowdown", "ArrowDown")].map
      fun p => (p.1.toList, p.2.toList)

def eventKeyAliases : List (Str × Str) :=
  [(" ", "Space"), ("Spacebar", "Space")].map fun p => (p.1.toList, p.2.toList)

/-- The letters beyond ASCII do not matter for the words that are looked for. -/
def toLowerCase (s : Str) : Str := s.map Char.toLower

def toUpperCase (s : Str) : Str := s.map Char.toUpper

def canonicalKey (raw : Str) : Option Str :=
  match namedKeys.lookup (toLowerCase raw) with
  | some named => some named
  | none =>
    if raw = ['['] ∨ raw = [']'] then some raw
    else match raw with
      | [c] => if c.isAlphanum then some (toUpperCase raw) else none
      | _ => none

/-- The modifiers that have been read. -/
structure Modifiers where
  mod : Bool
  shift : Bool
  alt : Bool

def parseParts : List Str → Modifiers → Option Str → Option Binding
  | [], m, key => key.map fun k => ⟨k, m.mod, m.shift, m.alt⟩
  | _ :: _, _, some _ => none
  | part :: parts, m, none =>
    if toLowerCase part = "mod".toList then
      if m.mod then none else parseParts parts { m with mod := true } none
    else if toLowerCase part = "shift".toList then
      if m.shift then none else parseParts parts { m with shift := true } none
    else if toLowerCase part = "alt".toList then
      if m.alt then none else parseParts parts { m with alt := true } none
    else match canonicalKey part with
      | none => none
      | some key => parseParts parts m (some key)

def parse (token : Str) : Option Binding :=
  parseParts (token.splitOn '+') ⟨false, false, false⟩ none

def tokenParts (b : Binding) : List Str :=
  (if b.mod then ["Mod".toList] else []) ++ (if b.shift then ["Shift".toList] else []) ++
    (if b.alt then ["Alt".toList] else []) ++ [b.key]

def toToken (b : Binding) : Str := ['+'].intercalate (tokenParts b)

def eq : Option Binding → Option Binding → Bool
  | some a, some b => a.key == b.key && a.mod == b.mod && a.shift == b.shift && a.alt == b.alt
  | _, _ => false

def fromEvent (event : KeyEvent) (platform : Platform) : Option Binding :=
  let onDarwin := platform == .darwin
  if (if onDarwin then event.ctrlKey else event.metaKey) then none
  else match canonicalKey ((eventKeyAliases.lookup event.key).getD event.key) with
    | none => none
    | some key =>
      some ⟨key, if onDarwin then event.metaKey else event.ctrlKey, event.shiftKey, event.altKey⟩

end Binding

section Registry

inductive ActionId where
  | paletteToggle
  | paletteClose
  | chatSend
  | chatNewline
  | playerPlayPause
  | playerSeekBack
  | playerSeekFwd
  | playerSkipBack
  | playerSkipFwd
  | playerRateDown
  | playerRateUp
deriving DecidableEq, Repr

inductive Scope where
  | window
  | palette
  | player
  | composer
deriving DecidableEq, Repr

structure ShortcutEntry where
  id : ActionId
  scope : Scope
  action : String
  defaultBinding : Str
  remappable : Bool
deriving DecidableEq, Repr

def shortcutsById : ActionId → ShortcutEntry
  | .paletteToggle =>
    ⟨.paletteToggle, .window, "Toggle command palette", "Mod+K".toList, true⟩
  | .paletteClose =>
    ⟨.paletteClose, .palette, "Close command palette", "Escape".toList, false⟩
  | .chatSend => ⟨.chatSend, .composer, "Send message", "Enter".toList, false⟩
  | .chatNewline => ⟨.chatNewline, .composer, "Insert newline", "Shift+Enter".toList, false⟩
  | .playerPlayPause => ⟨.playerPlayPause, .player, "Play or pause", "Space".toList, true⟩
  | .playerSeekBack => ⟨.playerSeekBack, .player, "Seek back", "ArrowLeft".toList, true⟩
  | .playerSeekFwd => ⟨.playerSeekFwd, .player, "Seek forward", "ArrowRight".toList, true⟩
  | .playerSkipBack => ⟨.playerSkipBack, .player, "Skip back", "J".toList, true⟩
  | .playerSkipFwd => ⟨.playerSkipFwd, .player, "Skip forward", "L".toList, true⟩
  | .playerRateDown =>
    ⟨.playerRateDown, .player, "Decrease playback speed", "[".toList, true⟩
  | .playerRateUp => ⟨.playerRateUp, .player, "Increase playback speed", "]".toList, true⟩

def actionIds : List ActionId :=
  [.paletteToggle, .paletteClose, .chatSend, .chatNewline, .playerPlayPause, .playerSeekBack,
    .playerSeekFwd, .playerSkipBack, .playerSkipFwd, .playerRateDown, .playerRateUp]

def shortcuts : List ShortcutEntry := actionIds.map shortcutsById

/-- The tokens of the replaced bindings. -/
abbrev Keymap := ActionId → Option Str

/-- The binding that is in force for an action. -/
def effective (keymap : Keymap) (entry : ShortcutEntry) : Option Binding :=
  parse ((keymap entry.id).getD entry.defaultBinding)

end Registry

section Conflicts

def sharesDomain (candidateScope other : Scope) : Bool :=
  candidateScope == .window || other == .window || other == candidateScope

def findConflict (scope : Scope) (candidate : Option Binding) (forId : ActionId)
    (keymap : Keymap) : Option ShortcutEntry :=
  shortcuts.find? fun entry =>
    entry.id ≠ forId && sharesDomain scope entry.scope && eq (effective keymap entry) candidate

def isValidForScope (scope : Scope) (binding : Option Binding) : Bool :=
  match binding with
  | none => false
  | some b => if scope ≠ .window then true else b.mod || b.alt

def resolve (event : KeyEvent) (scope : Scope) (keymap : Keymap) (platform : Platform) :
    Option ActionId :=
  match fromEvent event platform with
  | none => none
  | some pressed =>
    (shortcuts.find? fun entry => entry.scope == scope && eq (effective keymap entry) (some pressed)).map
      ShortcutEntry.id

end Conflicts

section Panel

def modifierKeys : List Str := ["Shift", "Control", "Alt", "Meta"].map String.toList

def qualifyingModifiers (platform : Platform) : String :=
  if platform = .darwin then "Command" else "Control or Alt"

/-- What speaks against a binding. -/
def validate (platform : Platform) (id : ActionId) (binding : Binding) (map : Keymap) :
    Option String :=
  let scope := (shortcutsById id).scope
  match findConflict scope (some binding) id map with
  | some conflict => some s!"Already used by “{conflict.action}”."
  | none =>
    if !isValidForScope scope (some binding) then
      some (s!"Global shortcuts need a {qualifyingModifiers platform} modifier — " ++
        "Shift alone still types a character.")
    else none

/-- The binding that an armed row takes a key for. The keys that drive the widget itself are not
recorded. -/
def handleCapture (platform : Platform) (event : KeyEvent) : Option Binding :=
  if event.key = "Tab".toList ∨ event.key ∈ modifierKeys ∨ event.key = "Escape".toList ∨
    event.key = "Enter".toList then none
  else fromEvent event platform

inductive Edit where
  | record (id : ActionId) (event : KeyEvent)
  | resetOne (id : ActionId)
  | resetAll
deriving DecidableEq, Repr

def accept (platform : Platform) (id : ActionId) (candidate : Binding) (current : Keymap) : Keymap :=
  match validate platform id candidate current with
  | some _ => current
  | none => fun a => if a = id then some (toToken candidate) else current a

/-- A recording that is not accepted leaves the keymap as it is. -/
def edit (platform : Platform) (keymap : Keymap) : Edit → Keymap
  | .record id event =>
    if (shortcutsById id).remappable then
      match handleCapture platform event with
      | none => keymap
      | some candidate => accept platform id candidate keymap
    else keymap
  | .resetOne id => fun a => if a = id then none else keymap a
  | .resetAll => fun _ => none

def noOverrides : Keymap := fun _ => none

end Panel

section Tokens

/-- A key in the spelling it is stored in. -/
structure Canonical (key : Str) : Prop where
  fixed : canonicalKey key = some key
  plus : '+' ∉ key
  notMod : toLowerCase key ≠ "mod".toList
  notShift : toLowerCase key ≠ "shift".toList
  notAlt : toLowerCase key ≠ "alt".toList

instance (key : Str) : Decidable (Canonical key) :=
  decidable_of_iff (canonicalKey key = some key ∧ '+' ∉ key ∧ toLowerCase key ≠ "mod".toList ∧
      toLowerCase key ≠ "shift".toList ∧ toLowerCase key ≠ "alt".toList)
    ⟨fun h => ⟨h.1, h.2.1, h.2.2.1, h.2.2.2.1, h.2.2.2.2⟩,
      fun h => ⟨h.fixed, h.plus, h.notMod, h.notShift, h.notAlt⟩⟩

theorem isAlphanum_lt {c : Char} (h : c.isAlphanum = true) : c.toNat < 128 := by
  have hranges : ((decide (c.val ≥ 'A'.val ∧ c.val ≤ 'Z'.val) || (c.val ≥ 'a'.val && c.val ≤ 'z'.val)) ||
      (c.val ≥ '0'.val && c.val ≤ '9'.val)) = true := h
  simp only [Bool.or_eq_true, Bool.and_eq_true, decide_eq_true_eq, ge_iff_le,
    UInt32.le_iff_toNat_le] at hranges
  show c.val.toNat < 128
  have hZ : 'Z'.val.toNat = 90 := rfl
  have hz : 'z'.val.toNat = 122 := rfl
  have h9 : '9'.val.toNat = 57 := rfl
  omega

theorem canonical_letter {c : Char} (h : c.isAlphanum = true) : Canonical [c.toUpper] := by
  have hall : ∀ n : Fin 128, (Char.ofNat n).isAlphanum = true →
      Canonical [(Char.ofNat n).toUpper] := by decide +kernel
  have hc := hall ⟨c.toNat, isAlphanum_lt h⟩
  simp only [Char.ofNat_toNat] at hc
  exact hc h

theorem canonicalKey_canonical {raw key : Str} (h : canonicalKey raw = some key) :
    Canonical key := by
  unfold canonicalKey at h
  split at h
  · next named hnamed =>
    obtain rfl := Option.some.inj h
    have hall : ∀ p ∈ namedKeys, Canonical p.2 := by decide +kernel
    obtain ⟨before, after, heq, -⟩ := List.lookup_eq_some_iff.mp hnamed
    exact hall (toLowerCase raw, named) (by rw [heq]; simp)
  · split at h
    · next hbracket =>
      obtain rfl := Option.some.inj h
      rcases hbracket with rfl | rfl <;> decide
    · split at h
      · split at h
        · next hletter =>
          obtain rfl := Option.some.inj h
          exact canonical_letter hletter
        · simp at h
      · simp at h

theorem fromEvent_canonical {event : KeyEvent} {platform : Platform} {b : Binding}
    (h : fromEvent event platform = some b) : Canonical b.key := by
  simp only [fromEvent] at h
  cases hkey : canonicalKey ((eventKeyAliases.lookup event.key).getD event.key) with
  | none => simp [hkey] at h
  | some key =>
    simp only [hkey, Option.ite_none_left_eq_some, Option.some.injEq] at h
    obtain ⟨-, rfl⟩ := h
    exact canonicalKey_canonical hkey

theorem parseParts_key {key : Str} (h : Canonical key) (m : Modifiers) :
    parseParts [key] m none = some ⟨key, m.mod, m.shift, m.alt⟩ := by
  rw [parseParts, if_neg h.notMod, if_neg h.notShift, if_neg h.notAlt, h.fixed]
  rfl

/-- A stored token is read as the binding it was made of. -/
theorem parse_toToken {b : Binding} (h : Canonical b.key) : parse (toToken b) = some b := by
  obtain ⟨key, mod, shift, alt⟩ := b
  have hone : ∀ (flag : Bool) (w part : Str), part ∈ (if flag then [w] else []) → part = w := by
    intro flag w part hpart
    cases flag
    · simp at hpart
    · simpa using hpart
  have hparts : ∀ part ∈ tokenParts ⟨key, mod, shift, alt⟩, '+' ∉ part := by
    intro part hpart
    simp only [tokenParts, List.mem_append, List.mem_singleton] at hpart
    rcases hpart with ((hpart | hpart) | hpart) | rfl
    · rw [hone _ _ _ hpart]
      decide
    · rw [hone _ _ _ hpart]
      decide
    · rw [hone _ _ _ hpart]
      decide
    · exact h.plus
  have hne : tokenParts ⟨key, mod, shift, alt⟩ ≠ [] := by simp [tokenParts]
  rw [parse, toToken, List.splitOn_intercalate '+' hparts hne]
  cases mod <;> cases shift <;> cases alt <;> exact parseParts_key h _

end Tokens

section Keymaps

variable {keymap : Keymap} {platform : Platform}

abbrev entry (id : ActionId) : ShortcutEntry := shortcutsById id

def scopeOf (id : ActionId) : Scope := (entry id).scope

/-- The binding that is in force for an action. -/
def bindingOf (keymap : Keymap) (id : ActionId) : Option Binding := effective keymap (entry id)

/-- No two actions of one domain have the same binding, and no window action one that types. -/
structure NoConflict (keymap : Keymap) : Prop where
  bound : ∀ a, (bindingOf keymap a).isSome
  distinct : ∀ a b, a ≠ b → sharesDomain (scopeOf a) (scopeOf b) →
    bindingOf keymap a ≠ bindingOf keymap b
  modified : ∀ a, scopeOf a = .window → isValidForScope .window (bindingOf keymap a)

/-- A key event is resolved to the action of the scope that is bound to it. -/
def ResolvesBound (keymap : Keymap) (platform : Platform) : Prop :=
  ∀ event scope id, resolve event scope keymap platform = some id ↔
    scopeOf id = scope ∧ ∃ b, fromEvent event platform = some b ∧ bindingOf keymap id = some b

theorem entry_id (id : ActionId) : (entry id).id = id := by cases id <;> rfl

theorem mem_shortcuts_iff {e : ShortcutEntry} : e ∈ shortcuts ↔ ∃ id, e = entry id := by
  constructor
  · intro h
    obtain ⟨id, -, rfl⟩ := List.mem_map.mp h
    exact ⟨id, rfl⟩
  · rintro ⟨id, rfl⟩
    exact List.mem_map_of_mem (by cases id <;> decide)

theorem eq_iff {a b : Option Binding} : eq a b = true ↔ ∃ x, a = some x ∧ b = some x := by
  cases a with
  | none => simp [eq]
  | some a =>
    cases b with
    | none => simp [eq]
    | some b =>
      obtain ⟨key, mod, shift, alt⟩ := a
      obtain ⟨key', mod', shift', alt'⟩ := b
      simp only [eq, Bool.and_eq_true, beq_iff_eq, Option.some.injEq, exists_eq_left', Binding.mk.injEq,
        and_assoc]
      constructor
      · rintro ⟨rfl, rfl, rfl, rfl⟩
        exact ⟨rfl, rfl, rfl, rfl⟩
      · rintro ⟨rfl, rfl, rfl, rfl⟩
        exact ⟨rfl, rfl, rfl, rfl⟩

theorem findConflict_eq_none_iff {scope : Scope} {candidate : Option Binding} {id : ActionId} :
    findConflict scope candidate id keymap = none ↔
      ∀ a, a ≠ id → sharesDomain scope (scopeOf a) → eq (bindingOf keymap a) candidate = false := by
  unfold findConflict
  rw [List.find?_eq_none]
  constructor
  · intro h a ha hshare
    have hentry := h (entry a) (mem_shortcuts_iff.mpr ⟨a, rfl⟩)
    rw [entry_id] at hentry
    by_contra heq
    apply hentry
    simp only [Bool.and_eq_true, decide_eq_true_eq]
    exact ⟨⟨ha, hshare⟩, by simpa [bindingOf] using heq⟩
  · intro h e he
    obtain ⟨a, rfl⟩ := mem_shortcuts_iff.mp he
    rw [entry_id]
    intro hall
    simp only [Bool.and_eq_true, decide_eq_true_eq] at hall
    obtain ⟨⟨ha, hshare⟩, heq⟩ := hall
    rw [show eq (effective keymap (entry a)) candidate = false from h a ha hshare] at heq
    exact absurd heq (by decide)

theorem sharesDomain_comm (a b : Scope) : sharesDomain a b = sharesDomain b a := by
  cases a <;> cases b <;> rfl

theorem sharesDomain_self (a : Scope) : sharesDomain a a = true := by cases a <;> rfl

theorem NoConflict.resolves (h : NoConflict keymap) (platform : Platform) :
    ResolvesBound keymap platform := by
  intro event scope id
  unfold resolve
  cases hevent : fromEvent event platform with
  | none => simp
  | some pressed =>
    simp only [Option.map_eq_some_iff, Option.some.injEq, exists_eq_left']
    constructor
    · rintro ⟨e, he, rfl⟩
      obtain ⟨a, rfl⟩ := mem_shortcuts_iff.mp (List.mem_of_find?_eq_some he)
      have hfound := List.find?_some he
      simp only [Bool.and_eq_true, beq_iff_eq] at hfound
      obtain ⟨x, hx, hpressed⟩ := eq_iff.mp hfound.2
      rw [entry_id, Option.some.inj hpressed]
      exact ⟨hfound.1, hx⟩
    · rintro ⟨hscope, hbound⟩
      have hself : ((entry id).scope == scope && eq (effective keymap (entry id)) (some pressed)) =
          true := by
        rw [Bool.and_eq_true]
        exact ⟨beq_iff_eq.mpr hscope, eq_iff.mpr ⟨pressed, hbound, rfl⟩⟩
      cases hfind : shortcuts.find? fun e =>
          e.scope == scope && eq (effective keymap e) (some pressed) with
      | none =>
        exact absurd hself (List.find?_eq_none.mp hfind _ (mem_shortcuts_iff.mpr ⟨id, rfl⟩))
      | some e =>
        obtain ⟨a, rfl⟩ := mem_shortcuts_iff.mp (List.mem_of_find?_eq_some hfind)
        refine ⟨entry a, rfl, ?_⟩
        rw [entry_id]
        by_contra hne
        have hfound := List.find?_some hfind
        simp only [Bool.and_eq_true, beq_iff_eq] at hfound
        obtain ⟨x, hx, hpressed⟩ := eq_iff.mp hfound.2
        -- two actions of one scope would have the binding that was pressed
        have hscopes : sharesDomain (scopeOf a) (scopeOf id) = true := by
          rw [show scopeOf a = scope from hfound.1, show scopeOf id = scope from hscope]
          exact sharesDomain_self scope
        apply h.distinct a id hne hscopes
        rw [hbound, Option.some.inj hpressed]
        exact hx

/-- A binding that is free in the domain of its action can take its place. -/
theorem NoConflict.rebind {keymap' : Keymap} {id : ActionId} {b : Binding} (h : NoConflict keymap)
    (hsame : ∀ a, a ≠ id → bindingOf keymap' a = bindingOf keymap a)
    (hnew : bindingOf keymap' id = some b)
    (hfree : findConflict (scopeOf id) (some b) id keymap = none)
    (hvalid : isValidForScope (scopeOf id) (some b) = true) : NoConflict keymap' := by
  have hother : ∀ a, a ≠ id → sharesDomain (scopeOf id) (scopeOf a) = true →
      bindingOf keymap' a ≠ some b := by
    intro a ha hshare heq
    have hne := findConflict_eq_none_iff.mp hfree a ha hshare
    rw [hsame a ha] at heq
    rw [eq_iff.mpr ⟨b, heq, rfl⟩] at hne
    exact absurd hne (by decide)
  refine ⟨?_, ?_, ?_⟩
  · intro a
    by_cases ha : a = id
    · rw [ha, hnew]
      rfl
    · rw [hsame a ha]
      exact h.bound a
  · intro a c hac hshare
    by_cases ha : a = id
    · subst ha
      rw [hnew]
      exact (hother c (Ne.symm hac) hshare).symm
    · by_cases hc : c = id
      · subst hc
        rw [hnew]
        exact hother a ha (sharesDomain_comm _ _ ▸ hshare)
      · rw [hsame a ha, hsame c hc]
        exact h.distinct a c hac hshare
  · intro a hwindow
    by_cases ha : a = id
    · subst ha
      rw [hnew, ← hwindow]
      exact hvalid
    · rw [hsame a ha]
      exact h.modified a hwindow

/-- The shipped bindings. -/
def defaultOf : ActionId → Binding
  | .paletteToggle => ⟨['K'], true, false, false⟩
  | .paletteClose => ⟨"Escape".toList, false, false, false⟩
  | .chatSend => ⟨"Enter".toList, false, false, false⟩
  | .chatNewline => ⟨"Enter".toList, false, true, false⟩
  | .playerPlayPause => ⟨"Space".toList, false, false, false⟩
  | .playerSeekBack => ⟨"ArrowLeft".toList, false, false, false⟩
  | .playerSeekFwd => ⟨"ArrowRight".toList, false, false, false⟩
  | .playerSkipBack => ⟨['J'], false, false, false⟩
  | .playerSkipFwd => ⟨['L'], false, false, false⟩
  | .playerRateDown => ⟨['['], false, false, false⟩
  | .playerRateUp => ⟨[']'], false, false, false⟩

theorem parse_defaultBinding (id : ActionId) :
    parse (entry id).defaultBinding = some (defaultOf id) := by
  cases id <;> decide +kernel

theorem bindingOf_default {id : ActionId} (h : keymap id = none) :
    bindingOf keymap id = some (defaultOf id) := by
  rw [bindingOf, effective, entry_id, h, Option.getD_none, parse_defaultBinding]

theorem defaultOf_valid (id : ActionId) : isValidForScope (scopeOf id) (some (defaultOf id)) = true := by
  cases id <;> rfl

theorem noOverrides_noConflict : NoConflict noOverrides := by
  refine ⟨?_, ?_, ?_⟩
  · intro a
    rw [bindingOf_default rfl]
    rfl
  · intro a b hab hshare
    rw [bindingOf_default rfl, bindingOf_default rfl]
    revert hab hshare
    cases a <;> cases b <;> decide
  · intro a hwindow
    rw [bindingOf_default rfl, ← hwindow]
    exact defaultOf_valid a

end Keymaps

section Edits

variable {keymap : Keymap} {platform : Platform}

/-- A single reset brings back a default that no other action of the domain has taken. -/
def DefaultFree (keymap : Keymap) : Edit → Prop
  | .resetOne id => findConflict (scopeOf id) (parse (entry id).defaultBinding) id keymap = none
  | _ => True

theorem validate_eq_none_iff {id : ActionId} {b : Binding} : validate platform id b keymap = none ↔
    findConflict (scopeOf id) (some b) id keymap = none ∧
      isValidForScope (scopeOf id) (some b) = true := by
  unfold validate
  cases hfind : findConflict (scopeOf id) (some b) id keymap with
  | some e => simp [show findConflict (shortcutsById id).scope (some b) id keymap = some e from hfind]
  | none =>
    simp only [show findConflict (shortcutsById id).scope (some b) id keymap = none from hfind,
      true_and]
    cases hvalid : isValidForScope (scopeOf id) (some b) with
    | false => simp [show isValidForScope (shortcutsById id).scope (some b) = false from hvalid]
    | true => simp [show isValidForScope (shortcutsById id).scope (some b) = true from hvalid]

theorem accept_noConflict {id : ActionId} {b : Binding} (h : NoConflict keymap)
    (hkey : Canonical b.key) : NoConflict (accept platform id b keymap) := by
  unfold accept
  cases hvalidate : validate platform id b keymap with
  | some message => exact h
  | none =>
    obtain ⟨hfree, hvalid⟩ := validate_eq_none_iff.mp hvalidate
    refine h.rebind ?_ ?_ hfree hvalid
    · intro a ha
      simp only [bindingOf, effective, entry_id, if_neg ha]
    · simp only [bindingOf, effective, entry_id, if_pos, Option.getD_some]
      exact parse_toToken hkey

theorem bindingOf_resetOne (id a : ActionId) : bindingOf (edit platform keymap (.resetOne id)) a =
    if a = id then some (defaultOf id) else bindingOf keymap a := by
  by_cases ha : a = id
  · subst ha
    rw [if_pos rfl]
    exact bindingOf_default (by simp [edit])
  · simp only [bindingOf, effective, edit, entry_id, if_neg ha]

theorem handleCapture_canonical {event : KeyEvent} {b : Binding}
    (h : handleCapture platform event = some b) : Canonical b.key := by
  unfold handleCapture at h
  split at h
  · simp at h
  · exact fromEvent_canonical h

theorem edit_noConflict (h : NoConflict keymap) (e : Edit) (hfree : DefaultFree keymap e) :
    NoConflict (edit platform keymap e) := by
  cases e with
  | record id event =>
    simp only [edit]
    by_cases hremap : (shortcutsById id).remappable = true
    · rw [if_pos hremap]
      cases hcapture : handleCapture platform event with
      | none => exact h
      | some b => exact accept_noConflict h (handleCapture_canonical hcapture)
    · rw [if_neg hremap]
      exact h
  | resetOne id =>
    rw [DefaultFree, parse_defaultBinding] at hfree
    refine h.rebind ?_ ?_ hfree (defaultOf_valid id)
    · intro a ha
      rw [bindingOf_resetOne, if_neg ha]
    · rw [bindingOf_resetOne, if_pos rfl]
  | resetAll => exact noOverrides_noConflict

/-- Two actions of one domain have the same binding after a default has come back that was taken. -/
theorem resetOne_conflict {e : Edit} (htaken : ¬ DefaultFree keymap e) :
    ¬ NoConflict (edit platform keymap e) := by
  intro h
  cases e with
  | record id event => exact htaken trivial
  | resetAll => exact htaken trivial
  | resetOne id =>
    apply htaken
    rw [DefaultFree, parse_defaultBinding, findConflict_eq_none_iff]
    intro a ha hshare
    by_contra heq
    obtain ⟨x, hx, hdefault⟩ := eq_iff.mp (Bool.not_eq_false _ ▸ heq)
    apply h.distinct id a (Ne.symm ha) hshare
    rw [bindingOf_resetOne, bindingOf_resetOne, if_pos rfl, if_neg ha, hx, hdefault]

/-- Through every history of edits the bindings stay free of conflicts, and keys are resolved to the
actions they are bound to, exactly when no single reset brings back a default that is taken. -/
theorem edits_noConflict_iff (platform : Platform) (edits : List Edit) :
    Throughout (edit platform) (fun keymap => NoConflict keymap ∧ ResolvesBound keymap platform)
        noOverrides edits ↔
      Along (edit platform) DefaultFree noOverrides edits := by
  apply throughout_iff_along (I := NoConflict)
  · intro keymap e h hfree
    exact edit_noConflict h e hfree
  · intro keymap h
    exact ⟨h, h.resolves platform⟩
  · intro keymap e _ htaken hgood
    exact resetOne_conflict htaken hgood.1
  · exact noOverrides_noConflict

/-- One action takes the key that another has given up, and the other gets it back. -/
def takenDefault : List Edit :=
  [.record .playerSkipBack ⟨['q'], false, false, false, false⟩,
    .record .playerSkipFwd ⟨['j'], false, false, false, false⟩, .resetOne .playerSkipBack]

theorem takenDefault_conflicts :
    ¬ Throughout (edit .linux) (fun keymap => NoConflict keymap ∧ ResolvesBound keymap .linux)
      noOverrides takenDefault := by
  intro h
  refine h.stop.1.distinct .playerSkipBack .playerSkipFwd (by decide) (by decide) ?_
  decide +kernel

end Edits

end LensLM.Shortcuts
