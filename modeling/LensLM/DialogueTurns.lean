import LensLM.DialogueClean
import Mathlib.Data.List.Forall2
import Mathlib.Data.List.TakeWhile

/-!
# The turns of a reply

A reply is an object with a list `turns` in prose. Its turns are recovered unless the first
list of the text is another list of turns, and the empty list is one.
-/

namespace LensLM

open ByteText JsonText

set_option autoImplicit false

section Likeness

theorem likeString_value {s s' : JString} (h : s.Like scriptNames s') {n : Str}
    (hn : n ∈ scriptNames) : s.value = some n ↔ s'.value = some n := by
  cases h with
  | same => exact Iff.rfl
  | other h h' valid => exact iff_of_false (h n hn) (h' n hn)

theorem likeString_valid {s s' : JString} (h : s.Like scriptNames s') :
    s'.value.isSome = s.value.isSome := by
  cases h with
  | same => rfl
  | other h h' valid => exact valid

theorem likeKey_string {k k' : Key .curly} (h : k.Like scriptNames k') :
    k.string.Like scriptNames k'.string := by
  cases h with
  | name h => exact h

def LikeEntry {b : Bracket} (m m' : Key b × Json) : Prop :=
  m.1.Like scriptNames m'.1 ∧ Json.Like scriptNames m.2 m'.2

theorem likeEntries_toList : ∀ {b : Bracket} {es es' : Entries b},
    Entries.Like scriptNames es es' → List.Forall₂ LikeEntry es.toList es'.toList
  | _, _, _, .last hk hv => .cons ⟨hk, hv⟩ .nil
  | _, _, _, .cons hk hv hes => .cons ⟨hk, hv⟩ (likeEntries_toList hes)

theorem like_elements {v v' : Json} (h : Json.Like scriptNames v v') {items : List Json}
    (hitems : v.elements = some items) :
    ∃ items', v'.elements = some items' ∧ List.Forall₂ (Json.Like scriptNames) items items' := by
  cases h with
  | atom a => cases hitems
  | str h => cases hitems
  | empty b w =>
    cases b with
    | square => exact ⟨items, hitems, by cases hitems; exact .nil⟩
    | curly => cases hitems
  | @node b w es es' h =>
    cases b with
    | square =>
      cases hitems
      refine ⟨_, rfl, ?_⟩
      rw [List.forall₂_map_left_iff, List.forall₂_map_right_iff]
      exact (likeEntries_toList h).imp fun m m' hm => hm.2
    | curly => cases hitems

theorem likeEntry_turns {m m' : Key .curly × Json} (h : LikeEntry m m') :
    isTurnsMember m = isTurnsMember m' := by
  have hiff := likeString_value (likeKey_string h.1) (n := turnsName) (by decide)
  rw [Bool.eq_iff_iff, isTurnsMember, isTurnsMember, beq_iff_eq, beq_iff_eq]
  exact hiff

theorem forall₂_filter_turns {l l' : List (Key .curly × Json)} (h : List.Forall₂ LikeEntry l l') :
    List.Forall₂ LikeEntry (l.filter isTurnsMember) (l'.filter isTurnsMember) := by
  induction h with
  | nil => exact .nil
  | cons hm _ ih =>
    rw [List.filter_cons, List.filter_cons, ← likeEntry_turns hm]
    split
    · exact .cons hm ih
    · exact ih

theorem forall₂_valid {l l' : List (Key .curly × Json)} (h : List.Forall₂ LikeEntry l l')
    (hvalid : ∀ m ∈ l, m.1.string.value.isSome) : ∀ m ∈ l', m.1.string.value.isSome := by
  induction h with
  | nil => exact hvalid
  | cons hm _ ih =>
    intro m hmem
    cases hmem with
    | head =>
      rw [likeString_valid (likeKey_string hm.1)]
      exact hvalid _ List.mem_cons_self
    | tail _ hmem => exact ih (fun x hx => hvalid x (List.mem_cons_of_mem _ hx)) m hmem

variable (serde : SerdeJson)

theorem mapM_like {items items' : List Json}
    (h : List.Forall₂ (Json.Like scriptNames) items items') {ts : List Turn}
    (hts : items.mapM serde.turn = some ts) : ∃ ts', items'.mapM serde.turn = some ts' := by
  induction h generalizing ts with
  | nil => exact ⟨[], rfl⟩
  | cons hv _ ih =>
    rw [List.mapM_cons] at hts
    obtain ⟨t, ht, hts⟩ := Option.bind_eq_some_iff.mp hts
    obtain ⟨us, hus, _⟩ := Option.bind_eq_some_iff.mp hts
    obtain ⟨t', ht'⟩ := serde.turn_like _ _ t ht hv
    obtain ⟨us', hus'⟩ := ih hus
    refine ⟨t' :: us', ?_⟩
    rw [List.mapM_cons, ht', hus']
    rfl

/-- The clean-up leaves an object with readable turns. -/
theorem hasTurns_like {ms ms' : Entries .curly} (h : Entries.Like scriptNames ms ms')
    {ts : List Turn} (hts : HasTurns serde.turn ms ts) : ∃ ts', HasTurns serde.turn ms' ts' := by
  obtain ⟨hvalid, m, items, hone, hitems, hread⟩ := hts
  have hall := likeEntries_toList h
  have hfilter := forall₂_filter_turns hall
  rw [hone] at hfilter
  obtain ⟨m', l, hm, hl, heq⟩ := List.forall₂_cons_left_iff.mp hfilter
  cases hl
  obtain ⟨items', hitems', hlike⟩ := like_elements hm.2 hitems
  obtain ⟨ts', hts'⟩ := mapM_like serde hlike hread
  exact ⟨ts', forall₂_valid hall hvalid, m', items', heq, hitems', hts'⟩

end Likeness

section Prose

theorem dropCommas_of_not_needs {q : QuoteState} {s : Str} (h : needsClean q s = false) :
    dropCommas q s = s := by
  induction s generalizing q with
  | nil => rfl
  | cons c s ih =>
    rw [needsClean, Bool.or_eq_false_iff] at h
    rw [dropCommas, if_neg (by rw [h.1]; exact Bool.false_ne_true), ih h.2]

theorem preclean_eq (text : Str) : preclean text = dropCommas .outside text := by
  unfold preclean
  split
  · rfl
  · rename_i h
    exact (dropCommas_of_not_needs (Bool.eq_false_iff.mpr h)).symm

/-- In prose no bracket closes. -/
def Prose (s : Str) : Prop := ∀ c ∈ s, isBracket c = false

theorem closesNext_prose {s r : Str} (hs : Prose s) (hr : closesNext r = false) :
    closesNext (s ++ r) = false := by
  induction s with
  | nil => exact hr
  | cons c s ih =>
    have hc : (c == ']' || c == '}') = false := by
      have hb := hs c List.mem_cons_self
      simp only [isBracket, Bool.or_eq_false_iff] at hb ⊢
      exact ⟨hb.1.1.2, hb.2⟩
    rw [List.cons_append, closesNext, hc, ih fun a ha => hs a (List.mem_cons_of_mem _ ha)]
    split
    · rfl
    · rfl

theorem dropCommas_prose {s r : Str} (hs : Prose s) (hr : closesNext r = false) (q : QuoteState) :
    dropCommas q (s ++ r) = s ++ dropCommas (q.run s) r := by
  induction s generalizing q with
  | nil => rfl
  | cons c s ih =>
    have htail : Prose s := fun a ha => hs a (List.mem_cons_of_mem _ ha)
    rw [List.cons_append, dropCommas, closesNext_prose htail hr, if_neg (by simp), ih htail]
    rfl

/-- The text leaves a quotation open. -/
def inQuote (s : Str) : Bool := QuoteState.outside.run s != .outside

/-- Before a bracket it is one whether the quotation is at an escape. -/
theorem dropCommas_left (q : QuoteState) (b : Bracket) (r : Str) :
    dropCommas q (b.left :: r) = dropCommas (stateOf (q != .outside)) (b.left :: r) := by
  cases q with
  | outside => rfl
  | inside => rfl
  | escaped =>
    cases b
    all_goals rfl

theorem preclean_reply {before after : Str} (hb : Prose before) (ha : Prose after) (w : Blank)
    (ms : Entries .curly) :
    preclean (before ++ ((Json.node .curly w ms).text ++ after)) =
      before ++ ((Json.node .curly w (settleEntries (inQuote before) ms).1).text ++ after) := by
  have hafter : ∀ q, dropCommas q after = after := by
    intro q
    have h := dropCommas_prose (r := []) ha rfl q
    rwa [List.append_nil, dropCommas, List.append_nil] at h
  rw [preclean_eq, dropCommas_prose hb rfl]
  change before ++ dropCommas _ (Bracket.left .curly :: _) = _
  rw [dropCommas_left]
  have hnode := dropCommas_json (.node .curly w ms) (inQuote before) after
  rw [hafter] at hnode
  exact congrArg (before ++ ·) hnode

end Prose

section Routes

theorem arrayTracker_balanced : arrayTracker.Balanced fun d => 0 < d.1 ∨ 0 < d.2 where
  other d c h := by
    simp only [isBracket, Bool.or_eq_false_iff, beq_eq_false_iff_ne] at h
    simp only [arrayTracker, if_neg h.1.1.1, if_neg h.1.1.2, if_neg h.1.2, if_neg h.2]
  pair d b h := by
    cases b with
    | square =>
      refine ⟨(d.1 + 1, d.2), rfl, .inl (Nat.succ_pos _), ?_⟩
      have hstop : (d.1 == 0 && d.2 == 0) = false := by
        rw [Bool.and_eq_false_iff, beq_eq_false_iff_ne, beq_eq_false_iff_ne]
        omega
      exact congrArg (Prod.mk d) hstop
    | curly => exact ⟨(d.1, d.2 + 1), rfl, .inr (Nat.succ_pos _), rfl⟩

theorem objectTracker_balanced : objectTracker.Balanced fun d => 0 < d where
  other d c h := by
    simp only [isBracket, Bool.or_eq_false_iff, beq_eq_false_iff_ne] at h
    simp only [objectTracker, if_neg h.1.2, if_neg h.2]
  pair d b h := by
    cases b with
    | square => exact ⟨d, rfl, h, rfl⟩
    | curly =>
      refine ⟨d + 1, rfl, Nat.succ_pos _, ?_⟩
      have hstop : (d == 0) = false := by
        rw [beq_eq_false_iff_ne]
        omega
      exact congrArg (Prod.mk d) hstop

theorem elements_start {v : Json} {items : List Json} (h : v.elements = some items) :
    v.start = .bracket .square := by
  cases v with
  | atom a => cases h
  | str s => cases h
  | empty b w =>
    cases b with
    | square => rfl
    | curly => cases h
  | node b w es =>
    cases b with
    | square => rfl
    | curly => cases h

theorem text_of_start {v : Json} {b : Bracket} (h : v.start = .bracket b) :
    ∃ t, v.text = b.left :: t := by
  cases v with
  | atom a => cases h
  | str s => cases h
  | empty b' w =>
    cases h
    exact ⟨_, rfl⟩
  | node b' w es =>
    cases h
    exact ⟨_, rfl⟩

/-- The list that the first `[` of the text opens. -/
def FirstList (text : Str) (items : List Json) : Prop :=
  ∃ (u w : Str) (v : Json), text = u ++ (v.text ++ w) ∧ '[' ∉ u ∧ v.elements = some items

theorem dropWhile_ne {u r : Str} {c : Char} (hu : c ∉ u) :
    (u ++ c :: r).dropWhile (· != c) = c :: r := by
  rw [List.dropWhile_append_of_pos]
  · rw [List.dropWhile_cons_of_neg (by simp)]
  · intro a ha
    simp only [bne_iff_ne, ne_eq]
    intro hac
    exact hu (hac ▸ ha)

theorem extractJsonArray_first {u w : Str} {v : Json} {items : List Json} (hu : '[' ∉ u)
    (hv : v.elements = some items) : extractJsonArray (u ++ (v.text ++ w)) = some v.text := by
  have hstart := elements_start hv
  have htake := Json.take_bracket arrayTracker_balanced (d := (0, 0)) hstart rfl
    (.inl Nat.one_pos) rfl w
  obtain ⟨t, ht⟩ := text_of_start hstart
  rw [← htake, extractJsonArray, ht]
  exact congrArg _ (dropWhile_ne hu)

theorem extractJsonObject_first {u w : Str} {v : Json} (hu : '{' ∉ u)
    (hv : v.start = .bracket .curly) : extractJsonObject (u ++ (v.text ++ w)) = some v.text := by
  have htake := Json.take_bracket objectTracker_balanced (d := 0) hv rfl Nat.one_pos rfl w
  obtain ⟨t, ht⟩ := text_of_start hv
  rw [← htake, extractJsonObject, ht]
  exact congrArg _ (dropWhile_ne hu)

/-- The reader finds a value by its first character. -/
theorem text_at_left {b : Bracket} {s : Str} {w w' : Blank} {v : Json}
    (h : b.left :: s = w.text ++ (v.text ++ w'.text)) : b.left :: s = v.text ++ w'.text := by
  obtain ⟨c, t, ht, hc⟩ := v.text_start
  rw [ht] at h ⊢
  obtain ⟨_, hleft, hrest⟩ := Blank.text_inj (w := Blank.empty)
    (isBlank_of_startOf (startOf_left b)) (isBlank_of_startOf hc) h
  rw [hleft, hrest]
  rfl

variable (serde : SerdeJson)

/-- The list route reads the first list of the text. -/
theorem listRoute_iff (text : Str) (ts : List Turn) :
    (extractJsonArray text).bind serde.turnsFromStr = some ts ↔
      ∃ items, FirstList text items ∧ items.mapM serde.turn = some ts := by
  constructor
  · intro h
    obtain ⟨s, hs, hts⟩ := Option.bind_eq_some_iff.mp h
    obtain ⟨w, w', v, hsound⟩ := serde.turns_sound s ts hts
    rw [hsound, serde.turns_text] at hts
    obtain ⟨items, hitems, hread⟩ := Option.bind_eq_some_iff.mp hts
    obtain ⟨r, hr⟩ := Tracker.take_prefix hs
    have hsplit := List.takeWhile_append_dropWhile (p := (· != '[')) (l := text)
    have hfree : '[' ∉ text.takeWhile (· != '[') := by
      intro hmem
      exact absurd (List.mem_takeWhile_imp hmem) (by decide)
    obtain ⟨s', rfl⟩ : ∃ s', s = '[' :: s' := by
      cases s with
      | nil =>
        have hnil := List.append_eq_nil_iff.mp (List.append_eq_nil_iff.mp hsound.symm).2
        exact absurd hnil.1 v.text_ne_nil
      | cons c s' =>
        have hc := List.head?_dropWhile_not (· != '[') text
        rw [hr] at hc
        obtain rfl : c = '[' := by simpa using hc
        exact ⟨s', rfl⟩
    have hlist : '[' :: s' = v.text ++ w'.text := text_at_left (b := .square) hsound
    refine ⟨items, ⟨_, w'.text ++ r, v, ?_, hfree, hitems⟩, hread⟩
    rw [← List.append_assoc v.text, ← hlist, ← hr, hsplit]
  · rintro ⟨items, ⟨u, w, v, rfl, hu, hv⟩, hread⟩
    rw [extractJsonArray_first hu hv, Option.bind_some]
    have htext := serde.turns_text Blank.empty Blank.empty v
    rw [hv] at htext
    change serde.turnsFromStr (v.text ++ []) = _ at htext
    rw [List.append_nil] at htext
    exact htext.trans hread

end Routes

section Replies

/-- An object with a list of turns, in prose without brackets. -/
structure TurnsReply (serde : SerdeJson) where
  before : Str
  lead : Blank
  members : Entries .curly
  after : Str
  turns : List Turn
  proseBefore : Prose before
  proseAfter : Prose after
  hasTurns : HasTurns serde.turn members turns
  nonempty : turns ≠ []

variable {serde : SerdeJson}

def TurnsReply.text (r : TurnsReply serde) : Str :=
  r.before ++ ((Json.node .curly r.lead r.members).text ++ r.after)

/-- The members as the clean-up leaves them. -/
def TurnsReply.settled (r : TurnsReply serde) : Entries .curly :=
  (settleEntries (inQuote r.before) r.members).1

def TurnsReply.settledText (r : TurnsReply serde) : Str :=
  r.before ++ ((Json.node .curly r.lead r.settled).text ++ r.after)

/-- A list of turns at the first `[` is the list that is asked for; if there is none, the
clean-up has left the member's turns as they were. -/
def TurnsReply.Recoverable (r : TurnsReply serde) : Prop :=
  (∀ items ts, FirstList r.settledText items → items.mapM serde.turn = some ts → ts = r.turns) ∧
    ((∃ items ts, FirstList r.settledText items ∧ items.mapM serde.turn = some ts) ∨
      HasTurns serde.turn r.settled r.turns)

theorem HasTurns.unique {turn : Json → Option Turn} {ms : Entries .curly} {ts ts' : List Turn}
    (h : HasTurns turn ms ts) (h' : HasTurns turn ms ts') : ts = ts' := by
  obtain ⟨_, m, items, hone, hitems, hread⟩ := h
  obtain ⟨_, m', items', hone', hitems', hread'⟩ := h'
  obtain ⟨rfl, _⟩ := List.cons.inj (hone.symm.trans hone')
  obtain rfl := Option.some.inj (hitems.symm.trans hitems')
  exact Option.some.inj (hread.symm.trans hread')

theorem not_mem_prose {s : Str} (h : Prose s) {c : Char} (hc : isBracket c = true) : c ∉ s := by
  intro hmem
  rw [h c hmem] at hc
  cases hc

theorem parseDialogue_of_list {text : Str} {ts : List Turn}
    (h : (extractJsonArray (preclean text)).bind serde.turnsFromStr = some ts) :
    parseDialogue serde text = .ok ⟨ts⟩ := by
  simp only [parseDialogue, h]

/-- Without a list of turns at the front the object's own list is read. -/
theorem parseDialogue_of_object (r : TurnsReply serde) {ts : List Turn}
    (hts : HasTurns serde.turn r.settled ts)
    (h : (extractJsonArray r.settledText).bind serde.turnsFromStr = none) :
    parseDialogue serde r.text = .ok ⟨ts⟩ := by
  have hclean : preclean r.text = r.settledText :=
    preclean_reply r.proseBefore r.proseAfter r.lead r.members
  have hobj : extractJsonObject r.settledText = some (Json.node .curly r.lead r.settled).text :=
    extractJsonObject_first (not_mem_prose r.proseBefore (by decide)) rfl
  have hread := serde.script_text r.lead r.settled ts hts
  simp only [parseDialogue, hclean, h, hobj, Option.bind_some, parseObject, hread, Option.some_or]

/-- The turns of a reply are recovered exactly when it is recoverable. -/
theorem parseDialogue_turns_iff (serde : SerdeJson) (r : TurnsReply serde) :
    parseDialogue serde r.text = .ok ⟨r.turns⟩ ↔ r.Recoverable := by
  have hclean : preclean r.text = r.settledText :=
    preclean_reply r.proseBefore r.proseAfter r.lead r.members
  obtain ⟨ts', hts'⟩ := hasTurns_like serde
    (settleEntries_like r.members (inQuote r.before)) r.hasTurns
  have hinj : ∀ {ts us : List Turn}, (.ok ⟨ts⟩ : Except LensError DialogueScript) = .ok ⟨us⟩ →
      ts = us := fun h => congrArg DialogueScript.turns (Except.ok.inj h)
  cases hroute : (extractJsonArray r.settledText).bind serde.turnsFromStr with
  | some ts =>
    have hparse : parseDialogue serde r.text = .ok ⟨ts⟩ :=
      parseDialogue_of_list (by rw [hclean]; exact hroute)
    obtain ⟨items, hfirst, hread⟩ := (listRoute_iff serde _ _).mp hroute
    rw [hparse]
    constructor
    · intro h
      refine ⟨?_, .inl ⟨items, ts, hfirst, hread⟩⟩
      intro items' us hfirst' hread'
      have hus := (listRoute_iff serde _ _).mpr ⟨items', hfirst', hread'⟩
      exact (Option.some.inj (hus.symm.trans hroute)).trans (hinj h)
    · intro h
      rw [h.1 items ts hfirst hread]
  | none =>
    have hnone : ∀ items ts, FirstList r.settledText items → items.mapM serde.turn ≠ some ts := by
      intro items ts hfirst hread
      have hsome := (listRoute_iff serde _ _).mpr ⟨items, hfirst, hread⟩
      rw [hroute] at hsome
      cases hsome
    rw [parseDialogue_of_object r hts' hroute]
    constructor
    · intro h
      refine ⟨fun items ts hfirst hread => absurd hread (hnone items ts hfirst), .inr ?_⟩
      exact hinj h ▸ hts'
    · intro h
      rcases h.2 with ⟨items, ts, hfirst, hread⟩ | hsame
      · exact absurd hread (hnone items ts hfirst)
      · rw [hts'.unique hsame]

end Replies

end LensLM
