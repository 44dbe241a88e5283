import LensLM.DialogueTurns

/-!
# A reader of dialogue scripts

A JSON text has one value, so there is a reader that keeps the laws. It takes turns of a speaker
and a text. With it a reply that carries an empty list before its turns is shown to lose them.
-/

namespace LensLM

open ByteText JsonText

set_option autoImplicit false

section Unquoted

theorem settleKey_unquoted {b : Bracket} (k : Key b) : settleKey false k = (k, false) := by
  cases k with
  | item => rfl
  | name s w w' => rfl

mutual

theorem settleJson_unquoted : ∀ v : Json, settleJson false v = (v, false)
  | .atom _ => rfl
  | .str _ => rfl
  | .empty _ _ => rfl
  | .node b w es => by rw [settleJson, settleEntries_unquoted es]

theorem settleEntries_unquoted : ∀ {b : Bracket} (es : Entries b),
    settleEntries false es = (es, false)
  | _, .last k v w => by simp only [settleEntries, settleKey_unquoted, settleJson_unquoted v]
  | _, .cons k v w w' es => by
    simp only [settleEntries, settleKey_unquoted, settleJson_unquoted v, settleEntries_unquoted es]

end

/-- After prose that leaves no quotation open only the first list matters. -/
theorem recoverable_of_unquoted {serde : SerdeJson} (r : TurnsReply serde)
    (h : inQuote r.before = false) :
    r.Recoverable ↔ ∀ items ts, FirstList r.text items → items.mapM serde.turn = some ts →
      ts = r.turns := by
  have hsettled : r.settled = r.members := by
    rw [TurnsReply.settled, h, settleEntries_unquoted]
  have htext : r.settledText = r.text := by
    rw [TurnsReply.settledText, TurnsReply.text, hsettled]
  rw [TurnsReply.Recoverable, hsettled, htext]
  exact ⟨fun hr => hr.1, fun hr => ⟨hr, .inr r.hasTurns⟩⟩

end Unquoted

section Reader

def speakerOf (s : JString) : Option Speaker :=
  if s.value = some "host".toList then some .host
  else if s.value = some "guest".toList then some .guest
  else none

/-- A turn of a speaker and a text. -/
def plainTurn : Json → Option Turn
  | .node .curly _ (.cons k (.str s) _ _ (.last k' (.str t) _)) =>
    if k.string.value = some "speaker".toList ∧ k'.string.value = some "text".toList then
      (speakerOf s).bind fun speaker => t.value.map fun text => ⟨speaker, text, none, []⟩
    else none
  | _ => none

theorem speakerOf_like {s s' : JString} (h : s.Like scriptNames s') : speakerOf s' = speakerOf s := by
  simp only [speakerOf, likeString_value h (n := "host".toList) (by decide),
    likeString_value h (n := "guest".toList) (by decide)]

theorem plainTurn_like (v v' : Json) (t : Turn) (ht : plainTurn v = some t)
    (h : Json.Like scriptNames v v') : ∃ t', plainTurn v' = some t' := by
  unfold plainTurn at ht
  split at ht
  · rename_i lead k s after next k' t after'
    split at ht
    · rename_i hnames
      obtain ⟨speaker, hspeaker, ht⟩ := Option.bind_eq_some_iff.mp ht
      obtain ⟨text, htext, _⟩ := Option.map_eq_some_iff.mp ht
      cases h with
      | node h =>
      cases h with
      | cons hk hv h =>
      cases h with
      | last hk' hv' =>
      cases hv with
      | str hs =>
      cases hv' with
      | @str _ t' hs' =>
        have hvalid := likeString_valid hs'
        rw [htext, Option.isSome_some] at hvalid
        obtain ⟨text', htext'⟩ := Option.isSome_iff_exists.mp hvalid
        have hspeaker' := (likeString_value (likeKey_string hk) (by decide)).mp hnames.1
        have htextName := (likeString_value (likeKey_string hk') (by decide)).mp hnames.2
        refine ⟨⟨speaker, text', none, []⟩, ?_⟩
        simp only [plainTurn, hspeaker', htextName, and_self, if_true, speakerOf_like hs, hspeaker,
          htext', Option.bind_some, Option.map_some]
    · cases ht
  · cases ht

theorem stops_blank (w : Blank) : Stops isAtomChar w.text := by
  intro c hc
  exact isAtomChar_blank (w.blank c (List.mem_of_mem_head? hc))

theorem outer_inj {w w' u u' : Blank} {v v' : Json}
    (h : w.text ++ (v.text ++ w'.text) = u.text ++ (v'.text ++ u'.text)) : v = v' := by
  obtain ⟨c, t, ht, hc⟩ := v.text_start
  obtain ⟨c', t', ht', hc'⟩ := v'.text_start
  have hlead := h
  rw [ht, ht'] at hlead
  obtain ⟨_, hchar, hrest⟩ := Blank.text_inj (isBlank_of_startOf hc) (isBlank_of_startOf hc') hlead
  refine (Json.text_inj v v' w'.text u'.text (stops_blank w') (stops_blank u') ?_).1
  rw [ht, ht']
  exact congrArg₂ List.cons hchar hrest

open Classical in
/-- The value of a text. -/
noncomputable def valueOf (s : Str) : Option Json :=
  if h : ∃ v : Json, ∃ w w' : Blank, s = w.text ++ (v.text ++ w'.text) then some h.choose else none

theorem valueOf_text (w w' : Blank) (v : Json) :
    valueOf (w.text ++ (v.text ++ w'.text)) = some v := by
  have h : ∃ v' : Json, ∃ u u' : Blank,
      w.text ++ (v.text ++ w'.text) = u.text ++ (v'.text ++ u'.text) := ⟨v, w, w', rfl⟩
  rw [valueOf, dif_pos h]
  obtain ⟨u, u', heq⟩ := h.choose_spec
  exact congrArg some (outer_inj heq).symm

open Classical in
noncomputable def plainScript : Json → Option DialogueScript
  | .node .curly _ ms => if h : ∃ ts, HasTurns plainTurn ms ts then some ⟨h.choose⟩ else none
  | _ => none

noncomputable def plainReader : SerdeJson where
  turn := plainTurn
  turnsFromStr s := (valueOf s).bind fun v => v.elements.bind (·.mapM plainTurn)
  scriptFromStr s := (valueOf s).bind plainScript
  valueFromStr _ := none
  turnsFromValue _ := none
  turns_text w w' v := by rw [valueOf_text, Option.bind_some]
  turns_sound s ts h := by
    obtain ⟨v, hv, _⟩ := Option.bind_eq_some_iff.mp h
    unfold valueOf at hv
    split at hv
    · rename_i hex
      obtain ⟨w, w', heq⟩ := hex.choose_spec
      exact ⟨w, w', _, heq⟩
    · cases hv
  script_text lead ms ts h := by
    have hvalue := valueOf_text Blank.empty Blank.empty (.node .curly lead ms)
    have hex : ∃ ts, HasTurns plainTurn ms ts := ⟨ts, h⟩
    change valueOf ((Json.node .curly lead ms).text ++ []) = _ at hvalue
    rw [List.append_nil] at hvalue
    rw [hvalue, Option.bind_some, plainScript, dif_pos hex, hex.choose_spec.unique h]
  turn_like := plainTurn_like

end Reader

section Masked

def plainItems (s : Str) : List StrItem :=
  s.filterMap fun c => if ok : isPlain c = true then some (.plain c ok) else none

def plainString (s : String) : JString := ⟨plainItems s.toList⟩

def plainKey (s : String) : Key .curly := .name (plainString s) Blank.empty Blank.empty

/-- `{"speaker":"host","text":"hi"}` -/
def hostTurn : Json :=
  .node .curly Blank.empty (.cons (plainKey "speaker") (.str (plainString "host")) Blank.empty
    Blank.empty (.last (plainKey "text") (.str (plainString "hi")) Blank.empty))

/-- `{"meta":[],"turns":[{"speaker":"host","text":"hi"}]}` -/
noncomputable def maskedReply : TurnsReply plainReader where
  before := []
  lead := Blank.empty
  members := .cons (plainKey "meta") (.empty .square Blank.empty) Blank.empty Blank.empty
    (.last (plainKey "turns") (.node .square Blank.empty (.last .item hostTurn Blank.empty))
      Blank.empty)
  after := []
  turns := [⟨.host, "hi".toList, none, []⟩]
  proseBefore c hc := by cases hc
  proseAfter c hc := by cases hc
  hasTurns := by
    refine ⟨by decide, _, [hostTurn], rfl, rfl, rfl⟩
  nonempty := List.cons_ne_nil _ _

/-- The empty list before the turns is taken for the script. -/
theorem parseDialogue_masks_turns :
    ¬ ∀ (serde : SerdeJson) (r : TurnsReply serde), parseDialogue serde r.text = .ok ⟨r.turns⟩ := by
  intro h
  have hfirst : FirstList (preclean maskedReply.text) [] := by
    refine ⟨"\x7b\"meta\":".toList, ",\"turns\":[\x7b\"speaker\":\"host\",\"text\":\"hi\"\x7d]\x7d".toList,
      .empty .square Blank.empty, by rfl, by decide, rfl⟩
  have hroute := (listRoute_iff plainReader _ []).mpr ⟨[], hfirst, rfl⟩
  have hparse := h plainReader maskedReply
  rw [parseDialogue_of_list hroute] at hparse
  cases hparse

end Masked

end LensLM
