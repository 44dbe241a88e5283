import LensLM.AnswerGrammar
import LensLM.RedactorRuns

/-!
# Citations and the text that is shown

The citations are drawn from the text of the model, while the text that is shown is the one that
the redactor has cut markers out of. A cut inside a pair of brackets may leave a citation marker
that the text of the model does not have.
-/

namespace LensLM

open ByteText Cutting

set_option autoImplicit false

section Numbers

/-- The numbers that a text cites, in order. -/
def citedNumbers (s : Str) : List Nat := (parseMarkers s).map Prod.snd

theorem scanMarkers_numbers (pos : Nat) (s : Str) :
    (scanMarkers pos s).map Prod.snd = citedNumbers s := by
  have hpos : ∀ n (s : Str), s.length ≤ n → ∀ p q,
      (scanMarkers p s).map Prod.snd = (scanMarkers q s).map Prod.snd := by
    intro n
    induction n with
    | zero =>
      intro s hs p q
      obtain rfl : s = [] := List.length_eq_zero_iff.mp (Nat.le_zero.mp hs)
      simp [scanMarkers]
    | succ n ih =>
      intro s hs p q
      cases s with
      | nil => simp [scanMarkers]
      | cons c s =>
        rw [List.length_cons] at hs
        rw [scanMarkers, scanMarkers]
        split
        · split
          · exact ih s (by omega) _ _
          · rename_i inner after hclose
            have hlen := findClose_length hclose
            split
            · rw [List.map_append, List.map_append, ih after (by omega) _ (q + 1 + byteLen inner + 1)]
              simp
            · exact ih s (by omega) _ _
        · exact ih s (by omega) _ _
  exact hpos s.length s (le_refl _) pos 0

theorem citedNumbers_cons {c : Char} {s : Str} (hc : c ≠ '[') :
    citedNumbers (c :: s) = citedNumbers s := by
  unfold citedNumbers parseMarkers
  rw [scanMarkers, if_neg hc, scanMarkers_numbers]
  rfl

/-- What a `[` starts: the numbers of a marker, or nothing. -/
theorem citedNumbers_bracket (s : Str) : citedNumbers ('[' :: s) =
    match (findClose s).bind fun x => (parseMarkerList x.1).map fun ns => (ns, x.2) with
    | some x => x.1 ++ citedNumbers x.2
    | none => citedNumbers s := by
  unfold citedNumbers parseMarkers
  rw [scanMarkers, if_pos rfl]
  split
  · rename_i hclose
    rw [hclose, scanMarkers_numbers]
    rfl
  · rename_i inner after hclose
    rw [hclose]
    simp only [Option.bind_some]
    cases parseMarkerList inner with
    | none =>
      simp only [Option.map_none]
      rw [scanMarkers_numbers]
      rfl
    | some ns =>
      simp only [Option.map_some, List.map_append, List.map_map]
      rw [scanMarkers_numbers]
      congr 1
      simp [Function.comp_def]

theorem citedNumbers_skip {m : Str} (hm : '[' ∉ m) (s : Str) :
    citedNumbers (m ++ s) = citedNumbers s := by
  induction m with
  | nil => rfl
  | cons c m ih =>
    simp only [List.mem_cons, not_or] at hm
    rw [List.cons_append, citedNumbers_cons (Ne.symm hm.1), ih hm.2]

variable {κ : Type}

/-- The citations depend on the numbers in range alone. -/
theorem extractCitations_congr {a b : Str} {units : List (ContextUnit κ)}
    (h : (citedNumbers a).filter (inRange · units.length) =
      (citedNumbers b).filter (inRange · units.length)) :
    extractCitations a units = extractCitations b units := by
  have hnamed : ∀ s : Str, namedUnits s units =
      ((citedNumbers s).filter (inRange · units.length)).filterMap fun n =>
        units[n - 1]?.map fun unit => (n, unit) := by
    intro s
    unfold namedUnits citedNumbers
    rw [List.filterMap_filter, List.filterMap_map]
    rfl
  unfold extractCitations
  rw [hnamed a, hnamed b, h]

theorem findClose_of_mem {s : Str} (h : ']' ∈ s) :
    ∃ inner after, findClose s = some (inner, after) := by
  obtain ⟨inner, after, rfl, hn⟩ := List.eq_append_cons_of_mem h
  exact ⟨inner, after, findClose_eq_some.mpr ⟨rfl, hn⟩⟩

theorem findClose_of_notMem {s : Str} (h : ']' ∉ s) : findClose s = none := by
  cases hs : findClose s with
  | none => rfl
  | some x =>
    exfalso
    apply h
    rw [(findClose_eq_some.mp hs).1]
    simp

/-- What is between brackets on the left of a cut and on the right of it, where the cut closes the
gap, cites no number in range. -/
def SeamCitesNone (len : Nat) (a b : Str) : Prop :=
  ∀ a' x y b' ns, a = a' ++ '[' :: x → b = y ++ ']' :: b' → '[' ∉ x ++ y → ']' ∉ x ++ y →
    parseMarkerList (x ++ y) = some ns → ∀ n ∈ ns, inRange n len = false

/-- A cut that leaves no citation between brackets leaves the numbers of the text as they are. -/
theorem citedNumbers_cut {m a b : Str} {len : Nat} (ho : '[' ∉ m) (hc : ']' ∉ m)
    (hlist : ∀ x y, parseMarkerList (x ++ (m ++ y)) = none) (hseam : SeamCitesNone len a b) :
    (citedNumbers (a ++ (m ++ b))).filter (inRange · len) =
      (citedNumbers (a ++ b)).filter (inRange · len) := by
  induction hn : a.length using Nat.strong_induction_on generalizing a with
  | _ n ih =>
    cases a with
    | nil =>
      rw [List.nil_append, List.nil_append, citedNumbers_skip ho]
    | cons c a =>
      have hlater : ∀ front rest : Str, c :: a = front ++ rest → rest.length < n →
          (citedNumbers (rest ++ (m ++ b))).filter (inRange · len) =
            (citedNumbers (rest ++ b)).filter (inRange · len) := by
        intro front rest heq hlt
        apply ih rest.length hlt ?_ rfl
        intro a' x y b' ns hrest hb
        apply hseam (front ++ a') x y b' ns
        · rw [heq, hrest, List.append_assoc]
        · exact hb
      have hnext := hlater [c] a rfl (by simp [← hn])
      by_cases hbracket : c = '['
      · subst hbracket
        rw [List.cons_append, List.cons_append, citedNumbers_bracket, citedNumbers_bracket]
        by_cases hmem : ']' ∈ a
        · -- The cut lies behind the brackets.
          obtain ⟨inner, after, hclose⟩ := findClose_of_mem hmem
          obtain ⟨rfl, hinner⟩ := findClose_eq_some.mp hclose
          have hfind : ∀ t : Str, findClose (inner ++ ']' :: after ++ t) =
              some (inner, after ++ t) := by
            intro t
            apply findClose_eq_some.mpr
            exact ⟨by simp, hinner⟩
          rw [hfind, hfind]
          simp only [Option.bind_some]
          cases hparse : parseMarkerList inner with
          | none => exact hnext
          | some ns =>
            simp only [Option.map_some, List.filter_append]
            rw [hlater ('[' :: (inner ++ [']'])) after (by simp)]
            rw [← hn]
            simp
            omega
        · by_cases hb : ']' ∈ b
          · -- The cut lies between the brackets.
            obtain ⟨y, b', hclose⟩ := findClose_of_mem hb
            obtain ⟨rfl, hy⟩ := findClose_eq_some.mp hclose
            have hwith : findClose (a ++ (m ++ (y ++ ']' :: b'))) = some (a ++ (m ++ y), b') := by
              apply findClose_eq_some.mpr
              refine ⟨by simp, ?_⟩
              simp only [List.mem_append, not_or]
              exact ⟨hmem, hc, hy⟩
            have hwithout : findClose (a ++ (y ++ ']' :: b')) = some (a ++ y, b') := by
              apply findClose_eq_some.mpr
              refine ⟨by simp, ?_⟩
              simp only [List.mem_append, not_or]
              exact ⟨hmem, hy⟩
            rw [hwith, hwithout]
            simp only [Option.bind_some, hlist, Option.map_none]
            cases hparse : parseMarkerList (a ++ y) with
            | none => exact hnext
            | some ns =>
              have hopen := (parseMarkerList_eq_some.mp hparse).bracket_notMem
              have hnone := hseam [] a y b' ns rfl rfl hopen (by
                simp only [List.mem_append, not_or]
                exact ⟨hmem, hy⟩) hparse
              have hfilter : ns.filter (inRange · len) = [] := by
                apply List.filter_eq_nil_iff.mpr
                intro k hk
                rw [hnone k hk]
                exact Bool.false_ne_true
              simp only [List.mem_append, not_or] at hopen
              simp only [Option.map_some, List.filter_append, hfilter, List.nil_append]
              rw [citedNumbers_skip hopen.1, citedNumbers_skip ho, citedNumbers_skip hopen.2,
                citedNumbers_cons (by decide)]
          · have hnone : findClose (a ++ (m ++ b)) = none := by
              apply findClose_of_notMem
              simp only [List.mem_append, not_or]
              exact ⟨hmem, hc, hb⟩
            have hnone' : findClose (a ++ b) = none := by
              apply findClose_of_notMem
              simp only [List.mem_append, not_or]
              exact ⟨hmem, hb⟩
            rw [hnone, hnone']
            exact hnext
      · rw [List.cons_append, List.cons_append, citedNumbers_cons hbracket,
          citedNumbers_cons hbracket]
        exact hnext

end Numbers

section Brackets

variable {pieces : List Str} {len : Nat} {text a b m : Str}

/-- Whatever is cut out of the text between a pair of brackets, what is left cites no number in
range. -/
def BracketsKept (pieces : List Str) (len : Nat) (text : Str) : Prop :=
  ∀ p x q, text = p ++ '[' :: (x ++ ']' :: q) → '[' ∉ x → ']' ∉ x →
    ∀ y ns, Cuts pieces x y → y ≠ x → parseMarkerList y = some ns → ∀ n ∈ ns, inRange n len = false

/-- Pieces that are no part of a citation, and have no brackets. -/
structure Foreign (pieces : List Str) : Prop where
  noOpen : ∀ m ∈ pieces, '[' ∉ m
  noClose : ∀ m ∈ pieces, ']' ∉ m
  alien : ∀ m ∈ pieces, '<' ∈ m

theorem notMem_intercalate {c : Char} (hc : c ≠ ',') {parts : List Str}
    (h : ∀ part ∈ parts, c ∉ part) : c ∉ [','].intercalate parts := by
  induction parts with
  | nil => simp
  | cons part parts ih =>
    have hhead := h part (by simp)
    have htail := ih fun q hq => h q (List.mem_cons_of_mem _ hq)
    cases parts with
    | nil => simpa using hhead
    | cons q parts =>
      simp only [List.intercalate_cons_cons, List.mem_append, not_or]
      exact ⟨⟨hhead, by simpa using hc⟩, htail⟩

theorem notMem_markerList {inner : Str} {ns : List Nat} (h : MarkerList inner ns) : '<' ∉ inner := by
  obtain ⟨parts, _, rfl, hf⟩ := h
  exact notMem_intercalate (by decide) (notMem_numerals hf (by decide) (by decide))

theorem Foreign.parse_none (hf : Foreign pieces) (hm : m ∈ pieces) (x y : Str) :
    parseMarkerList (x ++ (m ++ y)) = none := by
  cases hp : parseMarkerList (x ++ (m ++ y)) with
  | none => rfl
  | some ns =>
    exfalso
    apply notMem_markerList (parseMarkerList_eq_some.mp hp)
    simp [hf.alien m hm]

/-- The text between the brackets before a cut there. -/
theorem BracketsKept.between (h : BracketsKept pieces len text) (hf : Foreign pieces)
    (hm : m ∈ pieces) {p x y q z : Str} {ns : List Nat}
    (ht : text = p ++ '[' :: (x ++ (m ++ y) ++ ']' :: q)) (ho : '[' ∉ x ++ y) (hc : ']' ∉ x ++ y)
    (hz : Cuts pieces (x ++ y) z) (hparse : parseMarkerList z = some ns) :
    ∀ n ∈ ns, inRange n len = false := by
  simp only [List.mem_append, not_or] at ho hc
  apply h p (x ++ (m ++ y)) q ht ?_ ?_ z ns ?_ ?_ hparse
  · simp only [List.mem_append, not_or]
    exact ⟨ho.1, hf.noOpen m hm, ho.2⟩
  · simp only [List.mem_append, not_or]
    exact ⟨hc.1, hf.noClose m hm, hc.2⟩
  · have hcut : Cut pieces (x ++ (m ++ y)) (x ++ y) := by
      rw [← List.append_assoc]
      exact .mk x y hm
    exact Relation.ReflTransGen.head hcut hz
  · intro heq
    have hlen := hz.length_le
    have hpos := List.length_pos_of_mem (hf.alien m hm)
    rw [heq] at hlen
    simp only [List.length_append] at hlen
    omega

theorem BracketsKept.seam (h : BracketsKept pieces len (a ++ (m ++ b))) (hf : Foreign pieces)
    (hm : m ∈ pieces) : SeamCitesNone len a b := by
  intro a' x y b' ns ha hb ho hc hparse
  apply h.between hf hm (p := a') (x := x) (y := y) (q := b') ?_ ho hc .refl hparse
  rw [ha, hb]
  simp

/-- A cut leaves the pairs of brackets as they are, or is inside one of them. -/
theorem BracketsKept.cut (h : BracketsKept pieces len (a ++ (m ++ b))) (hf : Foreign pieces)
    (hm : m ∈ pieces) : BracketsKept pieces len (a ++ b) := by
  intro p x q ht ho hc y ns hy hne hparse
  have hinside : ∀ x₁ x₂, x = x₁ ++ x₂ → a = p ++ '[' :: x₁ → b = x₂ ++ ']' :: q →
      ∀ n ∈ ns, inRange n len = false := by
    intro x₁ x₂ hx ha hb
    rw [hx] at ho hc hy
    apply h.between hf hm (p := p) (x := x₁) (y := x₂) (q := q) ?_ ho hc hy hparse
    rw [ha, hb]
    simp
  rcases List.append_eq_append_iff.mp ht with ⟨p', rfl, hb⟩ | ⟨a', rfl, hb⟩
  · apply h (a ++ (m ++ p')) x q ?_ ho hc y ns hy hne hparse
    rw [hb]
    simp
  · cases a' with
    | nil =>
      apply h (p ++ m) x q ?_ ho hc y ns hy hne hparse
      rw [List.nil_append] at hb
      rw [← hb]
      simp
    | cons c a' =>
      obtain ⟨rfl, hb'⟩ := List.cons.inj hb
      rcases List.append_eq_append_iff.mp hb' with ⟨a₃, rfl, hq⟩ | ⟨x₂, hx, hb⟩
      · cases a₃ with
        | nil => exact hinside x [] (by simp) (by simp) (by simpa using hq.symm)
        | cons d a₃ =>
          obtain ⟨rfl, rfl⟩ := List.cons.inj hq
          apply h p x (a₃ ++ (m ++ b)) ?_ ho hc y ns hy hne hparse
          simp
      · exact hinside a' x₂ hx rfl hb

/-- Cuts that leave no citation between brackets leave the numbers in range as they are. -/
theorem citedNumbers_cuts {t : Str} (hcuts : Cuts pieces text t) (hf : Foreign pieces)
    (h : BracketsKept pieces len text) : BracketsKept pieces len t ∧
      (citedNumbers text).filter (inRange · len) = (citedNumbers t).filter (inRange · len) := by
  induction hcuts with
  | refl => exact ⟨h, rfl⟩
  | tail _ hcut ih =>
    obtain ⟨hkept, hsame⟩ := ih
    cases hcut with
    | @mk a m b hm =>
      rw [List.append_assoc] at hkept hsame
      refine ⟨hkept.cut hf hm, ?_⟩
      rw [hsame]
      exact citedNumbers_cut (hf.noOpen m hm) (hf.noClose m hm) (hf.parse_none hm)
        (hkept.seam hf hm)

/-- The markers of a nonce without brackets. -/
theorem foreign_markers {nonce : Str} (ho : '[' ∉ nonce) (hc : ']' ∉ nonce) :
    Foreign (FenceRedactor.new nonce).markers := by
  constructor
  · intro m hm
    simp only [FenceRedactor.new, List.mem_cons, List.not_mem_nil, or_false] at hm
    rcases hm with rfl | rfl | rfl | rfl
    all_goals simp [ho]
  · intro m hm
    simp only [FenceRedactor.new, List.mem_cons, List.not_mem_nil, or_false] at hm
    rcases hm with rfl | rfl | rfl | rfl
    all_goals simp [hc]
  · intro m hm
    simp only [FenceRedactor.new, List.mem_cons, List.not_mem_nil, or_false] at hm
    rcases hm with rfl | rfl | rfl | rfl
    all_goals simp

/-- Pieces that come after all brackets are not between any. -/
theorem bracketsKept_of_outside (hf : Foreign pieces) (ha : '<' ∉ a) (hb : ']' ∉ b) :
    BracketsKept pieces len (a ++ b) := by
  intro p x q ht _ _ y ns hy hne
  exfalso
  apply hne
  apply hy.of_free
  intro m hm hi
  have hin : '<' ∈ x := hi.subset (hf.alien m hm)
  have heq : a ++ b = (p ++ '[' :: x) ++ (']' :: q) := by simp [ht]
  rcases List.append_eq_append_iff.mp heq with ⟨z, _, hz⟩ | ⟨z, hz, _⟩
  · apply hb
    rw [hz]
    simp
  · apply ha
    rw [hz]
    simp [hin]

end Brackets

section Hydrated

variable {κ : Type}

/-- A locator as the extraction leaves it, before its row is looked up. -/
def Locator.bare (l : Locator) : Locator :=
  { l with sectionPath := none, page := none, charStart := none, charEnd := none }

def Citation.bare (c : Citation) : Citation := { c with locators := c.locators.map Locator.bare }

theorem bare_hydrateLocators (cites : List Citation)
    (rows : AList fun _ : String => ChunkLocatorRow) :
    (hydrateLocators cites rows).map Citation.bare = cites.map Citation.bare := by
  unfold hydrateLocators
  rw [List.map_map]
  apply List.map_congr_left
  intro c _
  unfold Citation.bare
  simp only [Function.comp_apply, List.map_map]
  congr 1
  apply List.map_congr_left
  intro l _
  simp only [Function.comp_apply]
  cases rows.lookup l.chunkId with
  | none => rfl
  | some row => rfl

theorem extractCitations_bare (answer : Str) (units : List (ContextUnit κ)) :
    (extractCitations answer units).map Citation.bare = extractCitations answer units := by
  rw [extractCitations_eq, List.map_map]
  apply List.map_congr_left
  intro s _
  show Citation.bare (sourceCitation answer units s) = sourceCitation answer units s
  unfold Citation.bare sourceCitation
  simp only [Citation.mk.injEq, true_and]
  conv_rhs => rw [← List.map_id (List.foldl _ _ _)]
  apply List.map_congr_left
  intro l hl
  obtain ⟨m, _, rfl⟩ := List.mem_map.mp (Grouping.mem_of_mem_foldl_pushNew hl)
  rfl

end Hydrated

section Stream

variable {κ V : Type}

/-- The text that the items show. -/
def shownText (items : List AnswerItem) : Str :=
  items.flatMap fun item =>
    match item with
    | .ok (.textDelta s) => s
    | _ => []

@[simp] theorem shownText_nil : shownText [] = [] := rfl

@[simp] theorem shownText_append (a b : List AnswerItem) :
    shownText (a ++ b) = shownText a ++ shownText b := List.flatMap_append

/-- The texts of a provider. -/
def textsOf (items : List (Except LensError StreamChunk)) : List Str :=
  items.filterMap fun item =>
    match item with
    | .ok (.textDelta s) => some s
    | _ => none

namespace AnswerCtx

/-- The units that the answer can cite and the items of the provider, if the run comes to them. -/
def generated (ctx : AnswerCtx κ V) :
    Option (List (ContextUnit κ) × List (Except LensError StreamChunk)) := do
  let qvec ← (ctx.embedQuery ctx.retrievalQuery).toOption
  let units ← (ctx.tieredSearch ctx.retrievalQuery qvec ctx.reservedHistoryTokens).toOption
  if units.isEmpty then none
  else
    let titles ← (ctx.loadSourceTitles units).toOption
    let sections ← (ctx.loadSectionLabels units).toOption
    let fit := ctx.fit units titles sections
    let items ← (ctx.generateStream (request fit)).toOption
    return (fit.units, items)

def citable (ctx : AnswerCtx κ V) : List (ContextUnit κ) := (ctx.generated.map Prod.fst).getD []

/-- The text of the model, delta by delta. -/
def modelDeltas (ctx : AnswerCtx κ V) : List Str :=
  (ctx.generated.map fun g => textsOf g.2).getD []

end AnswerCtx

namespace AnswerRun

/-- The runs by any polls and trips. -/
def Polled (ctx : AnswerCtx κ V) : AnswerRun → Prop :=
  Relation.ReflTransGen (fun s s' => ∃ move, s.step move = some s') (start ctx)

def IsDone (item : AnswerItem) : Prop := ∃ t g n, item = .ok (.done t g n)

/-- What a run has handed out are the first items of the stream. -/
theorem Polled.out {ctx : AnswerCtx κ V} {s : AnswerRun} (h : Polled ctx s) :
    ∃ before after, ctx.answerStream = before ++ after ∧ s.out = emissions before ∧
      (s.rest = after ∨ s.rest = []) := by
  induction h with
  | refl => exact ⟨[], ctx.answerStream, rfl, rfl, .inl rfl⟩
  | @tail s s' _ hstep ih =>
    obtain ⟨before, after, hsplit, hout, hrest⟩ := ih
    obtain ⟨move, hmove⟩ := hstep
    cases move with
    | trip =>
      cases hmove
      exact ⟨before, after, hsplit, hout, hrest⟩
    | poll =>
      cases hs : s.rest with
      | nil => simp [step, hs] at hmove
      | cons next rest =>
        have hafter : after = next :: rest := by
          rcases hrest with hr | hr
          · exact hr.symm.trans hs
          · rw [hs] at hr
            cases hr
        subst hafter
        have hsplit' : ctx.answerStream = (before ++ [next]) ++ rest := by simp [hsplit]
        cases next with
        | emit item =>
          simp only [step, hs, Option.some.injEq] at hmove
          subst hmove
          exact ⟨before ++ [.emit item], rest, hsplit', by simp [hout], .inl rfl⟩
        | look =>
          simp only [step, hs, Option.some.injEq] at hmove
          subst hmove
          refine ⟨before ++ [.look], rest, hsplit', ?_, ?_⟩
          · rw [emissions_append, ← hout]
            split
            · simp
            · simp
          · split
            · exact .inr rfl
            · exact .inl rfl

/-- Nothing comes after `Done`. -/
def DoneLast : List AnswerStep → Prop
  | [] => True
  | .emit item :: steps => (IsDone item → steps = []) ∧ DoneLast steps
  | .look :: steps => DoneLast steps

theorem DoneLast.whole {before after : List AnswerStep} (h : DoneLast (before ++ after))
    {item : AnswerItem} (hd : IsDone item) (hm : item ∈ emissions before) : after = [] := by
  induction before with
  | nil => cases hm
  | cons next before ih =>
    cases next with
    | look => exact ih h hm
    | emit item' =>
      rcases List.mem_cons.mp hm with rfl | hm
      · exact (List.append_eq_nil_iff.mp (h.1 hd)).2
      · exact ih h.2 hm

theorem notDone_text {s : Str} : ¬ IsDone (.ok (.textDelta s)) := by
  intro h
  obtain ⟨t, g, n, h⟩ := h
  cases h

theorem doneLast_emitText (text : Str) {steps : List AnswerStep} (h : DoneLast steps) :
    DoneLast (AnswerCtx.emitText text ++ steps) := by
  unfold AnswerCtx.emitText
  split
  · exact h
  · exact ⟨fun hd => (notDone_text hd).elim, h⟩

theorem doneLast_stageOnce (started : Bool) (stage : AnswerStage) {steps : List AnswerStep}
    (h : DoneLast steps) : DoneLast (AnswerCtx.stageOnce started stage ++ steps) := by
  unfold AnswerCtx.stageOnce
  split
  · exact h
  · refine ⟨?_, h⟩
    intro hd
    obtain ⟨t, g, n, hd⟩ := hd
    cases hd

theorem doneLast_error (err : LensError) : DoneLast [.emit (.error err)] := ⟨fun _ => rfl, trivial⟩

variable (ctx : AnswerCtx κ V)

theorem doneLast_finish (units : List (ContextUnit κ)) (relay : AnswerCtx.Relay) :
    DoneLast (ctx.finish units relay) := by
  unfold AnswerCtx.finish
  apply doneLast_emitText
  split
  · exact doneLast_error _
  · refine ⟨?_, fun _ => rfl, trivial⟩
    intro hd
    obtain ⟨t, g, n, hd⟩ := hd
    cases hd

theorem doneLast_relayItems (units : List (ContextUnit κ)) (relay : AnswerCtx.Relay)
    (items : List (Except LensError StreamChunk)) : DoneLast (ctx.relayItems units relay items) := by
  induction items generalizing relay with
  | nil => exact doneLast_finish ctx units relay
  | cons item items ih =>
    match item with
    | .error err => exact doneLast_error err
    | .ok (.done t) => exact ih _
    | .ok (.thinkingDelta s) =>
      apply doneLast_stageOnce
      refine ⟨?_, ih _⟩
      intro hd
      obtain ⟨t, g, n, hd⟩ := hd
      cases hd
    | .ok (.textDelta s) =>
      apply doneLast_stageOnce
      exact doneLast_emitText _ (ih _)

section Emitted

variable {ctx} {units : List (ContextUnit κ)} {relay : AnswerCtx.Relay} {cites : List Citation}

theorem emissions_emitText (text : Str) :
    shownText (emissions (AnswerCtx.emitText text)) = text ∧
      ∀ item ∈ emissions (AnswerCtx.emitText text), ∃ s, item = .ok (.textDelta s) := by
  unfold AnswerCtx.emitText
  split
  · rename_i hempty
    exact ⟨(List.isEmpty_iff.mp hempty).symm, nofun⟩
  · refine ⟨List.append_nil text, ?_⟩
    intro item hm
    exact ⟨text, List.mem_singleton.mp hm⟩

theorem emissions_stageOnce (started : Bool) (stage : AnswerStage) :
    shownText (emissions (AnswerCtx.stageOnce started stage)) = [] ∧
      ∀ item ∈ emissions (AnswerCtx.stageOnce started stage), ∃ s, item = .ok (.stage s) := by
  unfold AnswerCtx.stageOnce
  split
  · exact ⟨rfl, nofun⟩
  · refine ⟨rfl, ?_⟩
    intro item hm
    exact ⟨stage, List.mem_singleton.mp hm⟩

theorem finish_citations (h : .ok (.citations cites) ∈ emissions (ctx.finish units relay)) :
    cites.map Citation.bare = extractCitations relay.answerText units ∧
      shownText (emissions (ctx.finish units relay)) = relay.redactor.flush.1 := by
  obtain ⟨htext, honly⟩ := emissions_emitText relay.redactor.flush.1
  unfold AnswerCtx.finish at h ⊢
  simp only [emissions_look, emissions_append] at h ⊢
  rw [shownText_append, htext]
  rcases List.mem_append.mp h with h | h
  · obtain ⟨s, hs⟩ := honly _ h
    cases hs
  · cases hrows : ctx.loadChunkLocators (distinctChunkIds
        (extractCitations relay.answerText units)) with
    | error err =>
      rw [hrows] at h
      cases List.mem_singleton.mp h
    | ok rows =>
      rw [hrows] at h
      simp only [emissions_look, emissions_emit, emissions_nil, List.mem_cons, List.not_mem_nil,
        or_false, Except.ok.injEq, AnswerEvent.citations.injEq, reduceCtorEq] at h
      refine ⟨?_, List.append_nil _⟩
      rw [h, bare_hydrateLocators, extractCitations_bare]

/-- The citations are drawn from the text of the model, and the text that is shown is what the
redactor leaves of it. -/
theorem relayItems_citations {items : List (Except LensError StreamChunk)}
    (h : .ok (.citations cites) ∈ emissions (ctx.relayItems units relay items)) :
    cites.map Citation.bare =
        extractCitations (relay.answerText ++ (textsOf items).flatten) units ∧
      shownText (emissions (ctx.relayItems units relay items)) =
        relay.redactor.redact (textsOf items) := by
  induction items generalizing relay with
  | nil =>
    have hfin := finish_citations h
    refine ⟨?_, hfin.2⟩
    rw [hfin.1]
    simp [textsOf]
  | cons item items ih =>
    match item with
    | .error err =>
      simp only [AnswerCtx.relayItems, emissions_look, emissions_emit, emissions_nil,
        List.mem_cons, List.not_mem_nil, or_false, reduceCtorEq] at h
    | .ok (.done t) => exact ih h
    | .ok (.thinkingDelta s) =>
      obtain ⟨htext, honly⟩ := emissions_stageOnce relay.thinkingStarted .thinking
      simp only [AnswerCtx.relayItems, emissions_look, emissions_append, emissions_emit] at h ⊢
      rcases List.mem_append.mp h with h | h
      · obtain ⟨stage, hs⟩ := honly _ h
        cases hs
      · have hrest := ih ((List.mem_cons.mp h).resolve_left (by simp))
        refine ⟨hrest.1, ?_⟩
        rw [shownText_append, htext]
        exact hrest.2
    | .ok (.textDelta s) =>
      obtain ⟨hstage, hstages⟩ := emissions_stageOnce relay.answeringStarted .answering
      obtain ⟨htext, htexts⟩ := emissions_emitText (relay.redactor.push s).1
      simp only [AnswerCtx.relayItems, emissions_look, emissions_append] at h ⊢
      rcases List.mem_append.mp h with h | h
      · obtain ⟨stage, hs⟩ := hstages _ h
        cases hs
      rcases List.mem_append.mp h with h | h
      · obtain ⟨text, hs⟩ := htexts _ h
        cases hs
      · have hrest := ih h
        refine ⟨?_, ?_⟩
        · rw [hrest.1]
          simp [textsOf]
        · rw [shownText_append, shownText_append, hstage, htext, hrest.2]
          simp [textsOf, FenceRedactor.redact, FenceRedactor.feed]

/-- `Done` comes with citations. -/
theorem relayItems_done {items : List (Except LensError StreamChunk)} {item : AnswerItem}
    (hd : IsDone item) (h : item ∈ emissions (ctx.relayItems units relay items)) :
    ∃ cites, .ok (.citations cites) ∈ emissions (ctx.relayItems units relay items) := by
  obtain ⟨t, g, n, rfl⟩ := hd
  induction items generalizing relay with
  | nil =>
    unfold AnswerCtx.relayItems AnswerCtx.finish at h ⊢
    simp only [emissions_look, emissions_append] at h ⊢
    rcases List.mem_append.mp h with h | h
    · obtain ⟨s, hs⟩ := (emissions_emitText _).2 _ h
      cases hs
    · cases hrows : ctx.loadChunkLocators (distinctChunkIds
          (extractCitations relay.answerText units)) with
      | error err =>
        rw [hrows] at h
        cases List.mem_singleton.mp h
      | ok rows => exact ⟨_, List.mem_append_right _ List.mem_cons_self⟩
  | cons item items ih =>
    rcases item with err | chunk
    · simp [AnswerCtx.relayItems] at h
    cases chunk with
    | done t' => exact ih h
    | thinkingDelta s =>
      simp only [AnswerCtx.relayItems, emissions_look, emissions_append, emissions_emit] at h ⊢
      rcases List.mem_append.mp h with h | h
      · obtain ⟨stage, hs⟩ := (emissions_stageOnce _ _).2 _ h
        cases hs
      · obtain ⟨cites, hc⟩ := ih ((List.mem_cons.mp h).resolve_left (by simp))
        exact ⟨cites, List.mem_append_right _ (List.mem_cons_of_mem _ hc)⟩
    | textDelta s =>
      simp only [AnswerCtx.relayItems, emissions_look, emissions_append] at h ⊢
      rcases List.mem_append.mp h with h | h
      · obtain ⟨stage, hs⟩ := (emissions_stageOnce _ _).2 _ h
        cases hs
      rcases List.mem_append.mp h with h | h
      · obtain ⟨text, hs⟩ := (emissions_emitText _).2 _ h
        cases hs
      · obtain ⟨cites, hc⟩ := ih h
        exact ⟨cites, List.mem_append_right _ (List.mem_append_right _ hc)⟩

end Emitted

section Whole

variable {ctx : AnswerCtx κ V}

/-- The citations of the stream are those of the text that it shows, up to the rows looked up. -/
def CitationsMatch (ctx : AnswerCtx κ V) (items : List AnswerItem) : Prop :=
  (∃ cites, .ok (.citations cites) ∈ items) ∧ ∀ cites, .ok (.citations cites) ∈ items →
    cites.map Citation.bare = extractCitations (shownText items) ctx.citable

theorem extractCitations_noUnits (s : Str) :
    extractCitations s ([] : List (ContextUnit κ)) = [] := by
  have hnone : namedUnits s ([] : List (ContextUnit κ)) = [] := by
    unfold namedUnits
    apply List.filterMap_eq_nil_iff.mpr
    intro m _
    simp
  unfold extractCitations
  rw [hnone]
  rfl

/-- What the stream hands out before it answers. -/
def Opening (steps : List AnswerStep) : Prop :=
  ∃ k, steps = .emit (.ok (.stage .retrieving)) :: List.replicate k .look

theorem Opening.emissions {steps : List AnswerStep} (h : Opening steps) :
    emissions steps = [.ok (.stage .retrieving)] := by
  obtain ⟨k, rfl⟩ := h
  have hlooks : ∀ k, LensLM.emissions (List.replicate k .look) = [] := by
    intro k
    induction k with
    | zero => rfl
    | succ k ih => exact ih
  rw [emissions_emit, hlooks]

/-- The stream comes to the items of the provider, to an answer without a model, or to an error. -/
theorem answerStream_cases (ctx : AnswerCtx κ V) : ∃ opening, Opening opening ∧
    ((∃ units items, ctx.generated = some (units, items) ∧
        ctx.answerStream = opening ++ ctx.relayItems units (.new ctx.nonce) items) ∨
      (ctx.generated = none ∧ (ctx.answerStream = opening ++ ctx.noSources ∨
        ∃ err, ctx.answerStream = opening ++ [.emit (.error err)]))) := by
  unfold AnswerCtx.generated AnswerCtx.answerStream AnswerCtx.generateAnswer
  cases ctx.embedQuery ctx.retrievalQuery with
  | error err => exact ⟨_, ⟨2, rfl⟩, .inr ⟨rfl, .inr ⟨err, rfl⟩⟩⟩
  | ok qvec =>
    dsimp only [Except.toOption, Option.bind_eq_bind, Option.bind_some]
    cases ctx.tieredSearch ctx.retrievalQuery qvec ctx.reservedHistoryTokens with
    | error err => exact ⟨_, ⟨3, rfl⟩, .inr ⟨rfl, .inr ⟨err, rfl⟩⟩⟩
    | ok units =>
      dsimp only [Except.toOption, Option.bind_some]
      cases hempty : units.isEmpty with
      | true => exact ⟨_, ⟨4, rfl⟩, .inr ⟨rfl, .inl rfl⟩⟩
      | false =>
        simp only [Bool.false_eq_true, if_false]
        cases ctx.loadSourceTitles units with
        | error err => exact ⟨_, ⟨4, rfl⟩, .inr ⟨rfl, .inr ⟨err, rfl⟩⟩⟩
        | ok titles =>
          cases ctx.loadSectionLabels units with
          | error err => exact ⟨_, ⟨4, rfl⟩, .inr ⟨rfl, .inr ⟨err, rfl⟩⟩⟩
          | ok sections =>
            dsimp only [Option.bind_some]
            cases ctx.generateStream (AnswerCtx.request (ctx.fit units titles sections)) with
            | error err => exact ⟨_, ⟨5, rfl⟩, .inr ⟨rfl, .inr ⟨err, rfl⟩⟩⟩
            | ok items => exact ⟨_, ⟨5, rfl⟩, .inl ⟨_, items, rfl, rfl⟩⟩

theorem doneLast_opening {opening steps : List AnswerStep} (h : Opening opening)
    (hs : DoneLast steps) : DoneLast (opening ++ steps) := by
  obtain ⟨k, rfl⟩ := h
  refine ⟨?_, ?_⟩
  · intro hd
    obtain ⟨t, g, n, hd⟩ := hd
    cases hd
  · induction k with
    | zero => exact hs
    | succ k ih => exact ih

theorem doneLast_noSources (ctx : AnswerCtx κ V) : DoneLast ctx.noSources := by
  unfold AnswerCtx.noSources
  split
  · exact doneLast_error _
  · exact doneLast_error _
  · refine ⟨?_, ?_, ?_, fun _ => rfl, trivial⟩
    all_goals
      intro hd
      obtain ⟨t, g, n, hd⟩ := hd
      cases hd

theorem doneLast_answerStream (ctx : AnswerCtx κ V) : DoneLast ctx.answerStream := by
  obtain ⟨opening, hopen, ⟨units, items, _, heq⟩ | ⟨_, heq | ⟨err, heq⟩⟩⟩ := answerStream_cases ctx
  · rw [heq]
    exact doneLast_opening hopen (doneLast_relayItems ctx _ _ _)
  · rw [heq]
    exact doneLast_opening hopen (doneLast_noSources ctx)
  · rw [heq]
    exact doneLast_opening hopen (doneLast_error err)

/-- A run that comes to `Done` has handed out the whole stream. -/
theorem Polled.whole {s : AnswerRun} (h : Polled ctx s) {item : AnswerItem} (hd : IsDone item)
    (hm : item ∈ s.out) : s.out = emissions ctx.answerStream := by
  obtain ⟨before, after, hsplit, hout, _⟩ := h.out
  have hlast := doneLast_answerStream ctx
  rw [hsplit] at hlast
  rw [hout] at hm ⊢
  rw [hsplit, hlast.whole hd hm, List.append_nil]

/-- In a run that comes to `Done` the citations are those of the text that is shown, as long as no
marker is cut from between brackets so that what is left cites a unit. -/
theorem citations_match_shown (ho : '[' ∉ ctx.nonce) (hc : ']' ∉ ctx.nonce)
    (hkept : BracketsKept (FenceRedactor.new ctx.nonce).markers ctx.citable.length
      ctx.modelDeltas.flatten) {s : AnswerRun} (h : Polled ctx s) {item : AnswerItem}
    (hd : IsDone item) (hm : item ∈ s.out) : CitationsMatch ctx s.out := by
  have hwhole := h.whole hd hm
  rw [hwhole] at hm ⊢
  obtain ⟨opening, hopen, ⟨units, items, hgen, heq⟩ | ⟨hgen, heq | ⟨err, heq⟩⟩⟩ :=
    answerStream_cases ctx
  · rw [heq, emissions_append, hopen.emissions] at hm ⊢
    have hunits : ctx.citable = units := by simp [AnswerCtx.citable, hgen]
    have hdeltas : ctx.modelDeltas = textsOf items := by simp [AnswerCtx.modelDeltas, hgen]
    rw [hunits, hdeltas] at hkept
    have hdone := (List.mem_cons.mp hm).resolve_left (by
      rintro rfl
      obtain ⟨t, g, n, hd⟩ := hd
      cases hd)
    obtain ⟨cites, hcites⟩ := relayItems_done hd hdone
    refine ⟨⟨cites, List.mem_cons_of_mem _ hcites⟩, ?_⟩
    intro cites hcites
    obtain ⟨hmodel, hshown⟩ :=
      relayItems_citations ((List.mem_cons.mp hcites).resolve_left (by simp))
    rw [hmodel, hunits, shownText_append, hshown]
    apply extractCitations_congr
    exact (citedNumbers_cuts (FenceRedactor.redact_cuts ctx.nonce (textsOf items))
      (foreign_markers ho hc) hkept).2
  · rw [heq, emissions_append, hopen.emissions] at hm ⊢
    have hunits : ctx.citable = [] := by simp [AnswerCtx.citable, hgen]
    rw [CitationsMatch, hunits, extractCitations_noUnits]
    have hdone := (List.mem_cons.mp hm).resolve_left (by
      rintro rfl
      obtain ⟨t, g, n, hd⟩ := hd
      cases hd)
    obtain ⟨t, g, n, rfl⟩ := hd
    unfold AnswerCtx.noSources at hdone ⊢
    split at hdone
    · cases List.mem_singleton.mp hdone
    · cases List.mem_singleton.mp hdone
    · refine ⟨⟨[], by simp⟩, ?_⟩
      intro cites hcites
      simp only [emissions_emit, emissions_nil, List.mem_append, List.mem_cons, List.not_mem_nil,
        or_false, Except.ok.injEq, AnswerEvent.citations.injEq, reduceCtorEq, false_or] at hcites
      rw [hcites]
      rfl
  · rw [heq, emissions_append, hopen.emissions] at hm
    obtain ⟨t, g, n, rfl⟩ := hd
    simp at hm

end Whole

section Examples

theorem polled_of_moves {ctx : AnswerCtx κ V} {moves : List AnswerMove} {s s' : AnswerRun}
    (hs : Polled ctx s) (h : moves.foldlM AnswerRun.step s = some s') : Polled ctx s' := by
  induction moves generalizing s with
  | nil =>
    cases h
    exact hs
  | cons move moves ih =>
    rw [List.foldlM_cons] at h
    obtain ⟨t, ht, h⟩ := Option.bind_eq_some_iff.mp h
    exact ih (hs.tail ⟨move, ht⟩) h

/-- A model that answers with one text. -/
def answers (text : String) : AnswerCtx Nat Unit :=
  { thinkingOnly with
    generateStream := fun _ => .ok [.ok (.textDelta text.toList), .ok (.done 7)] }

/-- The run when the token does not trip. -/
def untripped (text : String) : Option AnswerRun :=
  (List.replicate 14 .poll).foldlM AnswerRun.step (start (answers text))

/-- `[1]` is shown and not cited. -/
theorem cut_in_brackets_uncited : ∃ s, Polled (answers "[<SRC:9f>1]") s ∧
    (∃ item ∈ s.out, IsDone item) ∧ ¬ CitationsMatch (answers "[<SRC:9f>1]") s.out := by
  have h : (untripped "[<SRC:9f>1]").any (fun s =>
      decide (.ok (.done 7 false 0) ∈ s.out) && decide (.ok (.citations []) ∈ s.out) &&
        extractCitations (shownText s.out) (answers "[<SRC:9f>1]").citable != []) = true := by
    decide +kernel
  obtain ⟨s, hs, hp⟩ := (Option.any_eq_true _ _).mp h
  simp only [Bool.and_eq_true, decide_eq_true_eq, bne_iff_ne] at hp
  refine ⟨s, polled_of_moves .refl hs, ⟨_, hp.1.1, 7, false, 0, rfl⟩, ?_⟩
  intro hmatch
  exact hp.2 (hmatch.2 [] hp.1.2).symm

theorem citations_match_shown_after : ∃ s, Polled (answers "[1]<SRC:9f>") s ∧
    CitationsMatch (answers "[1]<SRC:9f>") s.out := by
  have h : (untripped "[1]<SRC:9f>").any (fun s =>
      decide (.ok (.done 7 true 1) ∈ s.out)) = true := by
    decide +kernel
  obtain ⟨s, hs, hp⟩ := (Option.any_eq_true _ _).mp h
  have hpolled := polled_of_moves .refl hs
  have htext : (answers "[1]<SRC:9f>").modelDeltas.flatten = "[1]".toList ++ "<SRC:9f>".toList := by
    decide +kernel
  refine ⟨s, hpolled, citations_match_shown (by decide) (by decide) ?_ hpolled ⟨7, true, 1, rfl⟩
    (of_decide_eq_true hp)⟩
  rw [htext]
  exact bracketsKept_of_outside (foreign_markers (by decide) (by decide)) (by decide) (by decide)

end Examples

end AnswerRun

end Stream

end LensLM
