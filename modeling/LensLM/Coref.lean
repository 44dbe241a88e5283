import LensLM.Block
import LensLM.EntityGraph
import LensLM.Lib.Edits
import LensLM.Lib.Ranking

/-!
# Coreference substitutions

The model proposes substitutions by codepoint offsets. Those that fit the text are applied from
right to left, so that the offsets of the rest stay those of the original.
-/

namespace LensLM

open ByteText Edits Ranking

set_option autoImplicit false

/-- A `CorefSub` with the mention that it quotes. -/
structure QuotedSub extends CorefSub where
  mention : Str
deriving DecidableEq

def QuotedSub.edit (sub : QuotedSub) : Edit Char := ⟨sub.charStart, sub.charEnd, sub.antecedent⟩

section Offsets

/-- The byte offset of a codepoint or of the end. -/
def byteOfCodepoint (text : Str) (i : Nat) : Option Nat :=
  -- `char_indices()` never yields the past-the-end index
  if i = text.length then some (byteLen text) else ((charIndices text)[i]?).map Prod.fst

def codepointRangeToBytes (text : Str) (charStart charEnd : Nat) : Option (Nat × Nat) :=
  if charEnd < charStart then none
  else
    match byteOfCodepoint text charStart, byteOfCodepoint text charEnd with
    | some s, some e => some (s, e)
    | _, _ => none

theorem charIndicesFrom_getElem? (n : Nat) (s : Str) (i : Nat) : (charIndicesFrom n s)[i]? =
    (s[i]?).map fun c => (n + byteLen (s.take i), c) := by
  induction s generalizing n i with
  | nil => simp [charIndicesFrom]
  | cons c s ih =>
    cases i with
    | zero => simp [charIndicesFrom]
    | succ i =>
      rw [charIndicesFrom, List.getElem?_cons_succ, List.getElem?_cons_succ, ih,
        List.take_succ_cons, byteLen_cons, Nat.add_assoc]

theorem byteOfCodepoint_eq (text : Str) (i : Nat) :
    byteOfCodepoint text i = if i ≤ text.length then some (byteLen (text.take i)) else none := by
  unfold byteOfCodepoint
  by_cases heq : i = text.length
  · rw [if_pos heq, if_pos (Nat.le_of_eq heq), heq, List.take_length]
  · rw [if_neg heq, charIndices, charIndicesFrom_getElem?]
    by_cases hle : i ≤ text.length
    · rw [if_pos hle, List.getElem?_eq_getElem (Nat.lt_of_le_of_ne hle heq)]
      simp
    · rw [if_neg hle, List.getElem?_eq_none (Nat.le_of_lt (Nat.lt_of_not_le hle))]
      rfl

/-- A range is converted exactly where it lies in the text. -/
theorem codepointRangeToBytes_eq (text : Str) (a b : Nat) : codepointRangeToBytes text a b =
    if a ≤ b ∧ b ≤ text.length then some (byteLen (text.take a), byteLen (text.take b))
    else none := by
  unfold codepointRangeToBytes
  rw [byteOfCodepoint_eq, byteOfCodepoint_eq]
  by_cases hab : b < a
  · rw [if_pos hab, if_neg (by omega)]
  · rw [if_neg hab]
    by_cases hb : b ≤ text.length
    · rw [if_pos hb, if_pos (by omega), if_pos ⟨Nat.le_of_not_lt hab, hb⟩]
    · have hout : ¬ (a ≤ b ∧ b ≤ text.length) := fun h => hb h.2
      rw [if_neg hb, if_neg hout]
      split
      · next hnone => cases hnone
      · rfl

theorem codepointRange_append (p m q : Str) :
    codepointRangeToBytes (p ++ (m ++ q)) p.length (p.length + m.length) =
      some (byteLen p, byteLen p + byteLen m) := by
  have htake : (p ++ (m ++ q)).take (p.length + m.length) = p ++ m := by
    rw [← List.append_assoc, ← List.length_append, List.take_left]
  rw [codepointRangeToBytes_eq, if_pos, htake, List.take_left, byteLen_append]
  simp only [List.length_append]
  omega

end Offsets

section Validation

variable (toLowercase : Str → Str) (text : Str) (allowedAntecedents : List Str)

def isValidSub (sub : QuotedSub) : Except Fault Bool :=
  if trim sub.antecedent = [] then .ok false
  else
    match codepointRangeToBytes text sub.charStart sub.charEnd with
    | none => .ok false
    | some (byteStart, byteEnd) => do
      let quoted ← sliceBytes text byteStart byteEnd
      if quoted ≠ sub.mention then .ok false
      else .ok (allowedAntecedents.any fun a => toLowercase a == toLowercase sub.antecedent)

def validSubs : List QuotedSub → Except Fault (List QuotedSub)
  | [] => .ok []
  | sub :: subs => do
    let keep ← isValidSub toLowercase text allowedAntecedents sub
    let kept ← validSubs subs
    .ok (if keep then sub :: kept else kept)

/-- The mention stands in the text at the offsets. -/
def QuotedSub.Quotes (sub : QuotedSub) : Prop :=
  sub.charStart ≤ sub.charEnd ∧ sub.charEnd ≤ text.length ∧
    (text.drop sub.charStart).take (sub.charEnd - sub.charStart) = sub.mention

/-- A substitution that may be applied. -/
def QuotedSub.Valid (sub : QuotedSub) : Prop :=
  trim sub.antecedent ≠ [] ∧ sub.Quotes text ∧
    ∃ a ∈ allowedAntecedents, toLowercase a = toLowercase sub.antecedent

instance (sub : QuotedSub) : Decidable (sub.Quotes text) :=
  inferInstanceAs (Decidable (_ ∧ _ ∧ _))

instance (sub : QuotedSub) : Decidable (sub.Valid toLowercase text allowedAntecedents) :=
  inferInstanceAs (Decidable (_ ∧ _ ∧ _))

variable {text}

theorem split_at_codepoints {a b : Nat} (hle : a ≤ b) :
    text = text.take a ++ ((text.drop a).take (b - a) ++ text.drop b) := by
  have hdrop : text.drop b = (text.drop a).drop (b - a) := by
    rw [List.drop_drop, Nat.add_sub_cancel' hle]
  rw [hdrop, List.take_append_drop, List.take_append_drop]

theorem QuotedSub.Quotes.split {sub : QuotedSub} (h : sub.Quotes text) : ∃ p q,
    text = p ++ (sub.mention ++ q) ∧ sub.charStart = p.length ∧
      sub.charEnd = sub.charStart + sub.mention.length := by
  obtain ⟨hle, hlen, hmention⟩ := h
  refine ⟨text.take sub.charStart, text.drop sub.charEnd, ?_, ?_, ?_⟩
  · rw [← hmention]
    exact split_at_codepoints hle
  · rw [List.length_take]
    omega
  · rw [← hmention, List.length_take, List.length_drop]
    omega

theorem slice_codepoints {a b : Nat} (hle : a ≤ b) :
    slice text (byteLen (text.take a)) (byteLen (text.take b)) =
      some ((text.drop a).take (b - a)) := by
  apply slice_eq_some.mpr
  refine ⟨text.take a, text.drop b, split_at_codepoints hle, rfl, ?_⟩
  rw [← byteLen_append, ← List.take_add, Nat.add_sub_cancel' hle]

theorem isValidSub_eq (sub : QuotedSub) : isValidSub toLowercase text allowedAntecedents sub =
    .ok (decide (sub.Valid toLowercase text allowedAntecedents)) := by
  unfold isValidSub
  by_cases hblank : trim sub.antecedent = []
  · rw [if_pos hblank, decide_eq_false fun h => h.1 hblank]
  · rw [if_neg hblank]
    rw [codepointRangeToBytes_eq]
    by_cases hrange : sub.charStart ≤ sub.charEnd ∧ sub.charEnd ≤ text.length
    · simp only [if_pos hrange, sliceBytes_of_slice (slice_codepoints hrange.1), Bind.bind,
        Except.bind]
      by_cases hmention : (text.drop sub.charStart).take (sub.charEnd - sub.charStart) = sub.mention
      · rw [if_neg (not_not_intro hmention)]
        congr 1
        apply Bool.eq_iff_iff.mpr
        simp [QuotedSub.Valid, QuotedSub.Quotes, hblank, hrange, hmention]
      · rw [if_pos hmention, decide_eq_false fun h => hmention h.2.1.2.2]
    · simp only [if_neg hrange, decide_eq_false fun h : sub.Valid toLowercase text
        allowedAntecedents => hrange ⟨h.2.1.1, h.2.1.2.1⟩]

theorem validSubs_eq (subs : List QuotedSub) : validSubs toLowercase text allowedAntecedents subs =
    .ok (subs.filter fun sub => sub.Valid toLowercase text allowedAntecedents) := by
  induction subs with
  | nil => rfl
  | cons sub subs ih =>
    rw [validSubs, isValidSub_eq, ih, List.filter_cons]
    rfl

end Validation

section Application

variable (text : Str)

/-- `String::replace_range`, which panics where the range is not one of the text. -/
def replaceRange (s : Str) (a b : Nat) (new : Str) : Except Fault Str := do
  let before ← sliceBytes s 0 a
  let _ ← sliceBytes s a b
  let after ← sliceBytes s b (byteLen s)
  .ok (before ++ (new ++ after))

/-- The loop over the sorted substitutions; `none` is the `usize::MAX` in front of the first. -/
def applyEach : List QuotedSub → Option Nat → Str → Except Fault Str
  | [], _, result => .ok result
  | sub :: subs, lastAppliedStart, result =>
    if lastAppliedStart.any (· < sub.charEnd) then applyEach subs lastAppliedStart result
    else
      match codepointRangeToBytes text sub.charStart sub.charEnd with
      | none => applyEach subs lastAppliedStart result
      | some (byteStart, byteEnd) => do
        let result ← replaceRange result byteStart byteEnd sub.antecedent
        applyEach subs (some sub.charStart) result

def applySubstitutions (toLowercase : Str → Str) (subs : List QuotedSub)
    (allowedAntecedents : List Str) : Except Fault Str := do
  let valid ← validSubs toLowercase text allowedAntecedents subs
  if valid = [] then .ok text
  else applyEach text (sortByKey (fun sub => OrderDual.toDual sub.charStart) valid) none text

theorem replaceRange_append (p old q new : Str) :
    replaceRange (p ++ (old ++ q)) (byteLen p) (byteLen p + byteLen old) new =
      .ok (p ++ (new ++ q)) := by
  have hbefore : slice (p ++ (old ++ q)) 0 (byteLen p) = some p := slice_initial p (old ++ q)
  have hold : slice (p ++ (old ++ q)) (byteLen p) (byteLen p + byteLen old) = some old :=
    slice_eq_some.mpr ⟨p, q, rfl, rfl, rfl⟩
  have hafter : slice (p ++ (old ++ q)) (byteLen p + byteLen old)
      (byteLen (p ++ (old ++ q))) = some q := by
    apply slice_eq_some.mpr
    refine ⟨p ++ old, [], by simp, by simp, ?_⟩
    simp only [byteLen_append]
    omega
  simp only [replaceRange, sliceBytes_of_slice hbefore, sliceBytes_of_slice hold,
    sliceBytes_of_slice hafter, Bind.bind, Except.bind]

variable {text}

/-- The start of the substitution applied last, at which the untouched part ends. -/
def lastStart (applied : List QuotedSub) : Option Nat := applied.head?.map fun sub => sub.charStart

/-- What a substitution ends before when it is applied, and what it runs into when it is not. -/
theorem lastStart_any (applied : List QuotedSub) (stop : Nat) (hstop : stop ≤ text.length) :
    if (lastStart applied).any (· < stop) then ∃ a ∈ applied, a.charStart < stop
    else stop ≤ (lastStart applied).getD text.length := by
  cases applied with
  | nil => simpa [lastStart] using hstop
  | cons a applied =>
    by_cases h : a.charStart < stop
    · simp [lastStart, h]
    · simp [lastStart, h, Nat.le_of_not_lt h]

/-- A substitution that ends before the untouched part does is carried out there. -/
theorem applyEach_step {sub : QuotedSub} {applied : List QuotedSub} {result : Str}
    (hquotes : sub.Quotes text)
    (hedited : EditedFrom text ((lastStart applied).getD text.length)
      (applied.map QuotedSub.edit) result)
    (hfree : sub.charEnd ≤ (lastStart applied).getD text.length)
    (hany : (lastStart applied).any (· < sub.charEnd) = false) (subs : List QuotedSub) : ∃ out,
    applyEach text (sub :: subs) (lastStart applied) result =
      applyEach text subs (lastStart (sub :: applied)) out ∧
    EditedFrom text ((lastStart (sub :: applied)).getD text.length)
      ((sub :: applied).map QuotedSub.edit) out := by
  obtain ⟨p, q, htext, hstart, hend⟩ := hquotes.split
  obtain ⟨q', rfl, hnext⟩ :=
    hedited.step (e := sub.edit) htext hstart hend hfree
  refine ⟨p ++ (sub.antecedent ++ q'), ?_, hnext⟩
  have hrange : codepointRangeToBytes text sub.charStart sub.charEnd =
      some (byteLen p, byteLen p + byteLen sub.mention) := by
    rw [hend, hstart, htext]
    exact codepointRange_append p sub.mention q
  rw [applyEach, hany, hrange]
  simp only [Bool.false_eq_true, if_false, replaceRange_append, Bind.bind, Except.bind]
  rfl

/-- The loop makes disjoint replacements; what it leaves out reaches beyond the start of one of
them. -/
theorem applyEach_spec {R : QuotedSub → QuotedSub → Prop} (subs : List QuotedSub) :
    ∀ (applied : List QuotedSub) (result : Str), (∀ s ∈ subs, s.Quotes text) →
      subs.Pairwise R → (∀ a ∈ applied, ∀ s ∈ subs, R a s) →
      EditedFrom text ((lastStart applied).getD text.length)
        (applied.map QuotedSub.edit) result →
      ∃ (out : Str) (taken dropped : List QuotedSub),
        applyEach text subs (lastStart applied) result = .ok out ∧
        applied ⊆ taken ∧ (taken ++ dropped).Perm (applied ++ subs) ∧
        Replaced 0 (taken.map QuotedSub.edit) text out ∧
        ∀ s ∈ dropped, ∃ a ∈ taken, R a s ∧ a.charStart < s.charEnd := by
  induction subs with
  | nil =>
    intro applied result _ _ _ hedited
    exact ⟨result, applied, [], rfl, List.Subset.refl _, List.Perm.refl _, hedited.replaced,
      nofun⟩
  | cons s subs ih =>
    intro applied result hquotes hpair hfront hedited
    obtain ⟨hhead, hpair⟩ := List.pairwise_cons.mp hpair
    have hs := hquotes s List.mem_cons_self
    have hrest : ∀ t ∈ subs, t.Quotes text := fun t ht => hquotes t (List.mem_cons_of_mem s ht)
    have hany := lastStart_any applied s.charEnd hs.2.1
    cases hskip : (lastStart applied).any (· < s.charEnd) with
    | true =>
      rw [hskip, if_pos rfl] at hany
      obtain ⟨a, ha, hlt⟩ := hany
      have hfront' : ∀ a ∈ applied, ∀ t ∈ subs, R a t :=
        fun a ha t ht => hfront a ha t (List.mem_cons_of_mem s ht)
      obtain ⟨out, taken, dropped, hout, hsub, hperm, hrep, hdrop⟩ :=
        ih applied result hrest hpair hfront' hedited
      refine ⟨out, taken, s :: dropped, ?_, hsub, ?_, hrep, ?_⟩
      · rw [applyEach, hskip, if_pos rfl, hout]
      · exact List.perm_middle.trans ((hperm.cons s).trans List.perm_middle.symm)
      · intro t ht
        cases List.mem_cons.mp ht with
        | inl heq =>
          rw [heq]
          exact ⟨a, hsub ha, hfront a ha s List.mem_cons_self, hlt⟩
        | inr ht => exact hdrop t ht
    | false =>
      rw [hskip, if_neg Bool.false_ne_true] at hany
      obtain ⟨next, hstep, hnext⟩ := applyEach_step hs hedited hany hskip subs
      have hfront' : ∀ a ∈ s :: applied, ∀ t ∈ subs, R a t := by
        intro a ha t ht
        cases List.mem_cons.mp ha with
        | inl heq =>
          rw [heq]
          exact hhead t ht
        | inr ha => exact hfront a ha t (List.mem_cons_of_mem s ht)
      obtain ⟨out, taken, dropped, hout, hsub, hperm, hrep, hdrop⟩ :=
        ih (s :: applied) next hrest hpair hfront' hnext
      refine ⟨out, taken, dropped, hstep.trans hout, ?_, ?_, hrep, hdrop⟩
      · exact fun a ha => hsub (List.mem_cons_of_mem s ha)
      · exact hperm.trans List.perm_middle.symm

variable (text)

/-- What a run is to do: to replace disjoint valid substitutions and to leave out only those that
overlap one of them. -/
def EditsAsTold (valid : List QuotedSub) (run : Except Fault Str) : Prop :=
  ∃ (out : Str) (applied dropped : List QuotedSub), run = .ok out ∧
    (applied ++ dropped).Perm valid ∧
    (applied.map QuotedSub.edit).Pairwise (fun e f => e.stop ≤ f.start) ∧
    Replaced 0 (applied.map QuotedSub.edit) text out ∧
    ∀ s ∈ dropped, ∃ a ∈ applied, s.edit.Overlaps a.edit

/-- No insertion is listed in front of a replacement at the same place. -/
def InsertionsLast (subs : List QuotedSub) : Prop :=
  subs.Pairwise fun a s => s.charStart = a.charStart → a.charEnd = a.charStart →
    s.charEnd = s.charStart

instance (subs : List QuotedSub) : Decidable (InsertionsLast subs) :=
  inferInstanceAs (Decidable (subs.Pairwise _))

variable (toLowercase : Str → Str) (subs : List QuotedSub) (allowedAntecedents : List Str)

/-- The valid substitutions, in the order of the list. -/
def valids : List QuotedSub :=
  subs.filter fun sub => sub.Valid toLowercase text allowedAntecedents

theorem quotes_of_mem_valids {s : QuotedSub}
    (h : s ∈ valids text toLowercase subs allowedAntecedents) : s.Quotes text := by
  have hvalid := (List.mem_filter.mp h).2
  exact (of_decide_eq_true hvalid).2.1

/-- The run never panics and makes disjoint replacements; what is left out reaches beyond the start
of one that is not before it and related to it as the list says. -/
theorem applySubstitutions_runs {R : QuotedSub → QuotedSub → Prop}
    (hpair : (valids text toLowercase subs allowedAntecedents).Pairwise fun a s =>
      s.charStart = a.charStart → R a s) :
    ∃ (out : Str) (applied dropped : List QuotedSub),
      applySubstitutions text toLowercase subs allowedAntecedents = .ok out ∧
      (applied ++ dropped).Perm (valids text toLowercase subs allowedAntecedents) ∧
      Replaced 0 (applied.map QuotedSub.edit) text out ∧
      ∀ s ∈ dropped, ∃ a ∈ applied, s.charStart ≤ a.charStart ∧ a.charStart < s.charEnd ∧
        (s.charStart = a.charStart → R a s) := by
  let key : QuotedSub → Natᵒᵈ := fun sub => OrderDual.toDual sub.charStart
  let sorted := sortByKey key (valids text toLowercase subs allowedAntecedents)
  have hperm : sorted.Perm (valids text toLowercase subs allowedAntecedents) :=
    sortByKey_perm _ _
  have hquotes : ∀ s ∈ sorted, s.Quotes text := fun s hs =>
    quotes_of_mem_valids text toLowercase subs allowedAntecedents (hperm.subset hs)
  have hle : sorted.Pairwise fun a s => s.charStart ≤ a.charStart :=
    (pairwise_sortByKey key _).imp fun h => OrderDual.toDual_le_toDual.mp h
  have hsame : sorted.Pairwise fun a s => s.charStart = a.charStart → R a s := by
    have hclass := pairwise_class key
      (hpair.imp fun {a s} h (heq : a.charStart = s.charStart) => h heq.symm)
    exact hclass.imp fun {a s} h heq => h (congrArg OrderDual.toDual heq.symm)
  obtain ⟨out, applied, dropped, hrun, _, hall, hrep, hdrop⟩ :=
    applyEach_spec sorted [] text hquotes (hle.and hsame) nofun
      (EditedFrom.init text)
  refine ⟨out, applied, dropped, ?_, hall.trans hperm, hrep, ?_⟩
  · simp only [applySubstitutions, validSubs_eq, Bind.bind, Except.bind]
    split
    · next hnil =>
      have hsorted : sorted = [] := List.Perm.eq_nil (hnil ▸ hperm)
      rw [hsorted] at hrun
      exact hrun
    · exact hrun
  · intro s hs
    obtain ⟨a, ha, ⟨hstart, hsame⟩, hlt⟩ := hdrop s hs
    exact ⟨a, ha, hstart, hlt, hsame⟩

theorem applySubstitutions_told
    (h : InsertionsLast (valids text toLowercase subs allowedAntecedents)) :
    EditsAsTold text (valids text toLowercase subs allowedAntecedents)
      (applySubstitutions text toLowercase subs allowedAntecedents) := by
  obtain ⟨out, applied, dropped, hrun, hperm, hrep, hdrop⟩ :=
    applySubstitutions_runs text toLowercase subs allowedAntecedents
      (R := fun a s => a.charEnd = a.charStart → s.charEnd = s.charStart) h
  refine ⟨out, applied, dropped, hrun, hperm, hrep.disjoint, hrep, ?_⟩
  intro s hs
  obtain ⟨a, ha, hle, hlt, hsame⟩ := hdrop s hs
  refine ⟨a, ha, ?_, hlt⟩
  have hspan : a.charStart ≤ a.charEnd := by
    have hmem := hperm.subset (List.mem_append_left dropped ha)
    exact (quotes_of_mem_valids text toLowercase subs allowedAntecedents hmem).1
  change s.charStart < a.charEnd
  by_cases heq : s.charStart = a.charStart
  · have hempty := hsame heq
    omega
  · omega

end Application

section Insertion

/-- An insertion and a replacement at one place. -/
def insertX : QuotedSub := ⟨⟨3, 3, ['x']⟩, []⟩

def replaceDe : QuotedSub := ⟨⟨3, 5, ['y']⟩, ['d', 'e']⟩

/-- In this order both are carried out. -/
theorem applySubstitutions_told_both :
    EditsAsTold "abcdef".toList
      (valids "abcdef".toList (List.map Char.toLower) [replaceDe, insertX] [['x'], ['y']])
      (applySubstitutions "abcdef".toList (List.map Char.toLower) [replaceDe, insertX]
        [['x'], ['y']]) ∧
    applySubstitutions "abcdef".toList (List.map Char.toLower) [replaceDe, insertX]
      [['x'], ['y']] = .ok "abcxyf".toList :=
  ⟨applySubstitutions_told _ _ _ _ (by decide +kernel), by decide +kernel⟩

/-- In the other order the replacement is left out, though the insertion changes nothing of its
span. -/
theorem insertion_drops_replacement :
    ¬ EditsAsTold "abcdef".toList
      (valids "abcdef".toList (List.map Char.toLower) [insertX, replaceDe] [['x'], ['y']])
      (applySubstitutions "abcdef".toList (List.map Char.toLower) [insertX, replaceDe]
        [['x'], ['y']]) := by
  have hvalids : valids "abcdef".toList (List.map Char.toLower) [insertX, replaceDe]
      [['x'], ['y']] = [insertX, replaceDe] := by decide +kernel
  have hcode : applySubstitutions "abcdef".toList (List.map Char.toLower) [insertX, replaceDe]
      [['x'], ['y']] = .ok "abcxdef".toList := by decide +kernel
  rw [hvalids, hcode]
  intro ⟨out, applied, dropped, hrun, hperm, _, hrep, hdrop⟩
  have happlied : replaceDe ∈ applied := by
    have hmem : replaceDe ∈ applied ++ dropped := hperm.symm.subset (by decide)
    cases List.mem_append.mp hmem with
    | inl h => exact h
    | inr h =>
      obtain ⟨a, ha, hover⟩ := hdrop replaceDe h
      cases List.mem_cons.mp (hperm.subset (List.mem_append_left dropped ha)) with
      | inl heq =>
        rw [heq] at hover
        exact absurd hover (by decide)
      | inr hin =>
        rw [← List.mem_singleton.mp hin]
        exact ha
  have hinfix : ['y'] <:+: out :=
    hrep.new_infix (List.mem_map_of_mem (f := QuotedSub.edit) happlied)
  have hy : 'y' ∈ "abcxdef".toList := by
    rw [Except.ok.inj hrun]
    exact hinfix.subset List.mem_cons_self
  exact absurd hy (by decide)

end Insertion

end LensLM
