import LensLM.Lib.ByteText
import Mathlib.Data.List.TakeWhile
import Mathlib.Tactic.Cases

/-!
# Lower-casing a text

Every character is mapped by a table, but the capital sigma by its context: at the end of a word it
becomes the final form. So the lower case of a part of a text is not a part of the lower case.
-/

namespace CaseMapping

open ByteText

set_option autoImplicit false

section Words

variable {letter : Char → Bool}

/-- No word goes on. -/
def Stops (letter : Char → Bool) (s : Str) : Prop := ∀ c ∈ s.head?, letter c = false

theorem takeWhile_append_stops (s : Str) {u : Str} (h : Stops letter u) :
    (s ++ u).takeWhile letter = s.takeWhile letter := by
  induction s with
  | nil =>
    cases u with
    | nil => rfl
    | cons c u => exact List.takeWhile_cons_of_neg (by rw [h c rfl]; exact Bool.false_ne_true)
  | cons c s ih =>
    rw [List.cons_append, List.takeWhile_cons, List.takeWhile_cons, ih]

theorem stops_dropWhile (s : Str) : Stops letter (s.dropWhile letter) := by
  intro c hc
  have hhead := List.head?_dropWhile_not letter s
  rw [Option.mem_def.mp hc] at hhead
  exact hhead

end Words

/-- The Unicode tables that lower-casing reads: a lower case is lower case already. -/
structure CaseTable where
  toLower : Char → Str
  isCased : Char → Bool
  isCaseIgnorable : Char → Bool
  ne_nil : ∀ c, toLower c ≠ []
  fixed : ∀ c, ∀ d ∈ toLower c, toLower d = [d]
  capitalSigma : toLower 'Σ' = ['σ']
  finalSigma : toLower 'ς' = ['ς']

namespace CaseTable

variable (t : CaseTable)

/-- The first character that is not ignorable is a cased one. -/
def caseIgnorableThenCased (s : Str) : Bool :=
  (s.dropWhile t.isCaseIgnorable).head?.any t.isCased

/-- What comes before is given from right to left. -/
def isWordFinal (before after : Str) : Bool :=
  t.caseIgnorableThenCased before && !t.caseIgnorableThenCased after

def lowerOne (before : Str) (c : Char) (after : Str) : Str :=
  if c = 'Σ' then [if t.isWordFinal before after then 'ς' else 'σ'] else t.toLower c

/-- A part of a text, between what comes before it, from right to left, and what comes after. -/
def lowerWithin (before : Str) : Str → Str → Str
  | [], _ => []
  | c :: s, after => t.lowerOne before c (s ++ after) ++ lowerWithin (c :: before) s after

def toLowercase (s : Str) : Str := t.lowerWithin [] s []

section Shape

variable {t}

theorem lowerOne_length (before : Str) (c : Char) (after : Str) :
    (t.lowerOne before c after).length = (t.toLower c).length := by
  unfold lowerOne
  split
  · next h =>
    rw [h, t.capitalSigma]
    rfl
  · rfl

theorem mem_lowerOne {before after : Str} {c d : Char} (h : d ∈ t.lowerOne before c after) :
    t.toLower d = [d] := by
  unfold lowerOne at h
  split at h
  · rw [List.mem_singleton.mp h]
    split
    · exact t.finalSigma
    · exact t.fixed 'Σ' 'σ' (by rw [t.capitalSigma]; exact List.mem_cons_self)
  · exact t.fixed c d h

/-- Every character of a lower case comes from one of the text. -/
theorem exists_of_mem_lowerWithin {before s after : Str} {d : Char}
    (h : d ∈ t.lowerWithin before s after) : ∃ c ∈ s, ∃ b a, d ∈ t.lowerOne b c a := by
  induction s generalizing before with
  | nil => cases h
  | cons c s ih =>
    cases List.mem_append.mp h with
    | inl h => exact ⟨c, List.mem_cons_self, before, s ++ after, h⟩
    | inr h =>
      obtain ⟨c', hc', hd⟩ := ih h
      exact ⟨c', List.mem_cons_of_mem c hc', hd⟩

theorem mem_lowerWithin {before s after : Str} {d : Char} (h : d ∈ t.lowerWithin before s after) :
    t.toLower d = [d] := by
  obtain ⟨c, _, b, a, hd⟩ := exists_of_mem_lowerWithin h
  exact mem_lowerOne hd

theorem lowerWithin_eq_self {s : Str} (h : ∀ d ∈ s, t.toLower d = [d]) (before after : Str) :
    t.lowerWithin before s after = s := by
  induction s generalizing before with
  | nil => rfl
  | cons d s ih =>
    obtain ⟨hd, hs⟩ := List.forall_mem_cons.mp h
    have hne : d ≠ 'Σ' := by
      intro heq
      rw [heq, t.capitalSigma] at hd
      exact absurd hd (by decide)
    rw [lowerWithin, ih hs, lowerOne, if_neg hne, hd]
    rfl

/-- A lower-cased text is its own lower case. -/
theorem toLowercase_lowerWithin (before s after : Str) :
    t.toLowercase (t.lowerWithin before s after) = t.lowerWithin before s after :=
  lowerWithin_eq_self (fun _ => mem_lowerWithin) [] []

theorem lowerWithin_append (before p q after : Str) : t.lowerWithin before (p ++ q) after =
    t.lowerWithin before p (q ++ after) ++ t.lowerWithin (p.reverse ++ before) q after := by
  induction p generalizing before with
  | nil => rfl
  | cons c p ih =>
    rw [List.cons_append, lowerWithin, lowerWithin, ih, List.append_assoc, List.append_assoc,
      List.reverse_cons, List.append_assoc]
    rfl

/-- The lower case of a text, part by part. -/
theorem toLowercase_split (p m q : Str) : t.toLowercase (p ++ (m ++ q)) =
    t.lowerWithin [] p (m ++ q) ++
      (t.lowerWithin p.reverse m q ++ t.lowerWithin (m.reverse ++ p.reverse) q []) := by
  simp only [toLowercase, lowerWithin_append, List.append_nil]

end Shape

section Alignment

variable {t}

/-- Every character is mapped to one character. -/
def Aligned (t : CaseTable) (s : Str) : Prop := ∀ c ∈ s, (t.toLower c).length = 1

theorem length_le_lowerWithin (before s after : Str) :
    s.length ≤ (t.lowerWithin before s after).length := by
  induction s generalizing before with
  | nil => exact Nat.le_refl 0
  | cons c s ih =>
    have hone := List.length_pos_iff.mpr (t.ne_nil c)
    have hrest := ih (c :: before)
    rw [lowerWithin, List.length_append, lowerOne_length, List.length_cons]
    omega

theorem Aligned.length {s : Str} (h : t.Aligned s) (before after : Str) :
    (t.lowerWithin before s after).length = s.length := by
  induction s generalizing before with
  | nil => rfl
  | cons c s ih =>
    obtain ⟨hc, hs⟩ := List.forall_mem_cons.mp h
    rw [lowerWithin, List.length_append, lowerOne_length, hc, ih hs, List.length_cons, Nat.add_comm]

/-- Only an aligned text keeps its length. -/
theorem aligned_of_length_le {before s after : Str}
    (h : (t.lowerWithin before s after).length ≤ s.length) : t.Aligned s := by
  induction s generalizing before with
  | nil => exact nofun
  | cons c s ih =>
    have hone := List.length_pos_iff.mpr (t.ne_nil c)
    have hle := length_le_lowerWithin (t := t) (c :: before) s after
    rw [lowerWithin, List.length_append, lowerOne_length, List.length_cons] at h
    have hrest : t.Aligned s := @ih (c :: before) (by omega)
    intro d hd
    cases List.mem_cons.mp hd with
    | inl heq =>
      rw [heq]
      omega
    | inr hd => exact hrest d hd

end Alignment

section Context

variable {t}

theorem caseIgnorableThenCased_append {s : Str} (h : t.caseIgnorableThenCased s = true) (u : Str) :
    t.caseIgnorableThenCased (s ++ u) = true := by
  induction s with
  | nil => exact absurd h (by simp [caseIgnorableThenCased])
  | cons c s ih =>
    unfold caseIgnorableThenCased at h ih ⊢
    rw [List.cons_append, List.dropWhile_cons]
    rw [List.dropWhile_cons] at h
    cases hc : t.isCaseIgnorable c with
    | true =>
      rw [hc, if_pos rfl] at h
      rw [if_pos rfl]
      exact ih h
    | false =>
      rw [hc] at h
      exact h

/-- A part is lower-cased alike in two contexts that agree on its sigmas. -/
theorem lowerWithin_congr {before before' s after after' : Str}
    (h : ∀ x y, s = x ++ 'Σ' :: y → t.isWordFinal (x.reverse ++ before) (y ++ after) =
      t.isWordFinal (x.reverse ++ before') (y ++ after')) :
    t.lowerWithin before s after = t.lowerWithin before' s after' := by
  induction s generalizing before before' with
  | nil => rfl
  | cons c s ih =>
    have hrest : t.lowerWithin (c :: before) s after =
        t.lowerWithin (c :: before') s after' := by
      apply ih
      intro x y heq
      have hxy := h (c :: x) y (by rw [heq, List.cons_append])
      simpa using hxy
    rw [lowerWithin, lowerWithin, hrest]
    congr 1
    unfold lowerOne
    split
    · next hc =>
      have hhere := h [] s (by rw [hc, List.nil_append])
      rw [List.reverse_nil, List.nil_append, List.nil_append] at hhere
      rw [hhere]
    · rfl

end Context

section Words

variable {t} {letter : Char → Bool}

/-- Where a cased character comes before a capital sigma, the sigma's own word tells whether it is
final: it has the cased character that follows, or else the one that comes before. -/
def SigmasSettled (t : CaseTable) (letter : Char → Bool) (text : Str) : Prop :=
  ∀ p q, text = p ++ 'Σ' :: q → t.caseIgnorableThenCased p.reverse = true →
    if t.caseIgnorableThenCased q then t.caseIgnorableThenCased (q.takeWhile letter) = true
    else t.caseIgnorableThenCased (p.reverse.takeWhile letter) = true

theorem caseIgnorableThenCased_takeWhile {s : Str}
    (h : t.caseIgnorableThenCased (s.takeWhile letter) = true) :
    t.caseIgnorableThenCased s = true := by
  rw [← List.takeWhile_append_dropWhile (p := letter) (l := s)]
  exact caseIgnorableThenCased_append h _

/-- Whole words are lower-cased alone as they are in the text. -/
theorem SigmasSettled.alone {p m q : Str} (h : t.SigmasSettled letter (p ++ (m ++ q)))
    (hbefore : Stops letter p.reverse) (hafter : Stops letter q) :
    t.lowerWithin p.reverse m q = t.toLowercase m := by
  apply lowerWithin_congr
  intro x y hm
  have htext : p ++ (m ++ q) = (p ++ x) ++ 'Σ' :: (y ++ q) := by
    simp [hm, List.append_assoc]
  have hsigma := h (p ++ x) (y ++ q) htext
  rw [List.reverse_append, takeWhile_append_stops _ hbefore, takeWhile_append_stops _ hafter]
    at hsigma
  rw [List.append_nil, List.append_nil]
  unfold isWordFinal
  cases hcased : t.caseIgnorableThenCased (x.reverse ++ p.reverse) with
  | false =>
    have hx : t.caseIgnorableThenCased x.reverse = false := by
      apply Bool.eq_false_iff.mpr
      intro hx
      rw [caseIgnorableThenCased_append hx] at hcased
      cases hcased
    rw [hx, Bool.false_and, Bool.false_and]
  | true =>
    have hown := hsigma hcased
    split at hown
    · next hq =>
      rw [hq, caseIgnorableThenCased_takeWhile hown]
      simp
    · next hq =>
      have hy : t.caseIgnorableThenCased y = false := by
        apply Bool.eq_false_iff.mpr
        intro hy
        exact hq (caseIgnorableThenCased_append hy q)
      rw [Bool.eq_false_iff.mpr hq, hy, caseIgnorableThenCased_takeWhile hown]

/-- A part that is lower-cased alone as in its text has the same final sigmas. -/
theorem isWordFinal_of_alone {before x y after : Str} (halign : t.Aligned x)
    (h : t.lowerWithin before (x ++ 'Σ' :: y) after = t.toLowercase (x ++ 'Σ' :: y)) :
    t.isWordFinal (x.reverse ++ before) (y ++ after) = t.isWordFinal x.reverse y := by
  unfold toLowercase at h
  rw [lowerWithin_append, lowerWithin_append] at h
  have hlen : (t.lowerWithin before x ('Σ' :: y ++ after)).length =
      (t.lowerWithin [] x ('Σ' :: y ++ [])).length := by
    rw [halign.length, halign.length]
  have hrest := (List.append_inj h hlen).2
  simp only [lowerWithin, lowerOne, List.cons_append, List.nil_append, List.append_nil, if_pos,
    List.cons.injEq] at hrest
  have hsame := hrest.1
  cases hfirst : t.isWordFinal (x.reverse ++ before) (y ++ after) with
  | true =>
    cases hsecond : t.isWordFinal x.reverse y with
    | true => rfl
    | false =>
      rw [hfirst, hsecond] at hsame
      exact absurd hsame (by decide)
  | false =>
    cases hsecond : t.isWordFinal x.reverse y with
    | false => rfl
    | true =>
      rw [hfirst, hsecond] at hsame
      exact absurd hsame (by decide)

/-- The sigmas are settled where the words, and the beginnings of the text, are lower-cased alone as
they are in it. -/
theorem SigmasSettled.of_alone {text : Str} (hsigma : letter 'Σ' = true) (halign : t.Aligned text)
    (h : ∀ p m q, text = p ++ (m ++ q) → m ≠ [] → Stops letter p.reverse → Stops letter q →
      (p = [] ∨ ∀ c ∈ m, letter c = true) → t.lowerWithin p.reverse m q = t.toLowercase m) :
    t.SigmasSettled letter text := by
  intro p q htext hcased
  have hp : t.Aligned p := fun c hc => halign c (by rw [htext]; exact List.mem_append_left _ hc)
  have hq : q.takeWhile letter ++ q.dropWhile letter = q := List.takeWhile_append_dropWhile
  split
  · next hafter =>
    -- the text up to the end of the sigma's word
    have halone := h [] (p ++ 'Σ' :: q.takeWhile letter) (q.dropWhile letter)
      (by simp [htext, hq]) (by simp) nofun (stops_dropWhile q) (.inl rfl)
    have hfinal := isWordFinal_of_alone hp halone
    simp only [isWordFinal, List.reverse_nil, List.append_nil, hq, hcased, hafter] at hfinal
    simpa using hfinal
  · next hafter =>
    -- the sigma's word
    have hpre :
        (p.reverse.dropWhile letter).reverse ++ (p.reverse.takeWhile letter).reverse = p := by
      rw [← List.reverse_append, List.takeWhile_append_dropWhile, List.reverse_reverse]
    have hu : t.Aligned (p.reverse.takeWhile letter).reverse :=
      fun c hc => hp c (by rw [← hpre]; exact List.mem_append_right _ hc)
    have hword : ∀ c ∈ (p.reverse.takeWhile letter).reverse ++ 'Σ' :: q.takeWhile letter,
        letter c = true := by
      intro c hc
      rcases List.mem_append.mp hc with hc | hc
      · exact List.mem_takeWhile_imp (List.mem_reverse.mp hc)
      · rcases List.mem_cons.mp hc with rfl | hc
        · exact hsigma
        · exact List.mem_takeWhile_imp hc
    have halone := h (p.reverse.dropWhile letter).reverse
      ((p.reverse.takeWhile letter).reverse ++ 'Σ' :: q.takeWhile letter) (q.dropWhile letter)
      (by rw [htext, List.append_assoc, List.cons_append, hq, ← List.append_assoc, hpre]) (by simp)
      (by rw [List.reverse_reverse]; exact stops_dropWhile _) (stops_dropWhile q) (.inr hword)
    have hfinal := isWordFinal_of_alone hu halone
    rw [List.reverse_reverse, List.reverse_reverse, List.takeWhile_append_dropWhile, hq] at hfinal
    unfold isWordFinal at hfinal
    rw [hcased, Bool.eq_false_iff.mpr hafter] at hfinal
    cases hown : t.caseIgnorableThenCased (p.reverse.takeWhile letter) with
    | true => rfl
    | false =>
      rw [hown] at hfinal
      cases hfinal

end Words

end CaseTable

end CaseMapping
