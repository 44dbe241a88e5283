import LensLM.Lib.LineWriter
import LensLM.Lib.Whitespace
import Mathlib.Data.List.Count

/-!
# Texts laid out with separators

A text is laid out from others if they stand in it in order with nothing but separators between
them. Then each has a place of its own, and no other characters are in it.
-/

namespace TextLayout

open ByteText Spans LineWriter

set_option autoImplicit false

variable (isSep : Char → Prop)

/-- The text consists of these texts in order, with separators around them. -/
def Laid : List Str → Str → Prop
  | [], s => ∀ c ∈ s, isSep c
  | t :: ts, s => ∃ a b, s = a ++ (t ++ b) ∧ (∀ c ∈ a, isSep c) ∧ Laid ts b

variable {isSep} {ts us : List Str} {s t u : Str}

theorem laid_empty : Laid isSep [] [] := nofun

theorem laid_singleton (t : Str) : Laid isSep [t] t := ⟨[], [], by simp, nofun, laid_empty⟩

theorem Laid.separate {a : Str} (ha : ∀ c ∈ a, isSep c) (h : Laid isSep ts s) :
    Laid isSep ts (a ++ s) := by
  cases ts with
  | nil =>
    intro c hc
    rcases List.mem_append.mp hc with hc | hc
    · exact ha c hc
    · exact h c hc
  | cons t ts =>
    obtain ⟨a', b, rfl, ha', hb⟩ := h
    refine ⟨a ++ a', b, by simp, ?_, hb⟩
    intro c hc
    rcases List.mem_append.mp hc with hc | hc
    · exact ha c hc
    · exact ha' c hc

theorem Laid.append (h : Laid isSep ts s) (h' : Laid isSep us u) :
    Laid isSep (ts ++ us) (s ++ u) := by
  induction ts generalizing s with
  | nil => exact h'.separate h
  | cons t ts ih =>
    obtain ⟨a, b, rfl, ha, hb⟩ := h
    exact ⟨a, b ++ u, by simp, ha, ih hb⟩

/-- Empty texts take no place. -/
theorem Laid.nonempty (h : Laid isSep ts s) : Laid isSep (ts.filter (· ≠ [])) s := by
  induction ts generalizing s with
  | nil => exact h
  | cons t ts ih =>
    obtain ⟨a, b, rfl, ha, hb⟩ := h
    by_cases ht : t = []
    · rw [List.filter_cons_of_neg (by simpa using ht), ht]
      exact (ih hb).separate ha
    · rw [List.filter_cons_of_pos (by simpa using ht)]
      exact ⟨a, b, rfl, ha, ih hb⟩

theorem Laid.eq_nil (h : Laid isSep ts []) : ts.filter (· ≠ []) = [] := by
  have hlaid := h.nonempty
  cases hts : ts.filter (· ≠ []) with
  | nil => rfl
  | cons t us =>
    rw [hts] at hlaid
    obtain ⟨a, b, hab, _⟩ := hlaid
    have hmem : t ∈ ts.filter (· ≠ []) := by
      rw [hts]
      exact List.mem_cons_self
    have hnil : t = [] := (List.append_eq_nil_iff.mp (List.append_eq_nil_iff.mp hab.symm).2).1
    have hne := (List.mem_filter.mp hmem).2
    simp [hnil] at hne

theorem laid_flatMap {ι : Type} {f : ι → List Str} {g : ι → Str} (l : List ι)
    (h : ∀ x ∈ l, Laid isSep (f x) (g x)) : Laid isSep (l.flatMap f) (l.flatMap g) := by
  induction l with
  | nil => exact laid_empty
  | cons x l ih =>
    rw [List.flatMap_cons, List.flatMap_cons]
    exact (h x List.mem_cons_self).append (ih fun y hy => h y (List.mem_cons_of_mem x hy))

/-- Texts that are not empty are each laid out from their own parts. -/
theorem laid_nonempty {ι : Type} {f : ι → List Str} {g : ι → Str} (l : List ι)
    (h : ∀ x ∈ l, Laid isSep (f x) (g x)) :
    ∃ tss, List.Forall₂ (Laid isSep) tss ((l.map g).filter (· ≠ [])) ∧
      tss.flatten = (l.flatMap f).filter (· ≠ []) := by
  induction l with
  | nil => exact ⟨[], List.Forall₂.nil, rfl⟩
  | cons x l ih =>
    obtain ⟨tss, htss, hflat⟩ := ih fun y hy => h y (List.mem_cons_of_mem x hy)
    have hx := h x List.mem_cons_self
    rw [List.flatMap_cons, List.filter_append, List.map_cons]
    by_cases hnil : g x = []
    · rw [hnil] at hx
      rw [hx.eq_nil, List.filter_cons_of_neg (by simpa using hnil), List.nil_append]
      exact ⟨tss, htss, hflat⟩
    · rw [List.filter_cons_of_pos (by simpa using hnil)]
      refine ⟨_ :: tss, List.Forall₂.cons hx.nonempty htss, ?_⟩
      rw [List.flatten_cons, hflat]

theorem laid_intercalate {ι : Type} {f : ι → List Str} {g : ι → Str} {sep : Str} (l : List ι)
    (hsep : ∀ c ∈ sep, isSep c) (h : ∀ x ∈ l, Laid isSep (f x) (g x)) :
    Laid isSep (l.flatMap f) (sep.intercalate (l.map g)) := by
  induction l with
  | nil => exact laid_empty
  | cons x l ih =>
    have hx := h x List.mem_cons_self
    cases l with
    | nil => simpa using hx
    | cons y l =>
      rw [List.flatMap_cons, List.map_cons, List.map_cons, List.intercalate_cons_cons,
        ← List.map_cons, List.append_assoc]
      exact hx.append ((ih fun z hz => h z (List.mem_cons_of_mem x hz)).separate hsep)

/-- A character that is no separator occurs as often as in the texts. -/
theorem Laid.count_eq (h : Laid isSep ts s) {c : Char} (hc : ¬ isSep c) :
    s.count c = ts.flatten.count c := by
  have hnone : ∀ a : Str, (∀ d ∈ a, isSep d) → a.count c = 0 := by
    intro a ha
    apply List.count_eq_zero.mpr
    exact fun hmem => hc (ha c hmem)
  induction ts generalizing s with
  | nil => simpa using hnone s h
  | cons t ts ih =>
    obtain ⟨a, b, rfl, ha, hb⟩ := h
    rw [List.count_append, List.count_append, hnone a ha, ih hb, List.flatten_cons,
      List.count_append, Nat.zero_add]

/-- Each text has its place, one behind the other. -/
theorem Laid.places (h : Laid isSep ts s) (before after : Str) :
    ∃ places, SlicedAs (before ++ (s ++ after)) places ts ∧ Separated places ∧
      ∀ p ∈ places, p.Within ⟨byteLen before, byteLen before + byteLen s⟩ := by
  induction ts generalizing s before with
  | nil => exact ⟨[], List.Forall₂.nil, separated_nil, nofun⟩
  | cons t ts ih =>
    obtain ⟨a, b, rfl, _, hb⟩ := h
    obtain ⟨places, hsliced, hsep, hwithin⟩ := ih hb (before ++ a ++ t)
    simp only [Span.Within, byteLen_append] at hwithin
    refine ⟨⟨byteLen before + byteLen a, byteLen before + byteLen a + byteLen t⟩ :: places,
      List.Forall₂.cons ?_ ?_, List.Pairwise.cons ?_ hsep, ?_⟩
    · exact slice_eq_some.mpr ⟨before ++ a, b ++ after, by simp, by simp, rfl⟩
    · have hbuf : before ++ a ++ t ++ (b ++ after) = before ++ (a ++ (t ++ b) ++ after) := by simp
      rw [hbuf] at hsliced
      exact hsliced
    · intro p hp
      exact (hwithin p hp).1
    · intro p hp
      simp only [Span.Within, byteLen_append]
      rcases List.mem_cons.mp hp with rfl | hp
      · dsimp only
        omega
      · have := hwithin p hp
        omega

/-- Texts that are written line by line keep what is laid out in each. -/
theorem places_written {tss : List (List Str)} (h : List.Forall₂ (Laid isSep) tss us)
    (before after : Str) : ∃ places, SlicedAs (before ++ (written us ++ after)) places tss.flatten ∧
      Separated places ∧ (∀ p ∈ places, byteLen before ≤ p.start) ∧
      ∀ p ∈ places, ∃ line ∈ LineWriter.spans (byteLen before) us, p.Within line := by
  induction h generalizing before with
  | nil => exact ⟨[], List.Forall₂.nil, separated_nil, nofun, nofun⟩
  | @cons ts u tss us hfirst _ ih =>
    obtain ⟨here, hhere, hsepHere, hwithin⟩ := hfirst.places before ('\n' :: (written us ++ after))
    obtain ⟨rest, hrest, hsepRest, hstart, hline⟩ := ih (before ++ u ++ ['\n'])
    have hbuf : before ++ u ++ ['\n'] ++ (written us ++ after) =
        before ++ (u ++ '\n' :: (written us ++ after)) := by simp
    have hnl : Char.utf8Size '\n' = 1 := rfl
    simp only [byteLen_append, byteLen_cons, byteLen_nil, hnl] at hstart hline
    refine ⟨here ++ rest, ?_, ?_, ?_, ?_⟩
    · rw [hbuf] at hrest
      rw [show written (u :: us) ++ after = u ++ '\n' :: (written us ++ after) by simp [written]]
      exact List.rel_append hhere hrest
    · refine hsepHere.append hsepRest (fun p hp => (hwithin p hp).2) fun p hp => ?_
      have := hstart p hp
      dsimp only
      omega
    · intro p hp
      rcases List.mem_append.mp hp with hp | hp
      · exact (hwithin p hp).1
      · have := hstart p hp
        omega
    · intro p hp
      rcases List.mem_append.mp hp with hp | hp
      · exact ⟨_, List.mem_cons_self, hwithin p hp⟩
      · obtain ⟨line, hmem, hp⟩ := hline p hp
        exact ⟨line, List.mem_cons_of_mem _ hmem, hp⟩

theorem count_flatten_of_laid {tss : List (List Str)} (h : List.Forall₂ (Laid isSep) tss us)
    {c : Char} (hc : ¬ isSep c) : us.flatten.count c = tss.flatten.flatten.count c := by
  induction h with
  | nil => rfl
  | cons hfirst _ ih =>
    rw [List.flatten_cons, List.flatten_cons, List.flatten_append, List.count_append,
      List.count_append, hfirst.count_eq hc, ih]

/-- All places end where the last one does, or before. -/
theorem stop_le_of_places {places : List Span} {n : Nat} (h : SlicedAs s places ts)
    (hsep : Separated places)
    (hlast : ∀ t ∈ ts.getLast?, ∀ a b, slice s a b = some t → b ≤ n) :
    ∀ p ∈ places, p.stop ≤ n := by
  induction h with
  | nil => exact nofun
  | @cons p t places ts hslice hrest ih =>
    obtain ⟨hnext, hsep⟩ := List.pairwise_cons.mp hsep
    cases hrest with
    | nil =>
      intro q hq
      rw [List.mem_singleton.mp hq]
      exact hlast t rfl _ _ hslice
    | @cons p' t' places ts hslice' hrest =>
      have hall := ih hsep hlast
      intro q hq
      rcases List.mem_cons.mp hq with rfl | hq
      · have := hnext p' List.mem_cons_self
        have := hall p' List.mem_cons_self
        have := slice_stop hslice'
        omega
      · exact hall q hq

/-- Texts with places of their own use up the characters of the text they are in. -/
theorem count_le_of_places {places : List Span} (h : SlicedAs s places ts)
    (hsep : Separated places) (c : Char) : ts.flatten.count c ≤ s.count c := by
  have hfrom : ∀ before rest, s = before ++ rest → (∀ p ∈ places, byteLen before ≤ p.start) →
      ts.flatten.count c ≤ rest.count c := by
    induction h with
    | nil => exact fun _ _ _ _ => Nat.zero_le _
    | @cons p t places ts hslice _ ih =>
      intro before rest hs hstart
      obtain ⟨x, y, hxy, hx, hstop⟩ := slice_eq_some.mp hslice
      obtain ⟨m, rfl, rfl⟩ := exists_middle (hs.symm.trans hxy)
        (hx ▸ hstart p List.mem_cons_self)
      obtain ⟨hnext, hsep⟩ := List.pairwise_cons.mp hsep
      have hrest := ih hsep (before ++ m ++ t) y (by simp [hs]) fun q hq => by
        have := hnext q hq
        simp only [byteLen_append] at hx ⊢
        omega
      simp only [List.flatten_cons, List.count_append]
      omega
  exact hfrom [] s rfl fun _ _ => Nat.zero_le _

section Trim

/-- The layout with white space as separators. -/
abbrev Spaced : List Str → Str → Prop := Laid fun c => isWhitespace c = true

theorem Laid.map_trim (h : Spaced ts s) : Spaced (ts.map trim) s := by
  induction ts generalizing s with
  | nil => exact h
  | cons t ts ih =>
    obtain ⟨a, b, rfl, ha, hb⟩ := h
    refine ⟨a ++ leadingBlank t, trailingBlank (trimStart t) ++ b, ?_, ?_, ?_⟩
    · have ht := trim_decomposition t
      calc a ++ (t ++ b)
          = a ++ (leadingBlank t ++ (trim t ++ trailingBlank (trimStart t)) ++ b) := by rw [← ht]
        _ = _ := by simp only [List.append_assoc]
    · intro c hc
      rcases List.mem_append.mp hc with hc | hc
      · exact ha c hc
      · exact leadingBlank_blank t c hc
    · exact (ih hb).separate (trailingBlank_blank _)

theorem Laid.trimStart (h : Spaced ts s) (ht : ∀ t ∈ ts, ByteText.trimStart t = t) :
    Spaced ts (ByteText.trimStart s) := by
  induction ts generalizing s with
  | nil => exact fun c hc => h c ((List.dropWhile_suffix _).mem hc)
  | cons t ts ih =>
    obtain ⟨a, b, rfl, ha, hb⟩ := h
    have hrest := ih hb fun u hu => ht u (List.mem_cons_of_mem t hu)
    rw [trimStart_append, if_pos (trimStart_eq_nil_iff.mpr ha), trimStart_append,
      ht t List.mem_cons_self]
    split
    · rename_i hnil
      exact ⟨[], _, by rw [hnil]; rfl, nofun, hrest⟩
    · exact ⟨[], b, rfl, nofun, hb⟩

theorem Laid.trimEnd (h : Spaced ts s) (ht : ∀ t ∈ ts, ByteText.trimEnd t = t) :
    Spaced ts (ByteText.trimEnd s) := by
  induction ts generalizing s with
  | nil => exact fun c hc => h c ((List.rdropWhile_prefix _ _).mem hc)
  | cons t ts ih =>
    obtain ⟨a, b, rfl, ha, hb⟩ := h
    have hrest := ih hb fun u hu => ht u (List.mem_cons_of_mem t hu)
    have hself := ht t List.mem_cons_self
    by_cases hb : ByteText.trimEnd b = []
    · rw [hb] at hrest
      rw [← List.append_assoc, trimEnd_append, if_pos hb, trimEnd_append, hself]
      split
      · rename_i hnil
        rw [trimEnd_eq_nil_iff.mpr ha, hnil]
        exact ⟨[], [], rfl, nofun, hrest⟩
      · exact ⟨a, [], by rw [List.append_nil], ha, hrest⟩
    · rw [← List.append_assoc, trimEnd_append, if_neg hb, List.append_assoc]
      exact ⟨a, _, rfl, ha, hrest⟩

/-- White space around the parts and at the ends may be trimmed. -/
theorem Laid.trim (h : Spaced ts s) : Spaced (ts.map ByteText.trim) (ByteText.trim s) := by
  apply Laid.trimEnd
  · apply h.map_trim.trimStart
    intro t ht
    obtain ⟨u, _, rfl⟩ := List.mem_map.mp ht
    exact trimStart_trim u
  · intro t ht
    obtain ⟨u, _, rfl⟩ := List.mem_map.mp ht
    exact trimEnd_trim u

end Trim

section Merged

variable {α : Type}

/-- The third list has the elements of both others, those of each in their order. -/
inductive Merged : List α → List α → List α → Prop
  | nil : Merged [] [] []
  | left {l r m : List α} (x : α) : Merged l r m → Merged (x :: l) r (x :: m)
  | right {l r m : List α} (x : α) : Merged l r m → Merged l (x :: r) (x :: m)

variable {l r m l' r' m' : List α}

theorem merged_left (l : List α) : Merged l [] l := by
  induction l with
  | nil => exact .nil
  | cons x l ih => exact .left x ih

theorem merged_right (r : List α) : Merged [] r r := by
  induction r with
  | nil => exact .nil
  | cons x r ih => exact .right x ih

theorem Merged.append (h : Merged l r m) (h' : Merged l' r' m') :
    Merged (l ++ l') (r ++ r') (m ++ m') := by
  induction h with
  | nil => exact h'
  | left x _ ih => exact .left x ih
  | right x _ ih => exact .right x ih

theorem merged_flatMap {ι : Type} {f g h : ι → List α} (xs : List ι)
    (hm : ∀ x ∈ xs, Merged (f x) (g x) (h x)) :
    Merged (xs.flatMap f) (xs.flatMap g) (xs.flatMap h) := by
  induction xs with
  | nil => exact .nil
  | cons x xs ih =>
    exact (hm x List.mem_cons_self).append (ih fun y hy => hm y (List.mem_cons_of_mem x hy))

/-- A filter that takes nothing from one list leaves what it takes from the other. -/
theorem Merged.filter_eq (h : Merged l r m) {p : α → Bool} (hp : ∀ x ∈ r, p x = false) :
    m.filter p = l.filter p := by
  induction h with
  | nil => rfl
  | left x _ ih => rw [List.filter_cons, List.filter_cons, ih hp]
  | right x _ ih =>
    rw [List.filter_cons, hp x List.mem_cons_self]
    exact ih fun y hy => hp y (List.mem_cons_of_mem x hy)

theorem Merged.count_flatten {l r m : List Str} (h : Merged l r m) (c : Char) :
    m.flatten.count c = l.flatten.count c + r.flatten.count c := by
  induction h with
  | nil => rfl
  | left x _ ih =>
    simp only [List.flatten_cons, List.count_append, ih]
    omega
  | right x _ ih =>
    simp only [List.flatten_cons, List.count_append, ih]
    omega

end Merged

end TextLayout
