import LensLM.Chunk

/-!
# Split points and overlap starts

Each splitting function of the chunker returns a character boundary and does not panic.
-/

namespace LensLM

open ByteText Spans Outcome

set_option autoImplicit false

/-- The tokenizer accepts the text and counts at most `limit` tokens. -/
def Fits (tok : Tokenizer) (limit : Nat) (text : Str) : Prop :=
  ∃ n, tokenCount tok text = .ok n ∧ n ≤ limit

def Exceeds (tok : Tokenizer) (limit : Nat) (text : Str) : Prop :=
  ∃ n, tokenCount tok text = .ok n ∧ limit < n

@[simp] theorem tokenCount_ofCount (count : Str → Nat) (text : Str) :
    tokenCount (Tokenizer.ofCount count) text = .ok (count text) := rfl

@[simp] theorem fits_ofCount {count : Str → Nat} {limit : Nat} {text : Str} :
    Fits (Tokenizer.ofCount count) limit text ↔ count text ≤ limit := by
  simp [Fits]

theorem tokenCount_ne_panic (tok : Tokenizer) (text : Str) :
    tokenCount tok text ≠ .error .panic := by
  unfold tokenCount
  split <;> simp

theorem tokenCount_meets (tok : Tokenizer) (text : Str) (C : Prop) :
    Meets (tokenCount tok text) (fun _ => True) (PanicOnlyIf C) := by
  refine meets_iff.mpr ⟨fun _ _ => trivial, fun e he hp => ?_⟩
  exact absurd (hp ▸ he) (tokenCount_ne_panic tok text)

section Search

variable {tok : Tokenizer} {limit : Nat} {text : Str} {cuts : List Nat} {C : Prop}

theorem Exceeds.not_fits {pre : Str} (h : Exceeds tok limit pre) : ¬ Fits tok limit pre := by
  rintro ⟨n, hn, hle⟩
  obtain ⟨m, hm, hlt⟩ := h
  have heq := Except.ok.inj (hn.symm.trans hm)
  omega

/-- The cuts that a search between two places measures. -/
inductive Tested (tok : Tokenizer) (limit : Nat) (text : Str) (cuts : List Nat) :
    Nat → Nat → Nat → Prop
  | middle {lo hi cut : Nat} : lo < hi → cuts[lo + (hi - lo) / 2]? = some cut →
      Tested tok limit text cuts lo hi cut
  | upper {lo hi mid cut : Nat} {pre : Str} : lo < hi → cuts[lo + (hi - lo) / 2]? = some mid →
      slice text 0 mid = some pre → Fits tok limit pre →
      Tested tok limit text cuts (lo + (hi - lo) / 2 + 1) hi cut →
      Tested tok limit text cuts lo hi cut
  | lower {lo hi mid cut : Nat} {pre : Str} : lo < hi → cuts[lo + (hi - lo) / 2]? = some mid →
      slice text 0 mid = some pre → Exceeds tok limit pre →
      Tested tok limit text cuts lo (lo + (hi - lo) / 2) cut →
      Tested tok limit text cuts lo hi cut

theorem Tested.lt {lo hi cut : Nat} (h : Tested tok limit text cuts lo hi cut) : lo < hi := by
  cases h <;> assumption

/-- A search ends with a cut that fits, or with its start where no cut fitted. -/
def Searched {α : Type} (tok : Tokenizer) (limit : Nat) (text : Str) (cuts : List Nat)
    (found : Nat → α) (lo hi : Nat) (best r : α) : Prop :=
  (r = best ∧ ∀ cut pre, Tested tok limit text cuts lo hi cut → slice text 0 cut = some pre →
    Exceeds tok limit pre) ∨
  ∃ cut ∈ cuts, r = found cut ∧ ∃ pre, slice text 0 cut = some pre ∧ Fits tok limit pre

/-- The search fails only where the tokenizer does. -/
theorem searchCut_meets {α : Type} {E : Fault → Prop} {found : Nat → α}
    (htok : ∀ t, Meets (tokenCount tok t) (fun _ => True) E)
    (hcuts : ∀ cut ∈ cuts, IsBoundary text cut) {lo hi : Nat} {best : α} (hhi : hi ≤ cuts.length) :
    Meets (searchCut tok limit text cuts found lo hi best)
      (Searched tok limit text cuts found lo hi best) E := by
  induction hd : hi - lo using Nat.strong_induction_on generalizing lo hi best with
  | _ d ih =>
    unfold searchCut
    split
    · rename_i hlt
      have hmid : lo + (hi - lo) / 2 < cuts.length := by omega
      have hget := List.getElem?_eq_getElem hmid
      simp only [hget]
      have hmem := List.getElem_mem hmid
      obtain ⟨pre, hpre⟩ := exists_slice (isBoundary_zero text) (hcuts _ hmem) (Nat.zero_le _)
      refine (sliceBytes_meets hpre).bind fun p _ hp => ?_
      subst hp
      refine (htok p).bind fun n hn _ => ?_
      split
      · rename_i hle
        refine (ih _ (by omega) hhi rfl).mono ?_ fun _ h => h
        rintro r (⟨rfl, -⟩ | hfound)
        · exact .inr ⟨_, hmem, rfl, p, hpre, n, hn, hle⟩
        · exact .inr hfound
      · rename_i hover
        have hexceeds : Exceeds tok limit p := ⟨n, hn, Nat.not_le.mp hover⟩
        refine (ih _ (by omega) (by omega) rfl).mono ?_ fun _ h => h
        rintro r (⟨rfl, hnone⟩ | hfound)
        · refine .inl ⟨rfl, fun cut pre htest hslice => ?_⟩
          cases htest with
          | middle _ hcut =>
            obtain rfl := Option.some.inj (hget.symm.trans hcut)
            obtain rfl := Option.some.inj (hpre.symm.trans hslice)
            exact hexceeds
          | upper _ hcut hat hfits =>
            obtain rfl := Option.some.inj (hget.symm.trans hcut)
            obtain rfl := Option.some.inj (hpre.symm.trans hat)
            exact absurd hfits hexceeds.not_fits
          | lower _ _ _ _ hlower => exact hnone cut pre hlower hslice
        · exact .inr hfound
    · rename_i hdone
      exact .inl ⟨rfl, fun cut pre htest _ => absurd htest.lt hdone⟩

/-- What a cut leaves in front of it: a nonempty prefix that fits, or a single character. -/
def SplitPoint (tok : Tokenizer) (limit : Nat) (text : Str) (n : Nat) : Prop :=
  ∃ pre, slice text 0 n = some pre ∧ pre ≠ [] ∧ (Fits tok limit pre ∨ pre.length = 1)

theorem mem_wsBoundaries {cut : Nat} (h : cut ∈ wsBoundaries text) :
    IsBoundary text cut ∧ 0 < cut := by
  obtain ⟨⟨i, c⟩, hic, rfl⟩ := List.mem_map.mp h
  obtain ⟨hmem, hp⟩ := List.mem_filter.mp hic
  obtain ⟨p, q, hpq, hlen⟩ := mem_charIndices.mp hmem
  simp only [Bool.and_eq_true, decide_eq_true_eq] at hp
  exact ⟨⟨p, c :: q, hpq, hlen⟩, hp.1⟩

theorem charIndices_cons (c : Char) (s : Str) :
    charIndices (c :: s) = (0, c) :: charIndicesFrom c.utf8Size s := by
  simp [charIndices, charIndicesFrom]

theorem mem_charBoundaries {cut : Nat} (h : cut ∈ charBoundaries text) :
    IsBoundary text cut ∧ 0 < cut := by
  cases text with
  | nil => simp [charBoundaries, charIndices, charIndicesFrom] at h
  | cons c s =>
    simp only [charBoundaries, charIndices_cons, List.map_cons, List.drop_succ_cons,
      List.drop_zero] at h
    obtain ⟨⟨i, d⟩, hid, rfl⟩ := List.mem_map.mp h
    obtain ⟨p, q, rfl, rfl⟩ := mem_charIndicesFrom.mp hid
    have := Char.utf8Size_pos c
    exact ⟨⟨c :: p, d :: q, rfl, rfl⟩, by omega⟩

/-- The fallback of the hard split: the end of the first character. -/
theorem splitPoint_first (hne : text ≠ []) :
    SplitPoint tok limit text ((charBoundaries text).head?.getD (byteLen text)) := by
  cases text with
  | nil => exact absurd rfl hne
  | cons c s =>
    have hslice : slice (c :: s) 0 c.utf8Size = some [c] :=
      slice_eq_some.mpr ⟨[], s, rfl, rfl, by simp⟩
    refine ⟨[c], ?_, by simp, Or.inr rfl⟩
    cases s with
    | nil => simpa [charBoundaries, charIndices_cons, charIndicesFrom] using hslice
    | cons d s => simpa [charBoundaries, charIndices_cons, charIndicesFrom] using hslice

theorem SplitPoint.pos {n : Nat} (h : SplitPoint tok limit text n) : 0 < n := by
  obtain ⟨pre, hpre, hne, _⟩ := h
  have := byteLen_pos hne
  have := slice_stop hpre
  omega

theorem SplitPoint.le {n : Nat} (h : SplitPoint tok limit text n) : n ≤ byteLen text := by
  obtain ⟨pre, hpre, _, _⟩ := h
  exact (slice_right_boundary hpre).le

/-- The cuts that are measured for a text: its end, then those at blanks, then all others. -/
inductive TestedCut (tok : Tokenizer) (limit : Nat) (text : Str) : Nat → Prop
  | whole : TestedCut tok limit text (byteLen text)
  | blank {cut : Nat} :
      Tested tok limit text (wsBoundaries text) 0 (wsBoundaries text).length cut →
      TestedCut tok limit text cut
  | char {cut : Nat} :
      Tested tok limit text (charBoundaries text) 0 (charBoundaries text).length cut →
      TestedCut tok limit text cut

/-- A split point behind a piece that fits, or behind one character where no cut fitted. -/
def BestSplit (tok : Tokenizer) (limit : Nat) (text : Str) (n : Nat) : Prop :=
  ∃ piece, slice text 0 n = some piece ∧ piece ≠ [] ∧ (Fits tok limit piece ∨ piece.length = 1 ∧
    ∀ cut pre, TestedCut tok limit text cut → slice text 0 cut = some pre → Exceeds tok limit pre)

theorem BestSplit.splitPoint {n : Nat} (h : BestSplit tok limit text n) :
    SplitPoint tok limit text n := by
  obtain ⟨piece, hpiece, hne, hfit⟩ := h
  exact ⟨piece, hpiece, hne, hfit.imp_right And.left⟩

theorem bestSplit_of_fits {cut : Nat} {pre : Str} (hpos : 0 < cut)
    (hpre : slice text 0 cut = some pre) (hfit : Fits tok limit pre) :
    BestSplit tok limit text cut := by
  refine ⟨pre, hpre, ?_, .inl hfit⟩
  rintro rfl
  have hstop := slice_stop hpre
  rw [byteLen_nil] at hstop
  omega

theorem findSplit_best {E : Fault → Prop} (htok : ∀ t, Meets (tokenCount tok t) (fun _ => True) E)
    (hne : text ≠ []) : Meets (findSplit tok limit text) (BestSplit tok limit text) E := by
  unfold findSplit
  refine (htok text).bind fun n hn _ => ?_
  split
  · rename_i hle
    exact ⟨text, slice_self text, hne, .inl ⟨n, hn, hle⟩⟩
  · rename_i hover
    have hwhole : Exceeds tok limit text := ⟨n, hn, Nat.not_le.mp hover⟩
    refine (searchCut_meets htok (fun cut h => (mem_wsBoundaries h).1) (Nat.le_refl _)).bind
      fun r _ hblank => ?_
    cases r with
    | some cut =>
      rcases hblank with ⟨hstart, -⟩ | ⟨cut', hcut, hfound, pre, hpre, hfit⟩
      · cases hstart
      · obtain rfl := Option.some.inj hfound
        exact bestSplit_of_fits (mem_wsBoundaries hcut).2 hpre hfit
    | none =>
      rcases hblank with ⟨-, hblank⟩ | ⟨_, _, hfound, _⟩
      · refine (searchCut_meets htok (fun cut h => (mem_charBoundaries h).1) (Nat.le_refl _)).bind
          fun cut _ hchar => ?_
        suffices h : BestSplit tok limit text cut by
          simp only [meets_pure, Nat.max_eq_left h.splitPoint.pos]
          exact h
        rcases hchar with ⟨rfl, hchar⟩ | ⟨cut', hcut, rfl, pre, hpre, hfit⟩
        · -- no cut fits, and the first character is cut off
          obtain ⟨piece, hpiece, hpne, hfit⟩ : SplitPoint tok limit text _ := splitPoint_first hne
          refine ⟨piece, hpiece, hpne, hfit.imp_right fun hone => ⟨hone, ?_⟩⟩
          intro cut pre htest hpre
          cases htest with
          | whole =>
            obtain rfl := Option.some.inj ((slice_self text).symm.trans hpre)
            exact hwhole
          | blank htest => exact hblank cut pre htest hpre
          | char htest => exact hchar cut pre htest hpre
        · exact bestSplit_of_fits (mem_charBoundaries hcut).2 hpre hfit
      · cases hfound

theorem findSplit_meets (hne : text ≠ []) :
    Meets (findSplit tok limit text) (SplitPoint tok limit text) (PanicOnlyIf C) :=
  (findSplit_best (fun t => tokenCount_meets tok t C) hne).mono (fun _ h => h.splitPoint)
    fun _ h => h

end Search

section Overlap

variable {src : Str} {tok : Tokenizer} {C : Prop}

/-- An overlap start is a boundary strictly inside the previous child, and its tail fits. -/
structure OverlapStart (src : Str) (tok : Tokenizer) (win : ParentWindow) (prev : Chunk)
    (ov : Nat) : Prop where
  after : prev.charStart < ov
  before : ov < prev.charEnd
  inWindow : ov < win.charEnd
  tail : ∃ t, slice src ov prev.charEnd = some t ∧ Fits tok CHILD_OVERLAP_TOKENS t

theorem mem_overlapCandidates {text : Str} {a b n : Nat} (htext : slice src a b = some text)
    (h : n ∈ overlapCandidates text a b) : IsBoundary src n ∧ a < n ∧ n < b := by
  obtain ⟨hmap, hlt⟩ := List.mem_filter.mp h
  obtain ⟨⟨i, c⟩, hic, rfl⟩ := List.mem_map.mp hmap
  obtain ⟨p, q, hpq, rfl⟩ := mem_charIndices.mp (List.mem_filter.mp hic).1
  simp only [Bool.and_eq_true, decide_eq_true_eq] at hlt
  have hb : IsBoundary text (byteLen p + c.utf8Size) := ⟨p ++ [c], q, by simp [hpq], by simp⟩
  exact ⟨by simpa [Nat.add_assoc] using hb.of_slice htext, hlt⟩

theorem chooseOverlap_meets {prevEnd : Nat} {cands : List Nat}
    (hc : ∀ b ∈ cands, ∃ t, slice src b prevEnd = some t) :
    Meets (chooseOverlap src tok prevEnd cands)
      (fun r => ∀ b, r = some b → b ∈ cands ∧
        ∃ t, slice src b prevEnd = some t ∧ Fits tok CHILD_OVERLAP_TOKENS t)
      (PanicOnlyIf C) := by
  induction cands with
  | nil => simp [chooseOverlap]
  | cons b bs ih =>
    obtain ⟨t, ht⟩ := hc b List.mem_cons_self
    unfold chooseOverlap
    refine (sliceBytes_meets ht).bind fun u _ hu => ?_
    subst hu
    refine (tokenCount_meets tok u C).bind fun n hn _ => ?_
    split
    · rename_i hle
      simp only [meets_pure, Option.some.injEq]
      rintro b' rfl
      exact ⟨List.mem_cons_self, u, ht, n, hn, hle⟩
    · refine (ih fun b' hb' => hc b' (List.mem_cons_of_mem b hb')).mono ?_ fun _ h => h
      intro r hr b' hb'
      exact ⟨List.mem_cons_of_mem b (hr b' hb').1, (hr b' hb').2⟩

theorem overlapBackOff_meets {win : ParentWindow} {lastChild : Option Chunk}
    (hlast : ∀ prev, lastChild = some prev → slice src prev.charStart prev.charEnd = some prev.text) :
    Meets (overlapBackOff src win lastChild tok)
      (fun r => ∀ ov, r = some ov →
        ∃ prev, lastChild = some prev ∧ OverlapStart src tok win prev ov)
      (PanicOnlyIf C) := by
  unfold overlapBackOff
  cases lastChild with
  | none => simp
  | some prev =>
    have hprev := hlast prev rfl
    have hle := (slice_right_boundary hprev).le
    simp only [Nat.min_eq_left hle]
    rw [if_neg (by decide : ¬ CHILD_OVERLAP_TOKENS = 0)]
    split
    · simp
    · rename_i hlt
      refine Meets.bind (sliceBytes_meets hprev) fun text _ ht => ?_
      subst ht
      have hcands : ∀ b ∈ overlapCandidates prev.text prev.charStart prev.charEnd,
          ∃ t, slice src b prev.charEnd = some t := by
        intro b hb
        have hm := mem_overlapCandidates hprev hb
        exact exists_slice hm.1 (slice_right_boundary hprev) (Nat.le_of_lt hm.2.2)
      refine (chooseOverlap_meets hcands).bind fun r _ hr => ?_
      cases r with
      | none => simp
      | some b =>
        obtain ⟨hb, htail⟩ := hr b rfl
        have hm := mem_overlapCandidates hprev hb
        simp only [meets_pure]
        intro ov hov
        split at hov
        · rename_i hwin
          obtain rfl : b = ov := by simpa using hov
          exact ⟨prev, rfl, hm.2.1, hm.2.2, hwin, htail⟩
        · simp at hov

theorem seedOverlapTokens_meets {ov start : Nat} (hov : IsBoundary src ov)
    (hstart : IsBoundary src start) :
    Meets (seedOverlapTokens src ov start tok)
      (fun n => ov < start → ∃ t, slice src ov start = some t ∧ tokenCount tok t = .ok n)
      (PanicOnlyIf C) := by
  unfold seedOverlapTokens
  simp only [Nat.min_eq_left hstart.le]
  split
  · rename_i hle
    simp only [meets_ok]
    omega
  · rename_i hlt
    obtain ⟨t, ht⟩ := exists_slice hov hstart (by omega)
    refine (sliceBytes_meets ht).bind fun u _ hu => ?_
    subst hu
    exact meets_iff.mpr ⟨fun n hn _ => ⟨u, ht, hn⟩,
      fun e he hp => absurd (hp ▸ he) (tokenCount_ne_panic tok u)⟩

end Overlap

end LensLM
