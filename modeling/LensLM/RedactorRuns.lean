import LensLM.FenceRedactor
import LensLM.Lib.Cutting

/-!
# The redactor over a whole answer

The deltas of an answer go through the redactor one after the other. Every marker is cut out of the
buffer it is complete in, but a cut may join a marker that the scan has passed or half of which is
already handed out.
-/

namespace LensLM

open ByteText Cutting

set_option autoImplicit false

section Feed

namespace FenceRedactor

/-- What is handed out of the deltas, and the redactor after them. -/
def feed : FenceRedactor → List Str → Str × FenceRedactor
  | r, [] => ([], r)
  | r, delta :: deltas =>
    let pushed := r.push delta
    let fed := feed pushed.2 deltas
    (pushed.1 ++ fed.1, fed.2)

/-- The answer as it is shown. -/
def redact (r : FenceRedactor) (deltas : List Str) : Str :=
  let fed := r.feed deltas
  fed.1 ++ fed.2.flush.1

/-- The markers with one bracket, which those with two contain. -/
def singles (nonce : Str) : List Str :=
  ["<SRC:".toList ++ nonce ++ ">".toList, "<END:".toList ++ nonce ++ ">".toList]

end FenceRedactor

end Feed

section Cut

variable {marker s t : Str}

theorem cutFirst_some (h : cutFirst marker s = some t) :
    ∃ a b, s = a ++ marker ++ b ∧ t = a ++ b := by
  induction s generalizing t with
  | nil =>
    unfold cutFirst at h
    obtain ⟨hm, ht⟩ := Option.ite_none_right_eq_some.mp h
    cases ht
    exact ⟨[], [], by simp [hm], rfl⟩
  | cons c s ih =>
    unfold cutFirst at h
    split at h
    · rename_i hp
      cases h
      obtain ⟨b, hb⟩ := hp
      refine ⟨[], b, by simp [hb], ?_⟩
      rw [← hb]
      simp
    · obtain ⟨u, hu, rfl⟩ := Option.map_eq_some_iff.mp h
      obtain ⟨a, b, hs, rfl⟩ := ih hu
      exact ⟨c :: a, b, by simp [hs], rfl⟩

theorem cutFirst_none (h : cutFirst marker s = none) : ¬ marker <:+: s := by
  induction s with
  | nil =>
    unfold cutFirst at h
    intro hi
    rw [if_pos (List.infix_nil.mp hi)] at h
    cases h
  | cons c s ih =>
    unfold cutFirst at h
    split at h
    · cases h
    · rename_i hp
      intro hi
      rcases List.infix_cons_iff.mp hi with hi | hi
      · exact hp hi
      · exact ih (Option.map_eq_none_iff.mp h) hi

/-- What every cut keeps, all cuts keep. -/
theorem cutAll_keeps {P : Str → Prop} (step : ∀ a b, P (a ++ marker ++ b) → P (a ++ b)) (n : Nat)
    (h : P s) : P (cutAll marker n s) := by
  induction n generalizing s with
  | zero => exact h
  | succ n ih =>
    unfold cutAll
    split
    · rename_i t ht
      obtain ⟨a, b, rfl, rfl⟩ := cutFirst_some ht
      exact ih (step a b h)
    · exact h

/-- Every cut shortens the text, so that none is left to make. -/
theorem cutAll_free (hm : marker ≠ []) {n : Nat} (hn : s.length ≤ n) :
    ¬ marker <:+: cutAll marker n s := by
  induction n generalizing s with
  | zero =>
    obtain rfl : s = [] := List.length_eq_zero_iff.mp (Nat.le_zero.mp hn)
    exact fun hi => hm (List.infix_nil.mp hi)
  | succ n ih =>
    unfold cutAll
    split
    · rename_i t ht
      obtain ⟨a, b, rfl, rfl⟩ := cutFirst_some ht
      apply ih
      have hpos := List.length_pos_iff.mpr hm
      simp only [List.length_append] at hn ⊢
      omega
    · rename_i hnone
      exact cutFirst_none hnone

end Cut

namespace FenceRedactor

section Strip

/-- All markers are cut out of the buffer, one after the other. -/
theorem foldl_cutAll_keeps {P : Str → Prop} {ms : List Str}
    (step : ∀ m ∈ ms, ∀ a b, P (a ++ m ++ b) → P (a ++ b)) {buf : Str} (h : P buf) :
    P (ms.foldl (fun buf m => cutAll m buf.length buf) buf) := by
  induction ms generalizing buf with
  | nil => exact h
  | cons m ms ih =>
    apply ih
    · exact fun k hk => step k (List.mem_cons_of_mem m hk)
    · exact cutAll_keeps (step m List.mem_cons_self) buf.length h

/-- What no cut joins again is cut out for good. -/
theorem foldl_cutAll_free {P : Str → Prop} {ks ms : List Str} (hne : ∀ m ∈ ms, m ≠ [])
    (step : ∀ m ∈ ms, ∀ a b, P (a ++ m ++ b) → P (a ++ b) ∧ ¬ Joins ks a b) {buf : Str}
    (h : P buf) {k : Str} (hk : k ∈ ks) (hin : k ∈ ms ∨ ¬ k <:+: buf) :
    ¬ k <:+: ms.foldl (fun buf m => cutAll m buf.length buf) buf := by
  induction ms generalizing buf with
  | nil => exact hin.resolve_left List.not_mem_nil
  | cons m ms ih =>
    have hkeep : ∀ a b, P (a ++ m ++ b) → P (a ++ b) := fun a b hp =>
      (step m List.mem_cons_self a b hp).1
    apply ih
    · exact fun j hj => hne j (List.mem_cons_of_mem m hj)
    · exact fun j hj => step j (List.mem_cons_of_mem m hj)
    · exact cutAll_keeps hkeep buf.length h
    · by_cases hkm : k = m
      · subst hkm
        right
        exact cutAll_free (hne k List.mem_cons_self) (le_refl _)
      · rcases hin with hin | hfree
        · left
          exact (List.mem_cons.mp hin).resolve_left hkm
        · right
          have hboth : P (cutAll m buf.length buf) ∧ Free [k] (cutAll m buf.length buf) := by
            apply cutAll_keeps (P := fun s => P s ∧ Free [k] s)
            · intro a b hp
              have hs := step m List.mem_cons_self a b hp.1
              refine ⟨hs.1, hp.2.cut ?_⟩
              exact fun hj => hs.2 (hj.subset (by simpa using hk))
            · refine ⟨h, ?_⟩
              intro j hj
              obtain rfl : j = k := by simpa using hj
              exact hfree
          exact hboth.2 k (by simp)

end Strip

section Held

variable {r : FenceRedactor}

/-- A tail that may become a marker is held back, with all that is before it in the longest one. -/
theorem heldBack_longest {x tail m : Str} (hbuf : r.buf = x ++ tail) (hne : tail ≠ [])
    (hlen : byteLen tail ≤ r.maxLen - 1) (hm : m ∈ r.markers) (hp : tail <+: m) :
    tail.length ≤ r.heldBack.length := by
  have hmem : tail ∈ r.buf.tails := by
    rw [List.mem_tails, hbuf]
    exact List.suffix_append _ _
  have hpred : (byteLen tail ≤ r.maxLen - 1 && tail != [] &&
      r.markers.any fun m => tail.isPrefixOf m) = true := by
    simp only [Bool.and_eq_true, decide_eq_true_eq, bne_iff_ne, List.any_eq_true]
    exact ⟨⟨hlen, hne⟩, m, hm, List.isPrefixOf_iff_prefix.mpr hp⟩
  have hsorted : r.buf.tails.Pairwise fun a b => b.length ≤ a.length := by
    clear hmem hbuf
    induction r.buf with
    | nil => simp
    | cons c s ih =>
      rw [List.tails_cons, List.pairwise_cons]
      refine ⟨?_, ih⟩
      intro t ht
      exact (((List.mem_tails _ _).mp ht).length_le).trans (by simp)
  unfold heldBack
  cases hfind : r.buf.tails.find? fun tail => byteLen tail ≤ r.maxLen - 1 && tail != [] &&
      r.markers.any fun m => tail.isPrefixOf m with
  | none =>
    exfalso
    exact List.find?_eq_none.mp hfind tail hmem hpred
  | some t =>
    obtain ⟨_, before, after, heq, hbefore⟩ := List.find?_eq_some_iff_append.mp hfind
    rw [heq] at hmem hsorted
    rcases List.mem_append.mp hmem with hin | hin
    · have hnot := hbefore tail hin
      rw [hpred] at hnot
      cases hnot
    · rcases List.mem_cons.mp hin with rfl | hin
      · exact le_refl _
      · exact (List.pairwise_cons.mp (List.pairwise_append.mp hsorted).2.1).1 tail hin

/-- What is handed out, and what is held back. -/
theorem push_eq (delta : Str) : ∃ out held, (r.push delta).1 = out ∧
    (r.push delta).2 = { stripComplete { r with buf := r.buf ++ delta } with buf := held } ∧
      (stripComplete { r with buf := r.buf ++ delta }).buf = out ++ held ∧
        held.length = (stripComplete { r with buf := r.buf ++ delta }).heldBack.length := by
  refine ⟨_, _, rfl, rfl, (List.take_append_drop _ _).symm, ?_⟩
  unfold safeSplit
  have hle : ∀ q : FenceRedactor, q.heldBack.length ≤ q.buf.length := by
    intro q
    unfold heldBack
    cases hfind : q.buf.tails.find? fun tail => byteLen tail ≤ q.maxLen - 1 && tail != [] &&
        q.markers.any fun m => tail.isPrefixOf m with
    | none => exact Nat.zero_le _
    | some t => exact ((List.mem_tails _ _).mp (List.mem_of_find?_eq_some hfind)).length_le
  rw [List.length_drop]
  exact Nat.sub_sub_self (hle _)

end Held

section Passes

variable {nonce text E fut : Str} {r : FenceRedactor}

theorem singles_subset (nonce : Str) : singles nonce ⊆ (new nonce).markers := by
  intro m hm
  simp only [singles, List.mem_cons, List.not_mem_nil, or_false] at hm
  rcases hm with rfl | rfl
  · simp [new]
  · simp [new]

theorem markers_ne_nil {m : Str} (hm : m ∈ (new nonce).markers) : m ≠ [] := by
  simp only [new, List.mem_cons, List.not_mem_nil, or_false] at hm
  rcases hm with rfl | rfl | rfl | rfl
  all_goals simp

/-- A marker with two brackets has one with one bracket inside. -/
theorem exists_single {m : Str} (hm : m ∈ (new nonce).markers) : ∃ k ∈ singles nonce, k <:+: m := by
  simp only [new, List.mem_cons, List.not_mem_nil, or_false] at hm
  rcases hm with rfl | rfl | rfl | rfl
  · exact ⟨"<SRC:".toList ++ nonce ++ ">".toList, by simp [singles], ['<'], ['>'], by simp⟩
  · exact ⟨"<END:".toList ++ nonce ++ ">".toList, by simp [singles], ['<'], ['>'], by simp⟩
  · exact ⟨_, by simp [singles], List.infix_refl _⟩
  · exact ⟨_, by simp [singles], List.infix_refl _⟩

theorem byteLen_lt_of_prefix {m k : Str} (hp : k <+: m) (hne : k ≠ m) : byteLen k < byteLen m := by
  obtain ⟨v, rfl⟩ := hp
  rw [byteLen_append]
  have hv : v ≠ [] := by
    rintro rfl
    exact hne (by simp)
  have := byteLen_pos hv
  omega

theorem byteLen_le_maxLen {m : Str} (hm : m ∈ (new nonce).markers) :
    byteLen m ≤ (new nonce).maxLen := by
  have hmem : byteLen m ∈ (new nonce).markers.map byteLen := List.mem_map_of_mem hm
  show byteLen m ≤ ((new nonce).markers.map byteLen).max?.getD 0
  cases hmax : ((new nonce).markers.map byteLen).max? with
  | none =>
    rw [List.max?_eq_none_iff.mp hmax] at hmem
    cases hmem
  | some n => exact (List.max?_eq_some_iff.mp hmax).2 _ hmem

/-- Where the redactor is in a text: what it has handed out, what it holds and what is to come are
the text with some markers cut out, and no marker begins in what it has handed out. -/
structure Passes (nonce text E : Str) (r : FenceRedactor) (fut : Str) : Prop where
  markers : r.markers = (new nonce).markers
  maxLen : r.maxLen = (new nonce).maxLen
  cuts : Cuts (new nonce).markers text (E ++ (r.buf ++ fut))
  behind : Behind (singles nonce) E (r.buf ++ fut)

theorem Passes.strip (hs : Seamless (new nonce).markers (singles nonce) text)
    (h : Passes nonce text E r fut) :
    Passes nonce text E r.stripComplete fut ∧ Free (singles nonce) r.stripComplete.buf := by
  have step : ∀ m ∈ r.markers, ∀ a b,
      (Cuts (new nonce).markers text (E ++ (a ++ m ++ b ++ fut)) ∧
        Behind (singles nonce) E (a ++ m ++ b ++ fut)) →
      (Cuts (new nonce).markers text (E ++ (a ++ b ++ fut)) ∧
        Behind (singles nonce) E (a ++ b ++ fut)) ∧ ¬ Joins (singles nonce) a b := by
    intro m hm a b hp
    rw [h.markers] at hm
    have heq : E ++ (a ++ m ++ b ++ fut) = (E ++ a) ++ m ++ (b ++ fut) := by simp
    have hcuts := hp.1
    rw [heq] at hcuts
    have hj : ¬ Joins (singles nonce) (E ++ a) (b ++ fut) := hs _ _ _ hcuts hm
    refine ⟨⟨?_, ?_⟩, ?_⟩
    · have hcut : Cuts (new nonce).markers text (E ++ a ++ (b ++ fut)) := hcuts.tail (.mk _ _ hm)
      simpa only [List.append_assoc] using hcut
    · have hbehind := hp.2
      rw [List.append_assoc _ b fut] at hbehind
      have hcut := hbehind.cut hj
      rwa [← List.append_assoc] at hcut
    · exact fun hjoin => hj (hjoin.mono (List.suffix_append _ _) (List.prefix_append _ _))
  have hkeep : Cuts (new nonce).markers text (E ++ (r.stripComplete.buf ++ fut)) ∧
      Behind (singles nonce) E (r.stripComplete.buf ++ fut) := by
    apply foldl_cutAll_keeps (P := fun s => Cuts (new nonce).markers text (E ++ (s ++ fut)) ∧
      Behind (singles nonce) E (s ++ fut))
    · exact fun m hm a b hp => (step m hm a b hp).1
    · exact ⟨h.cuts, h.behind⟩
  refine ⟨⟨h.markers, h.maxLen, hkeep.1, hkeep.2⟩, ?_⟩
  intro k hk
  refine foldl_cutAll_free (P := fun s => Cuts (new nonce).markers text (E ++ (s ++ fut)) ∧
    Behind (singles nonce) E (s ++ fut)) ?_ step ?_ hk ?_
  · intro m hm
    rw [h.markers] at hm
    exact markers_ne_nil hm
  · exact ⟨h.cuts, h.behind⟩
  · left
    rw [h.markers]
    exact singles_subset nonce hk

theorem Passes.push (hs : Seamless (new nonce).markers (singles nonce) text) {delta : Str}
    (h : Passes nonce text E r (delta ++ fut)) :
    Passes nonce text (E ++ (r.push delta).1) (r.push delta).2 fut := by
  have hfed : Passes nonce text E { r with buf := r.buf ++ delta } fut := by
    refine ⟨h.markers, h.maxLen, ?_, ?_⟩
    · simpa only [List.append_assoc] using h.cuts
    · simpa only [List.append_assoc] using h.behind
  obtain ⟨hstrip, hfree⟩ := hfed.strip hs
  obtain ⟨out, held, hout, hpushed, hbuf, hheld⟩ := push_eq (r := r) delta
  rw [hout, hpushed]
  refine ⟨hstrip.markers, hstrip.maxLen, ?_, ?_⟩
  · have hcuts := hstrip.cuts
    rw [hbuf] at hcuts
    simpa only [List.append_assoc] using hcuts
  · -- What is handed out now has no marker, and none that the longest tail held back begins.
    have hnow : ∀ z y, out = z ++ y → y ≠ [] → ∀ m ∈ singles nonce, ¬ m <+: y ++ (held ++ fut) := by
      intro z y hzy hy m hm hprefix
      rw [← List.append_assoc] at hprefix
      rcases prefix_cases hprefix with ⟨w, hw⟩ | ⟨v, hv, heq, _⟩
      · apply hfree m hm
        rw [hbuf, hzy]
        exact ⟨z, w, by simp [← hw]⟩
      · have hmark := singles_subset nonce hm
        have hlong : (y ++ held).length ≤ held.length := by
          rw [hheld]
          apply heldBack_longest (x := z) (m := m)
          · rw [hbuf, hzy, List.append_assoc]
          · intro hnil
            exact hy (List.append_eq_nil_iff.mp hnil).1
          · have hlt : byteLen (y ++ held) < byteLen m := by
              apply byteLen_lt_of_prefix
              · exact ⟨v, heq.symm⟩
              · intro hsame
                rw [heq] at hsame
                exact hv (List.self_eq_append_right.mp hsame)
            have hmax := byteLen_le_maxLen hmark
            rw [hstrip.maxLen]
            omega
          · rw [hstrip.markers]
            exact hmark
          · exact ⟨v, heq.symm⟩
        rw [List.length_append] at hlong
        exact hy (List.length_eq_zero_iff.mp (by omega))
    intro x y hxy hy m hm hprefix
    rcases List.append_eq_append_iff.mp hxy with ⟨z, _, hzy⟩ | ⟨z, hE, hzy⟩
    · exact hnow z y hzy hy m hm hprefix
    · by_cases hz : z = []
      · subst hz
        exact hnow [] y hzy.symm hy m hm hprefix
      · apply hstrip.behind x z hE hz m hm
        rw [hbuf]
        rw [hzy] at hprefix
        simpa only [List.append_assoc] using hprefix

theorem Passes.feed (hs : Seamless (new nonce).markers (singles nonce) text) {deltas : List Str}
    (h : Passes nonce text E r (deltas.flatten ++ fut)) :
    Passes nonce text (E ++ (r.feed deltas).1) (r.feed deltas).2 fut := by
  induction deltas generalizing E r with
  | nil => simpa [FenceRedactor.feed] using h
  | cons delta deltas ih =>
    rw [List.flatten_cons, List.append_assoc] at h
    have hrest := ih (h.push hs)
    rw [List.append_assoc] at hrest
    exact hrest

theorem Passes.start (nonce text : Str) : Passes nonce text [] (new nonce) text := by
  refine ⟨rfl, rfl, .refl, ?_⟩
  intro x y hxy hy
  exact absurd (List.append_eq_nil_iff.mp hxy.symm).2 hy

end Passes

section Cuts

variable {r : FenceRedactor}

theorem stripComplete_cuts (r : FenceRedactor) : Cuts r.markers r.buf r.stripComplete.buf := by
  apply foldl_cutAll_keeps (P := Cuts r.markers r.buf)
  · exact fun m hm a b hp => hp.tail (.mk a b hm)
  · exact .refl

theorem push_cuts (r : FenceRedactor) (delta : Str) :
    Cuts r.markers (r.buf ++ delta) ((r.push delta).1 ++ (r.push delta).2.buf) ∧
      (r.push delta).2.markers = r.markers := by
  obtain ⟨out, held, hout, hpushed, hbuf, _⟩ := push_eq (r := r) delta
  rw [hout, hpushed]
  refine ⟨?_, rfl⟩
  show Cuts r.markers (r.buf ++ delta) (out ++ held)
  rw [← hbuf]
  exact stripComplete_cuts { r with buf := r.buf ++ delta }

/-- What is handed out and what is still held are the text with some markers cut out. -/
theorem feed_cuts (r : FenceRedactor) (deltas : List Str) :
    Cuts r.markers (r.buf ++ deltas.flatten) ((r.feed deltas).1 ++ (r.feed deltas).2.buf) ∧
      (r.feed deltas).2.markers = r.markers := by
  induction deltas generalizing r with
  | nil =>
    refine ⟨?_, rfl⟩
    have h : Cuts r.markers r.buf r.buf := .refl
    simpa [feed] using h
  | cons delta deltas ih =>
    obtain ⟨hpush, hmarkers⟩ := push_cuts r delta
    obtain ⟨hfeed, hfed⟩ := ih (r.push delta).2
    rw [hmarkers] at hfeed hfed
    refine ⟨?_, hfed⟩
    have hfirst := hpush.context [] deltas.flatten
    have hthen := hfeed.context (r.push delta).1 []
    simp only [List.nil_append, List.append_nil, List.append_assoc] at hfirst hthen
    simp only [feed, List.flatten_cons, List.append_assoc]
    exact hfirst.trans hthen

/-- The answer that is shown is the text of the model with markers cut out. -/
theorem redact_cuts (nonce : Str) (deltas : List Str) :
    Cuts (new nonce).markers deltas.flatten ((new nonce).redact deltas) := by
  obtain ⟨hfeed, hmarkers⟩ := feed_cuts (new nonce) deltas
  have hflush := (stripComplete_cuts ((new nonce).feed deltas).2).context
    ((new nonce).feed deltas).1 []
  rw [hmarkers] at hflush
  simp only [List.append_nil] at hflush
  exact hfeed.trans hflush

end Cuts

section Shown

/-- Where no cut joins a new marker none is shown, and a text without markers is shown as it is. -/
theorem redact_hides_markers (nonce : Str) (deltas : List Str) :
    (Seamless (new nonce).markers (singles nonce) deltas.flatten →
      Free (new nonce).markers ((new nonce).redact deltas)) ∧
    (Free (new nonce).markers deltas.flatten →
      (new nonce).redact deltas = deltas.flatten) := by
  refine ⟨?_, (redact_cuts nonce deltas).of_free⟩
  intro hs
  have hpass : Passes nonce deltas.flatten [] (new nonce) (deltas.flatten ++ []) := by
    rw [List.append_nil]
    exact Passes.start nonce deltas.flatten
  obtain ⟨hstrip, hfree⟩ := (hpass.feed hs).strip hs
  have hbehind := hstrip.behind
  rw [List.append_nil, List.nil_append] at hbehind
  intro m hm hi
  obtain ⟨k, hk, hkm⟩ := exists_single hm
  exact hbehind.free hfree k hk (hkm.trans hi)

/-- A text that is hardly longer than a marker has no room for a cut that joins one. -/
theorem seamless_of_short {nonce text : Str} {joined : List Str}
    (h : text.length ≤ nonce.length + 7) : Seamless (new nonce).markers joined text := by
  intro a m b hcuts hm hj
  obtain ⟨u, v, hu, hv, hua, hvb, _⟩ := hj
  have hlen := hcuts.length_le
  have hau := hua.length_le
  have hbv := hvb.length_le
  have hupos := List.length_pos_iff.mpr hu
  have hvpos := List.length_pos_iff.mpr hv
  have hmlen : nonce.length + 6 ≤ m.length := by
    simp only [new, List.mem_cons, List.not_mem_nil, or_false] at hm
    rcases hm with rfl | rfl | rfl | rfl
    all_goals simp
  simp only [List.length_append] at hlen
  omega

/-- The cut of one marker joins another of a kind whose turn is over. -/
theorem redact_shows_joined : ¬ Free (new "9f".toList).markers
    ((new "9f".toList).redact ["<SR<END:9f>C:9f>.".toList]) := by
  intro h
  apply h "<SRC:9f>".toList (by decide)
  exact ⟨[], ['.'], by decide⟩

theorem redact_hides_split : Free (new "9f".toList).markers
      ((new "9f".toList).redact ["x<SR".toList, "C:9f>".toList]) ∧
    (new "9f".toList).redact ["x<SR".toList, "C:9f>".toList] = ['x'] :=
  ⟨(redact_hides_markers "9f".toList _).1 (seamless_of_short (by decide)), by decide⟩

end Shown

end FenceRedactor

end LensLM
