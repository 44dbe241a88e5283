import LensLM.RedactorRuns

/-!
# The redactor and how the stream is cut

A marker with two brackets goes as a whole when it is in one buffer. When a delta ends before its last
bracket, the marker with one bracket inside is taken out first, and the outer brackets are shown.
-/

namespace LensLM.FenceRedactor

open ByteText Cutting

set_option autoImplicit false

section Markers

variable {nonce : Str}

/-- The markers with two brackets. -/
def doubles (nonce : Str) : List Str := (singles nonce).map fun m => '<' :: (m ++ ['>'])

theorem markers_eq (nonce : Str) : (new nonce).markers = doubles nonce ++ singles nonce := by
  simp [new, doubles, singles]

theorem mem_markers_iff {m : Str} :
    m ∈ (new nonce).markers ↔ m ∈ doubles nonce ∨ m ∈ singles nonce := by
  rw [markers_eq, List.mem_append]

theorem mem_doubles_iff {m : Str} : m ∈ doubles nonce ↔ ∃ k ∈ singles nonce, m = '<' :: (k ++ ['>']) := by
  simp [doubles, eq_comm]

/-- The one bracket of a marker that opens is its first character. -/
theorem exists_single_tail {m : Str} (hn : '<' ∉ nonce) (hm : m ∈ singles nonce) :
    ∃ c k, m = '<' :: c :: k ∧ '<' ∉ c :: k ∧ c ≠ '>' := by
  simp only [singles, List.mem_cons, List.not_mem_nil, or_false] at hm
  rcases hm with rfl | rfl
  · exact ⟨'S', "RC:".toList ++ nonce ++ ">".toList, rfl, by simp [hn], by decide⟩
  · exact ⟨'E', "ND:".toList ++ nonce ++ ">".toList, rfl, by simp [hn], by decide⟩

theorem length_single {m k : Str} (hm : m ∈ singles nonce) (hk : k ∈ singles nonce) :
    m.length = k.length := by
  simp only [singles, List.mem_cons, List.not_mem_nil, or_false] at hm hk
  rcases hm with rfl | rfl <;> rcases hk with rfl | rfl <;> simp

theorem length_double {m k : Str} (hm : m ∈ doubles nonce) (hk : k ∈ doubles nonce) :
    m.length = k.length := by
  obtain ⟨m', hm', rfl⟩ := mem_doubles_iff.mp hm
  obtain ⟨k', hk', rfl⟩ := mem_doubles_iff.mp hk
  simp [length_single hm' hk']

/-- A marker that goes on with an opening bracket has two of them. -/
theorem opening_inside {u v : Str} (hn : '<' ∉ nonce) (hu : u ≠ [])
    (hm : u ++ '<' :: v ∈ (new nonce).markers) :
    u = ['<'] ∧ ∃ k ∈ singles nonce, '<' :: v = k ++ ['>'] := by
  obtain ⟨d, u', rfl⟩ := List.exists_cons_of_ne_nil hu
  rcases mem_markers_iff.mp hm with hm | hm
  · obtain ⟨k, hk, heq⟩ := mem_doubles_iff.mp hm
    obtain ⟨c, t, rfl, ht, -⟩ := exists_single_tail hn hk
    rw [List.cons_append, List.cons.injEq] at heq
    obtain ⟨rfl, heq⟩ := heq
    cases u' with
    | nil => exact ⟨rfl, _, hk, heq⟩
    | cons d u' =>
      exfalso
      rw [List.cons_append, List.cons_append, List.cons.injEq] at heq
      have hmem : '<' ∈ (c :: t) ++ ['>'] := by
        rw [← heq.2]
        simp
      rcases List.mem_append.mp hmem with hin | hin
      · exact ht hin
      · exact absurd hin (by decide)
  · obtain ⟨c, t, heq, ht, -⟩ := exists_single_tail hn hm
    rw [List.cons_append, List.cons.injEq] at heq
    exfalso
    apply ht
    rw [← heq.2]
    simp

theorem double_single_ne {m k r b : Str} (hn : '<' ∉ nonce) (hm : m ∈ doubles nonce)
    (hk : k ∈ singles nonce) : m ++ r ≠ k ++ b := by
  intro heq
  obtain ⟨m', hm', rfl⟩ := mem_doubles_iff.mp hm
  obtain ⟨c, t, rfl, -⟩ := exists_single_tail hn hm'
  obtain ⟨c', t', rfl, ht', -⟩ := exists_single_tail hn hk
  simp only [List.cons_append, List.cons.injEq, true_and] at heq
  exact ht' (by simp [← heq.1])

theorem markers_prefix_free (hn : '<' ∉ nonce) : ∀ m ∈ (new nonce).markers,
    ∀ k ∈ (new nonce).markers, m <+: k → m = k := by
  intro m hm k hk hprefix
  rcases mem_markers_iff.mp hm with hm | hm
  · rcases mem_markers_iff.mp hk with hk | hk
    · exact hprefix.eq_of_length (length_double hm hk)
    · obtain ⟨r, hr⟩ := hprefix
      exact absurd (hr.trans (List.append_nil k).symm) (double_single_ne hn hm hk)
  · rcases mem_markers_iff.mp hk with hk | hk
    · obtain ⟨r, hr⟩ := hprefix
      exact absurd ((List.append_nil k).trans hr.symm) (double_single_ne hn hk hm)
    · exact hprefix.eq_of_length (length_single hm hk)

/-- Only the outer brackets of a marker reach over the ends of the one inside. -/
theorem joins_marker {a m b : Str} (hn : '<' ∉ nonce) (hm : m ∈ (new nonce).markers)
    (hj : Joins (new nonce).markers a (m ++ b)) :
    m ∈ singles nonce ∧ ∃ a' b', a = a' ++ ['<'] ∧ b = '>' :: b' := by
  obtain ⟨u, v, hu, hv, ⟨a', rfl⟩, ⟨r, hr⟩, huv⟩ := hj
  obtain ⟨d, v', rfl⟩ := List.exists_cons_of_ne_nil hv
  have hopen : d = '<' := by
    have hhead : ∃ t, m = '<' :: t := by
      rcases mem_markers_iff.mp hm with hm | hm
      · obtain ⟨k, -, rfl⟩ := mem_doubles_iff.mp hm
        exact ⟨_, rfl⟩
      · obtain ⟨c, t, rfl, -⟩ := exists_single_tail hn hm
        exact ⟨_, rfl⟩
    obtain ⟨t, rfl⟩ := hhead
    exact (List.cons.inj hr).1
  subst hopen
  obtain ⟨rfl, k, hk, hkv⟩ := opening_inside hn hu huv
  rw [hkv, List.append_assoc] at hr
  rcases mem_markers_iff.mp hm with hm | hm
  · exact absurd hr.symm (double_single_ne hn hm hk)
  · obtain ⟨rfl, hrest⟩ := List.append_inj hr (length_single hk hm)
    exact ⟨hm, a', r, rfl, hrest.symm⟩

theorem double_notMem_singles {m : Str} (hn : '<' ∉ nonce) (hm : m ∈ doubles nonce) :
    m ∉ singles nonce := by
  intro hk
  exact double_single_ne hn hm hk (r := []) (b := []) rfl

end Markers

section Scan

variable {nonce text : Str}

/-- A cut that joins no marker, of a marker that stands in no other, is one of the scan. -/
theorem prune_cut_marker {a m b : Str} (hn : '<' ∉ nonce) (hm : m ∈ (new nonce).markers)
    (hfree : m ∈ singles nonce → Free (doubles nonce) (a ++ m ++ b))
    (hj : ¬ Joins (new nonce).markers a b) :
    prune (new nonce).markers (a ++ m ++ b) = prune (new nonce).markers (a ++ b) := by
  apply prune_cut (fun _ => markers_ne_nil) (markers_prefix_free hn) hm _ hj
  intro hjoins
  obtain ⟨hsingle, a', b', rfl, rfl⟩ := joins_marker hn hm hjoins
  apply hfree hsingle _ (mem_doubles_iff.mpr ⟨m, hsingle, rfl⟩)
  exact ⟨a', b', by simp⟩

theorem prune_double {a m b : Str} (hn : '<' ∉ nonce) (hm : m ∈ doubles nonce) :
    prune (new nonce).markers (a ++ m ++ b) =
      prune (new nonce).markers a ++ prune (new nonce).markers b := by
  have hmarker : m ∈ (new nonce).markers := mem_markers_iff.mpr (.inl hm)
  rw [List.append_assoc, prune_append (fun _ => markers_ne_nil) (markers_prefix_free hn),
    prune_piece (markers_ne_nil hmarker) hmarker (markers_prefix_free hn)]
  intro hjoins
  exact double_notMem_singles hn hm (joins_marker hn hmarker hjoins).1

/-- A bracket that nothing of a marker follows reaches into none. -/
theorem not_joins_opening {a s : Str} (hn : '<' ∉ nonce)
    (hs : ∀ k ∈ singles nonce, ¬ k ++ ['>'] <+: '<' :: s) :
    ¬ Joins (new nonce).markers a ('<' :: s) := by
  rintro ⟨u, v, hu, hv, -, hvs, huv⟩
  obtain ⟨d, v', rfl⟩ := List.exists_cons_of_ne_nil hv
  obtain rfl : d = '<' := by
    obtain ⟨r, hr⟩ := hvs
    exact (List.cons.inj hr).1
  obtain ⟨-, k, hk, hkv⟩ := opening_inside hn hu huv
  exact hs k hk (hkv ▸ hvs)

theorem prune_opening {s : Str}
    (hd : ∀ k ∈ singles nonce, ¬ k ++ ['>'] <+: s) (hs : ∀ k ∈ singles nonce, ¬ k <+: '<' :: s) :
    prune (new nonce).markers ('<' :: s) = '<' :: prune (new nonce).markers s := by
  apply prune_cons_of_none
  intro m hm hprefix
  rcases mem_markers_iff.mp hm with hm | hm
  · obtain ⟨k, hk, rfl⟩ := mem_doubles_iff.mp hm
    exact hd k hk (List.cons_prefix_cons.mp hprefix).2
  · exact hs m hm hprefix

theorem prune_closing {s : Str} (hn : '<' ∉ nonce) :
    prune (new nonce).markers ('>' :: s) = '>' :: prune (new nonce).markers s := by
  apply prune_cons_of_none
  rintro m hm ⟨r, hr⟩
  rcases mem_markers_iff.mp hm with hm | hm
  · obtain ⟨k, -, rfl⟩ := mem_doubles_iff.mp hm
    exact absurd (List.cons.inj hr).1 (by decide)
  · obtain ⟨c, t, rfl, -⟩ := exists_single_tail hn hm
    exact absurd (List.cons.inj hr).1 (by decide)

/-- Two brackets with nothing in between stay, and nothing reaches over them. -/
theorem prune_brackets (a b : Str) (hn : '<' ∉ nonce) :
    prune (new nonce).markers (a ++ '<' :: '>' :: b) =
      prune (new nonce).markers a ++ '<' :: '>' :: prune (new nonce).markers b := by
  have hsingle : ∀ k ∈ singles nonce, ∀ r, ¬ k ++ r <+: '<' :: '>' :: b := by
    rintro k hk r ⟨r', hr⟩
    obtain ⟨c, t, rfl, -, hc⟩ := exists_single_tail hn hk
    simp only [List.cons_append, List.cons.injEq, true_and] at hr
    exact hc hr.1
  have hjoins := @not_joins_opening nonce a ('>' :: b) hn fun k hk => hsingle k hk ['>']
  rw [prune_append (fun _ => markers_ne_nil) (markers_prefix_free hn) hjoins, prune_opening,
    prune_closing hn]
  · rintro k hk ⟨r, hr⟩
    obtain ⟨c, t, rfl, -⟩ := exists_single_tail hn hk
    exact absurd (List.cons.inj hr).1 (by decide)
  · intro k hk
    simpa using hsingle k hk []

/-- A marker whose last bracket is missing loses the one inside. -/
theorem prune_unclosed {k : Str} (a : Str) (hn : '<' ∉ nonce) (hk : k ∈ singles nonce) :
    prune (new nonce).markers (a ++ '<' :: k) = prune (new nonce).markers a ++ ['<'] := by
  have hsecond : ∀ k' ∈ singles nonce, ∀ r, ¬ k' ++ r <+: '<' :: k := by
    rintro k' hk' r ⟨r', hr⟩
    obtain ⟨c, t, rfl, -⟩ := exists_single_tail hn hk
    obtain ⟨c', t', rfl, ht', -⟩ := exists_single_tail hn hk'
    simp only [List.cons_append, List.cons.injEq, true_and] at hr
    exact ht' (by simp [hr.1])
  have hmarker : k ∈ (new nonce).markers := mem_markers_iff.mpr (.inr hk)
  have hinside := prune_piece (markers_ne_nil hmarker) hmarker (markers_prefix_free hn) []
  rw [List.append_nil, prune_nil] at hinside
  have hjoins := @not_joins_opening nonce a k hn fun k' hk' => hsecond k' hk' ['>']
  rw [prune_append (fun _ => markers_ne_nil) (markers_prefix_free hn) hjoins, prune_opening,
    hinside]
  · intro k' hk' hprefix
    have hlen := hprefix.length_le
    rw [List.length_append, length_single hk' hk, List.length_singleton] at hlen
    omega
  · intro k' hk'
    simpa using hsecond k' hk' []

end Scan

section Whole

variable {nonce text : Str}

theorem doubles_subset (nonce : Str) : doubles nonce ⊆ (new nonce).markers :=
  fun _ hm => mem_markers_iff.mpr (.inl hm)

/-- Cuts have been made of the text, and the scan does not tell. -/
structure Scanned (nonce text s : Str) : Prop where
  cuts : Cuts (new nonce).markers text s
  scan : prune (new nonce).markers s = prune (new nonce).markers text

theorem Scanned.start : Scanned nonce text text := ⟨.refl, rfl⟩

theorem Scanned.cut {a m b : Str} (hn : '<' ∉ nonce)
    (hs : Seamless (new nonce).markers (new nonce).markers text)
    (h : Scanned nonce text (a ++ m ++ b)) (hm : m ∈ (new nonce).markers)
    (hfree : m ∈ singles nonce → Free (doubles nonce) (a ++ m ++ b)) :
    Scanned nonce text (a ++ b) ∧ ¬ Joins (new nonce).markers a b := by
  have hj := hs a m b h.cuts hm
  exact ⟨⟨h.cuts.tail (.mk a b hm), (prune_cut_marker hn hm hfree hj).symm.trans h.scan⟩, hj⟩

/-- What is left of a text in one buffer is the scan of the text. -/
theorem stripComplete_eq_prune {r : FenceRedactor} (hn : '<' ∉ nonce)
    (hr : r.markers = (new nonce).markers)
    (hs : Seamless (new nonce).markers (new nonce).markers r.buf) :
    r.stripComplete.buf = prune (new nonce).markers r.buf ∧
      Free (new nonce).markers r.stripComplete.buf := by
  have hsplit : r.stripComplete.buf = (singles nonce).foldl (fun buf m => cutAll m buf.length buf)
      ((doubles nonce).foldl (fun buf m => cutAll m buf.length buf) r.buf) := by
    show r.markers.foldl _ r.buf = _
    rw [hr, markers_eq, List.foldl_append]
  -- the markers with two brackets go first, as wholes
  have hdouble : ∀ m ∈ doubles nonce, ∀ a b : Str, Scanned nonce r.buf (a ++ m ++ b) →
      Scanned nonce r.buf (a ++ b) ∧ ¬ Joins (doubles nonce) a b := by
    intro m hm a b hp
    obtain ⟨hcut, hj⟩ := hp.cut hn hs (doubles_subset nonce hm) fun h =>
      absurd h (double_notMem_singles hn hm)
    exact ⟨hcut, fun h => hj (h.subset (doubles_subset nonce))⟩
  have hfirst := foldl_cutAll_keeps (fun m hm a b hp => (hdouble m hm a b hp).1)
    (@Scanned.start nonce r.buf)
  have hnone : Free (doubles nonce)
      ((doubles nonce).foldl (fun buf m => cutAll m buf.length buf) r.buf) := by
    intro k hk
    exact foldl_cutAll_free (P := Scanned nonce r.buf)
      (fun m hm => markers_ne_nil (doubles_subset nonce hm)) hdouble .start hk (.inl hk)
  have hsingle : ∀ m ∈ singles nonce, ∀ a b : Str,
      Scanned nonce r.buf (a ++ m ++ b) ∧ Free (doubles nonce) (a ++ m ++ b) →
      (Scanned nonce r.buf (a ++ b) ∧ Free (doubles nonce) (a ++ b)) ∧
        ¬ Joins (singles nonce) a b := by
    rintro m hm a b ⟨hp, hfree⟩
    obtain ⟨hcut, hj⟩ := hp.cut hn hs (singles_subset nonce hm) fun _ => hfree
    refine ⟨⟨hcut, hfree.cut ?_⟩, ?_⟩
    · exact fun h => hj (h.subset (doubles_subset nonce))
    · exact fun h => hj (h.subset (singles_subset nonce))
  have hsecond := foldl_cutAll_keeps
    (P := fun s => Scanned nonce r.buf s ∧ Free (doubles nonce) s)
    (fun m hm a b hp => (hsingle m hm a b hp).1) ⟨hfirst, hnone⟩
  have hfree : Free (new nonce).markers r.stripComplete.buf := by
    intro k hk
    rw [hsplit]
    rcases mem_markers_iff.mp hk with hk | hk
    · exact hsecond.2 k hk
    · exact foldl_cutAll_free (P := fun s => Scanned nonce r.buf s ∧ Free (doubles nonce) s)
        (fun m hm => markers_ne_nil (singles_subset nonce hm)) hsingle ⟨hfirst, hnone⟩ hk (.inl hk)
  refine ⟨?_, hfree⟩
  rw [← prune_of_free (fun _ => markers_ne_nil) hfree, hsplit]
  exact hsecond.1.scan

/-- What the first delta leaves goes on with the rest of the deltas. -/
theorem redact_cons_cuts (nonce delta : Str) (deltas : List Str) :
    Cuts (new nonce).markers
      ((stripComplete { new nonce with buf := delta }).buf ++ deltas.flatten)
      ((new nonce).redact (delta :: deltas)) := by
  obtain ⟨out, held, hout, hpushed, hbuf, -⟩ := push_eq (r := new nonce) delta
  have hdelta : { new nonce with buf := (new nonce).buf ++ delta } =
      { new nonce with buf := delta } := rfl
  rw [hdelta] at hpushed hbuf
  obtain ⟨hfeed, hmarkers⟩ := feed_cuts ((new nonce).push delta).2 deltas
  have hflush := stripComplete_cuts (((new nonce).push delta).2.feed deltas).2
  rw [hmarkers] at hflush
  have hmark : ((new nonce).push delta).2.markers = (new nonce).markers := (push_cuts _ delta).2
  rw [hmark] at hfeed hflush
  have hheld : ((new nonce).push delta).2.buf = held := by rw [hpushed]
  rw [hheld] at hfeed
  have hlast := hflush.context (((new nonce).push delta).2.feed deltas).1 []
  rw [List.append_nil, List.append_nil] at hlast
  have hthen : Cuts (new nonce).markers (held ++ deltas.flatten) _ := hfeed.trans hlast
  have hall := hthen.context out []
  rw [hbuf]
  simpa [redact, feed, flush, hout] using hall

theorem redact_whole (hn : '<' ∉ nonce)
    (hs : Seamless (new nonce).markers (new nonce).markers text) :
    (new nonce).redact [text] = prune (new nonce).markers text := by
  obtain ⟨hstrip, hfree⟩ := stripComplete_eq_prune (r := { new nonce with buf := text }) hn rfl hs
  have hcuts := redact_cons_cuts nonce text []
  rw [List.flatten_nil, List.append_nil] at hcuts
  rw [hcuts.of_free hfree, hstrip]

/-- Without markers with two brackets every way of cutting the stream shows the same. -/
theorem redact_of_free (hn : '<' ∉ nonce)
    (hs : Seamless (new nonce).markers (new nonce).markers text) (hf : Free (doubles nonce) text)
    {deltas : List Str} (h : deltas.flatten = text) :
    (new nonce).redact deltas = prune (new nonce).markers text := by
  have hscan : ∀ s, Cuts (new nonce).markers text s →
      Scanned nonce text s ∧ Free (doubles nonce) s := by
    intro s hcuts
    induction hcuts with
    | refl => exact ⟨.start, hf⟩
    | tail _ hcut ih =>
      cases hcut with
      | mk a b hm =>
        obtain ⟨hcut, hj⟩ := ih.1.cut hn hs hm fun _ => ih.2
        exact ⟨hcut, ih.2.cut fun h => hj (h.subset (doubles_subset nonce))⟩
  have hcuts := redact_cuts nonce deltas
  rw [h] at hcuts
  have hhidden : Free (new nonce).markers ((new nonce).redact deltas) := by
    apply (redact_hides_markers nonce deltas).1
    rw [h]
    exact fun a m b hc hm hj => hs a m b hc hm (hj.subset (singles_subset nonce))
  rw [← prune_of_free (fun _ => markers_ne_nil) hhidden]
  exact (hscan _ hcuts).1.scan

end Whole

section Splits

variable {nonce text s t : Str}

/-- However the text is cut into deltas, what is shown is the same. -/
def SplitFree (nonce text : Str) : Prop :=
  ∀ deltas : List Str, deltas.flatten = text →
    (new nonce).redact deltas = (new nonce).redact [text]

/-- No cut makes the scan of a text shorter. -/
theorem length_prune_le (hn : '<' ∉ nonce)
    (hs : Seamless (new nonce).markers (new nonce).markers text)
    (h : Cuts (new nonce).markers text s) (hcuts : Cuts (new nonce).markers s t) :
    (prune (new nonce).markers s).length ≤ (prune (new nonce).markers t).length := by
  induction hcuts with
  | refl => exact Nat.le_refl _
  | tail hpre hcut ih =>
    have hreach := h.trans hpre
    cases hcut with
    | mk a b hm =>
      rename_i m
      refine Nat.le_trans ih ?_
      by_cases hjoins : Joins (new nonce).markers a (m ++ b)
      · obtain ⟨hsingle, a', b', rfl, rfl⟩ := joins_marker hn hm hjoins
        have hwhole : a' ++ ['<'] ++ m ++ '>' :: b' = a' ++ '<' :: (m ++ ['>']) ++ b' := by simp
        have hopen : a' ++ ['<'] ++ '>' :: b' = a' ++ '<' :: '>' :: b' := by simp
        rw [hwhole, hopen, prune_double hn (mem_doubles_iff.mpr ⟨m, hsingle, rfl⟩),
          prune_brackets a' b' hn]
        simp only [List.length_append, List.length_cons]
        omega
      · rw [prune_cut (fun _ => markers_ne_nil) (markers_prefix_free hn) hm hjoins
          (hs a m b hreach hm)]

/-- A delta that ends before the last bracket of a marker shows its outer brackets. -/
theorem not_splitFree (hn : '<' ∉ nonce)
    (hs : Seamless (new nonce).markers (new nonce).markers text)
    (hd : ¬ Free (doubles nonce) text) : ¬ SplitFree nonce text := by
  unfold Free at hd
  push Not at hd
  obtain ⟨m, hm, a, b, rfl⟩ := hd
  obtain ⟨k, hk, rfl⟩ := mem_doubles_iff.mp hm
  intro hsplit
  have hdeltas : [a ++ '<' :: k, '>' :: b].flatten = a ++ '<' :: (k ++ ['>']) ++ b := by simp
  have heq := hsplit _ hdeltas
  have hfront : Seamless (new nonce).markers (new nonce).markers (a ++ '<' :: k) := by
    apply Seamless.initial (t := '>' :: b)
    simpa using hs
  obtain ⟨hstrip, -⟩ := stripComplete_eq_prune
    (r := { new nonce with buf := a ++ '<' :: k }) hn rfl hfront
  have hcuts := redact_cons_cuts nonce (a ++ '<' :: k) ['>' :: b]
  rw [hstrip, prune_unclosed a hn hk, heq, redact_whole hn hs, prune_double hn hm] at hcuts
  have hopened : Cuts (new nonce).markers (a ++ '<' :: (k ++ ['>']) ++ b) (a ++ '<' :: '>' :: b) := by
    have hcut := Cut.mk (a ++ ['<']) ('>' :: b) (singles_subset nonce hk)
    have hone : Cuts (new nonce).markers (a ++ ['<'] ++ k ++ '>' :: b) (a ++ ['<'] ++ '>' :: b) :=
      .single hcut
    simpa using hone
  have hscanned : Cuts (new nonce).markers (a ++ '<' :: '>' :: b)
      (prune (new nonce).markers a ++ '<' :: '>' :: b) := by
    have hown : Cuts (new nonce).markers a (prune (new nonce).markers a) :=
      prune_cuts (fun _ => markers_ne_nil) a
    simpa using hown.context [] ('<' :: '>' :: b)
  have hthen : Cuts (new nonce).markers (prune (new nonce).markers a ++ '<' :: '>' :: b)
      (prune (new nonce).markers a ++ prune (new nonce).markers b) := by
    simpa using hcuts
  have hle := length_prune_le hn hs hopened (hscanned.trans hthen)
  have hpruned : (prune (new nonce).markers
      (prune (new nonce).markers a ++ prune (new nonce).markers b)).length ≤ _ :=
    prune_length_le (fun _ => markers_ne_nil) _
  rw [prune_brackets a b hn] at hle
  simp only [List.length_append, List.length_cons] at hle hpruned
  omega

/-- Where no cut joins a new marker, the answer does not depend on how the stream was cut exactly
when it has no marker with two brackets. -/
theorem splitFree_iff (hn : '<' ∉ nonce)
    (hs : Seamless (new nonce).markers (new nonce).markers text) :
    SplitFree nonce text ↔ Free (doubles nonce) text := by
  constructor
  · intro hsplit
    by_contra hd
    exact not_splitFree hn hs hd hsplit
  · intro hf deltas hdeltas
    rw [redact_of_free hn hs hf hdeltas, redact_whole hn hs]

theorem splitFree_iff_single :
    SplitFree "9f".toList "<SRC:9f>".toList ↔ Free (doubles "9f".toList) "<SRC:9f>".toList :=
  splitFree_iff (by decide) (seamless_of_short (by decide))

/-- The last bracket of a marker comes with a delta of its own. -/
theorem closing_bracket_shown : ¬ SplitFree "9f".toList "<<SRC:9f>>".toList := by
  intro h
  have heq := h ["<<SRC:9f>".toList, ">".toList] (by decide)
  revert heq
  decide

end Splits

end LensLM.FenceRedactor
