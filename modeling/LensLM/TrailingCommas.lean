import LensLM.DialogueReader
import LensLM.Lib.JsonBytes

/-!
# Trailing commas

The check of the clean-up reads bytes and its rewriting reads characters. Of the commas in front of
a closing bracket the last one is removed, and a JSON text is kept as it is.
-/

namespace LensLM

open ByteText JsonText Utf8

set_option autoImplicit false

section Bytes

/-- The clean-up with the check over the bytes of the text. -/
def precleanBytes (text : Str) : Str :=
  if needsClean .outside (readBytes text) then dropCommas .outside text else text

theorem closesNext_beyond {x : Char} (hx : 128 ≤ x.toNat) (r : Str) :
    closesNext (x :: r) = false := by
  have hspace : isAsciiWhitespace x = false := by
    simp only [isAsciiWhitespace, Bool.or_eq_false_iff, beq_eq_false_iff_ne]
    exact ⟨⟨⟨⟨ne_of_beyond hx (by decide), ne_of_beyond hx (by decide)⟩,
      ne_of_beyond hx (by decide)⟩, ne_of_beyond hx (by decide)⟩, ne_of_beyond hx (by decide)⟩
  have hclose : (x == ']' || x == '}') = false := by
    simp only [Bool.or_eq_false_iff, beq_eq_false_iff_ne]
    exact ⟨ne_of_beyond hx (by decide), ne_of_beyond hx (by decide)⟩
  rw [closesNext, hspace, if_neg Bool.false_ne_true, hclose]

theorem closesNext_readBytes (s : Str) : closesNext (readBytes s) = closesNext s := by
  induction s with
  | nil => rfl
  | cons c s ih =>
    rw [readBytes_cons]
    rcases readBytes_single c with hone | ⟨hc, x, xs, hread, hx, -⟩
    · rw [hone, List.singleton_append, closesNext, closesNext, ih]
    · rw [hread, List.cons_append, closesNext_beyond hx, closesNext_beyond hc]

theorem needsClean_beyond {x : Char} (hx : 128 ≤ x.toNat) (q : QuoteState) (r : Str) :
    needsClean q (x :: r) = needsClean q.past r := by
  have hcomma : (x == ',') = false := beq_eq_false_iff_ne.mpr (ne_of_beyond hx (by decide))
  rw [needsClean, hcomma, Bool.and_false, Bool.false_and, Bool.false_or, QuoteState.step_beyond hx]

theorem needsClean_all_beyond {xs : Str} (hxs : ∀ x ∈ xs, 128 ≤ x.toNat) {q : QuoteState}
    (hq : q.past = q) (r : Str) : needsClean q (xs ++ r) = needsClean q r := by
  induction xs with
  | nil => rfl
  | cons x xs ih =>
    rw [List.cons_append, needsClean_beyond (hxs x List.mem_cons_self), hq,
      ih fun y hy => hxs y (List.mem_cons_of_mem x hy)]

/-- The two scans agree. -/
theorem needsClean_readBytes (q : QuoteState) (s : Str) :
    needsClean q (readBytes s) = needsClean q s := by
  induction s generalizing q with
  | nil => rfl
  | cons c s ih =>
    rw [readBytes_cons]
    rcases readBytes_single c with hone | ⟨hc, x, xs, hread, hx, hxs⟩
    · rw [hone, List.singleton_append, needsClean, needsClean, ih, closesNext_readBytes]
    · rw [hread, List.cons_append, needsClean_beyond hx,
        needsClean_all_beyond hxs (QuoteState.past_past q), ih, needsClean_beyond hc]

theorem precleanBytes_eq (text : Str) : precleanBytes text = dropCommas .outside text := by
  rw [← preclean_eq, precleanBytes, needsClean_readBytes]
  rfl

end Bytes

section Strings

/-- The characters that are read within string literals, with the quotes that end them. -/
def insideStrings : QuoteState → Str → Str
  | _, [] => []
  | .outside, c :: cs => insideStrings (QuoteState.outside.step c) cs
  | q, c :: cs => c :: insideStrings (q.step c) cs

theorem insideStrings_dropCommas (q : QuoteState) (s : Str) :
    insideStrings q (dropCommas q s) = insideStrings q s := by
  induction s generalizing q with
  | nil => rfl
  | cons c s ih =>
    rw [dropCommas]
    split
    · next hdrop =>
      rw [Bool.and_eq_true, Bool.and_eq_true, beq_iff_eq, beq_iff_eq] at hdrop
      obtain ⟨⟨rfl, rfl⟩, -⟩ := hdrop
      exact ih .outside
    · cases q with
      | outside => exact ih _
      | inside => exact congrArg (c :: ·) (ih _)
      | escaped => exact congrArg (c :: ·) (ih _)

end Strings

section Trailing

/-- What stands before a closing bracket: the blank with `n` commas in it, and without the last one
of them. -/
inductive Trail (w : Blank) : Nat → Str → Str → Prop
  | clean : Trail w 0 w.text w.text
  | commas (x y : Str) (hblank : (x ++ y).filter (· != ',') = w.text) (hlast : ',' ∉ y) :
    Trail w (x.count ',' + 1) (x ++ ',' :: y) (x ++ y)

theorem Trail.chars {w : Blank} {x y : Str} (h : (x ++ y).filter (· != ',') = w.text) :
    ∀ c ∈ x ++ y, c = ',' ∨ isBlank c = true := by
  intro c hc
  by_cases hcomma : c = ','
  · exact Or.inl hcomma
  · right
    apply w.blank
    rw [← h]
    exact List.mem_filter.mpr ⟨hc, by simpa using hcomma⟩

/-- Another comma does not close. -/
theorem closesNext_commas {x : Str} (hx : ∀ c ∈ x, c = ',' ∨ isBlank c = true) (r : Str) :
    closesNext (x ++ ',' :: r) = false := by
  induction x with
  | nil => rfl
  | cons c x ih =>
    rw [List.cons_append, closesNext]
    rcases hx c List.mem_cons_self with rfl | hc
    · rfl
    · rw [if_pos (isAsciiWhitespace_of_isBlank hc)]
      exact ih fun d hd => hx d (List.mem_cons_of_mem c hd)

/-- The clean-up removes the last comma. -/
theorem Trail.drop {w : Blank} {n : Nat} {u u' : Str} (h : Trail w n u u') (b : Bracket) (r : Str) :
    dropCommas .outside (u ++ b.right :: r) = u' ++ dropCommas .outside (b.right :: r) := by
  cases h with
  | clean => exact dropCommas_inert (isInert_blank w) false _
  | commas x y hblank hlast =>
    have hchars := Trail.chars hblank
    have hx : ∀ c ∈ x, c = ',' ∨ isBlank c = true := fun c hc =>
      hchars c (List.mem_append_left y hc)
    have hy : ∀ c ∈ y, isBlank c = true := by
      intro c hc
      rcases hchars c (List.mem_append_right x hc) with rfl | hb
      · exact absurd hc hlast
      · exact hb
    clear hblank hchars
    induction x with
    | nil =>
      have hspace : isAsciiWhitespace b.right = false := by
        cases b
        all_goals rfl
      have hclose : (b.right == ']' || b.right == '}') = true := by
        cases b
        all_goals rfl
      have hnext : closesNext (y ++ b.right :: r) = true := by
        rw [closesNext_blank ⟨y, hy⟩ hspace, hclose]
      rw [List.nil_append, List.nil_append, List.cons_append, dropCommas, hnext,
        if_pos (by decide)]
      exact dropCommas_inert (isInert_blank ⟨y, hy⟩) false _
    | cons c x ih =>
      have htail := ih fun d hd => hx d (List.mem_cons_of_mem c hd)
      rcases hx c List.mem_cons_self with rfl | hc
      · have hnext : closesNext (x ++ ',' :: (y ++ b.right :: r)) = false :=
          closesNext_commas (fun d hd => hx d (List.mem_cons_of_mem ',' hd)) _
        rw [List.append_assoc, List.cons_append] at htail
        rw [List.cons_append, List.cons_append, List.append_assoc, List.cons_append, dropCommas,
          hnext, if_neg (by decide)]
        exact congrArg (',' :: ·) htail
      · have hinert : isInert c = true := isInert_blank ⟨[c], by simpa using hc⟩ c (by simp)
        rw [List.cons_append, List.cons_append, List.cons_append, List.cons_append,
          show QuoteState.outside = stateOf false from rfl, dropCommas_inert_cons hinert]
        exact congrArg (c :: ·) htail

mutual

/-- `Trailed m v t t'`: `t` is the text of `v` with up to `m` commas added before every closing
bracket, `t'` is the same without the last comma of each of them. -/
inductive Trailed (m : Nat) : Json → Str → Str → Prop
  | atom (a : Atom) : Trailed m (.atom a) a.text a.text
  | str (s : JString) : Trailed m (.str s) s.text s.text
  | empty (b : Bracket) {w : Blank} {n : Nat} {u u' : Str} (h : Trail w n u u') (hn : n ≤ m) :
    Trailed m (.empty b w) (b.left :: (u ++ [b.right])) (b.left :: (u' ++ [b.right]))
  | node (b : Bracket) (w : Blank) {es : Entries b} {t t' : Str} (h : TrailedEntries m es t t') :
    Trailed m (.node b w es) (b.left :: (w.text ++ (t ++ [b.right])))
      (b.left :: (w.text ++ (t' ++ [b.right])))

inductive TrailedEntries (m : Nat) : {b : Bracket} → Entries b → Str → Str → Prop
  | last {b : Bracket} (k : Key b) {v : Json} {t t' : Str} {w : Blank} {n : Nat} {u u' : Str}
    (hv : Trailed m v t t') (h : Trail w n u u') (hn : n ≤ m) :
    TrailedEntries m (.last k v w) (k.text ++ (t ++ u)) (k.text ++ (t' ++ u'))
  | cons {b : Bracket} (k : Key b) {v : Json} {t t' : Str} (w w' : Blank) {es : Entries b}
    {ts ts' : Str} (hv : Trailed m v t t') (hes : TrailedEntries m es ts ts') :
    TrailedEntries m (.cons k v w w' es) (k.text ++ (t ++ (w.text ++ ',' :: (w'.text ++ ts))))
      (k.text ++ (t' ++ (w.text ++ ',' :: (w'.text ++ ts'))))

end

variable {m : Nat}

theorem Trailed.text_start {v : Json} {t t' : Str} (h : Trailed m v t t') :
    ∃ c s k, t = c :: s ∧ startOf c = some k := by
  cases h with
  | atom a =>
    obtain ⟨c, s, ht, hc⟩ := (Json.atom a).text_start
    exact ⟨c, s, _, ht, hc⟩
  | str s =>
    obtain ⟨c, r, ht, hc⟩ := (Json.str s).text_start
    exact ⟨c, r, _, ht, hc⟩
  | empty b => exact ⟨_, _, _, rfl, startOf_left b⟩
  | node b => exact ⟨_, _, _, rfl, startOf_left b⟩

theorem TrailedEntries.text_start {b : Bracket} {es : Entries b} {t t' : Str}
    (h : TrailedEntries m es t t') : ∃ c s k, t = c :: s ∧ startOf c = some k := by
  have hkey : ∀ (k : Key b) {u : Str} (r : Str), (∃ c s j, u = c :: s ∧ startOf c = some j) →
      ∃ c s j, k.text ++ (u ++ r) = c :: s ∧ startOf c = some j := by
    intro k u r ⟨c, s, j, hu, hc⟩
    cases k with
    | item => exact ⟨c, s ++ r, j, by rw [hu]; rfl, hc⟩
    | name => exact ⟨'"', _, _, rfl, rfl⟩
  cases h with
  | last k hv => exact hkey k _ hv.text_start
  | cons k w w' hv => exact hkey k _ hv.text_start

theorem TrailedEntries.closesNext {b : Bracket} {es : Entries b} {t t' : Str}
    (h : TrailedEntries m es t t') (w : Blank) (r : Str) :
    closesNext (w.text ++ (t ++ r)) = false := by
  obtain ⟨c, s, k, ht, hc⟩ := h.text_start
  obtain ⟨hspace, hclose⟩ := startOf_significant hc
  rw [ht, List.cons_append, closesNext_blank w hspace, hclose]

section Unquoted

variable {b : Bracket}

theorem dropCommas_key_outside (k : Key b) (r : Str) :
    dropCommas .outside (k.text ++ r) = k.text ++ dropCommas .outside r := by
  have h := dropCommas_key false k r
  rwa [settleKey_unquoted] at h

theorem dropCommas_blank (w : Blank) (r : Str) :
    dropCommas .outside (w.text ++ r) = w.text ++ dropCommas .outside r :=
  dropCommas_inert (isInert_blank w) false r

theorem dropCommas_left_outside (r : Str) :
    dropCommas .outside (b.left :: r) = b.left :: dropCommas .outside r :=
  dropCommas_inert_cons (isInert_left b) false r

theorem dropCommas_right (r : Str) :
    dropCommas .outside (b.right :: r) = b.right :: dropCommas .outside r :=
  dropCommas_inert_cons (isInert_right b) false r

theorem TrailedEntries.keeps_comma {es : Entries b} {t t' : Str} (h : TrailedEntries m es t t')
    (w : Blank) (r : Str) : dropCommas .outside (',' :: (w.text ++ (t ++ r))) =
      ',' :: (w.text ++ dropCommas .outside (t ++ r)) := by
  rw [dropCommas, h.closesNext w r, if_neg (by decide)]
  exact congrArg (',' :: ·) (dropCommas_blank w (t ++ r))

end Unquoted

mutual

/-- The clean-up leaves the text without the last comma of each bracket. -/
theorem Trailed.drop : ∀ {v : Json} {t t' : Str}, Trailed m v t t' → ∀ r,
    dropCommas .outside (t ++ r) = t' ++ dropCommas .outside r
  | _, _, _, .atom a, r => dropCommas_inert (fun c hc => isInert_atom (a.chars.2 c hc)) false r
  | _, _, _, .str s, r => dropCommas_string false s r
  | _, _, _, .empty b h _, r => by
    simp only [List.cons_append, List.append_assoc, List.nil_append]
    rw [dropCommas_left_outside, h.drop b r, dropCommas_right]
  | _, _, _, .node b w h, r => by
    simp only [List.cons_append, List.append_assoc, List.nil_append]
    rw [dropCommas_left_outside, dropCommas_blank, h.drop r, dropCommas_right]

theorem TrailedEntries.drop : ∀ {b : Bracket} {es : Entries b} {t t' : Str},
    TrailedEntries m es t t' → ∀ r, dropCommas .outside (t ++ b.right :: r) =
      t' ++ dropCommas .outside (b.right :: r)
  | b, _, _, _, .last k hv h _, r => by
    simp only [List.append_assoc]
    rw [dropCommas_key_outside, hv.drop, h.drop b r]
  | b, _, _, _, .cons k w w' hv hes, r => by
    simp only [List.append_assoc, List.cons_append]
    rw [dropCommas_key_outside, hv.drop, dropCommas_blank, hes.keeps_comma, hes.drop r]

end

mutual

/-- Without added commas. -/
theorem Trailed.refl (m : Nat) : ∀ v : Json, Trailed m v v.text v.text
  | .atom a => .atom a
  | .str s => .str s
  | .empty b _ => .empty b .clean (Nat.zero_le m)
  | .node b w es => .node b w (TrailedEntries.refl m es)

theorem TrailedEntries.refl (m : Nat) : ∀ {b : Bracket} (es : Entries b),
    TrailedEntries m es es.text es.text
  | _, .last k v _ => .last k (Trailed.refl m v) .clean (Nat.zero_le m)
  | _, .cons k v w w' es => .cons k w w' (Trailed.refl m v) (TrailedEntries.refl m es)

end

theorem Trail.single {w : Blank} {n : Nat} {u u' : Str} (h : Trail w n u u') (hn : n ≤ 1) :
    u' = w.text := by
  cases h with
  | clean => rfl
  | commas x y hblank hlast =>
    have hnone : ',' ∉ x := List.count_eq_zero.mp (Nat.le_zero.mp (Nat.le_of_succ_le_succ hn))
    rw [← hblank, List.filter_eq_self.mpr]
    intro c hc
    have hne : c ≠ ',' := by
      rintro rfl
      rcases List.mem_append.mp hc with hc | hc
      · exact hnone hc
      · exact hlast hc
    simpa using hne

mutual

/-- With one comma at most in front of each bracket, the text without them is the value's. -/
theorem Trailed.single : ∀ {v : Json} {t t' : Str}, Trailed 1 v t t' → t' = v.text
  | _, _, _, .atom _ => rfl
  | _, _, _, .str _ => rfl
  | _, _, _, .empty b h hn => congrArg (fun u => b.left :: (u ++ [b.right])) (h.single hn)
  | _, _, _, .node b w h => congrArg (fun u => b.left :: (w.text ++ (u ++ [b.right]))) h.single

theorem TrailedEntries.single : ∀ {b : Bracket} {es : Entries b} {t t' : Str},
    TrailedEntries 1 es t t' → t' = es.text
  | _, _, _, _, .last k hv h hn => by rw [hv.single, h.single hn, Entries.text]
  | _, _, _, _, .cons k w w' hv hes => by rw [hv.single, hes.single, Entries.text]

end

theorem precleanBytes_trailed {v : Json} {t t' : Str} (h : Trailed m v t t') (w w' : Blank) :
    precleanBytes (w.text ++ (t ++ w'.text)) = w.text ++ (t' ++ w'.text) := by
  have hend := dropCommas_blank w' []
  rw [List.append_nil, dropCommas, List.append_nil] at hend
  rw [precleanBytes_eq, dropCommas_blank, h.drop, hend]

/-- A JSON text is kept, and one comma in front of each closing bracket is removed; nothing within
strings changes in any text. -/
theorem precleanBytes_json (v : Json) (w w' : Blank) :
    precleanBytes (w.text ++ (v.text ++ w'.text)) = w.text ++ (v.text ++ w'.text) ∧
      (∀ t t', Trailed 1 v t t' →
        precleanBytes (w.text ++ (t ++ w'.text)) = w.text ++ (v.text ++ w'.text)) ∧
      ∀ text, insideStrings .outside (precleanBytes text) = insideStrings .outside text := by
  refine ⟨?_, ?_, ?_⟩
  · exact precleanBytes_trailed (Trailed.refl 0 v) w w'
  · intro t t' h
    rw [precleanBytes_trailed h, h.single]
  · intro text
    rw [precleanBytes_eq]
    exact insideStrings_dropCommas .outside text

def one : Atom := ⟨['1'], ⟨nofun, List.forall_mem_singleton.mpr rfl⟩, by decide⟩

def listOfOne : Json := .node .square .empty (.last .item (.atom one) .empty)

theorem precleanBytes_json_one : precleanBytes "[1,]".toList = "[1]".toList :=
  (precleanBytes_json listOfOne .empty .empty).2.1 "[1,]".toList "[1]".toList
    (.node .square .empty
      (.last .item (.atom one) (.commas [] [] rfl List.not_mem_nil) (Nat.le_refl 1)))

/-- The first of two commas does not stand right before the bracket. -/
theorem precleanBytes_two_commas : Trailed 2 listOfOne "[1,,]".toList "[1,]".toList ∧
    precleanBytes "[1,,]".toList = "[1,]".toList ∧ listOfOne.text = "[1]".toList :=
  ⟨.node .square .empty
    (.last .item (.atom one) (.commas [','] [] rfl List.not_mem_nil) (Nat.le_refl 2)),
    by decide, rfl⟩

end Trailing

end LensLM
