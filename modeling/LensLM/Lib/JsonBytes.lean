import LensLM.Lib.JsonScan
import LensLM.Lib.Utf8

/-!
# Scanning the bytes of JSON texts

Quotes, escapes and brackets are ASCII characters, so that a scanner of the bytes keeps in step with
a scanner of the characters: it passes the bytes of another character as it passes the character.
-/

namespace JsonText

open ByteText Utf8

set_option autoImplicit false

/-- The state behind a character that is neither a quote nor a backslash. -/
def QuoteState.past : QuoteState → QuoteState
  | .outside => .outside
  | .inside => .inside
  | .escaped => .inside

theorem ne_of_beyond {x a : Char} (h : 128 ≤ x.toNat) (ha : a.toNat < 128) : x ≠ a := by
  rintro rfl
  omega

theorem QuoteState.step_beyond {x : Char} (h : 128 ≤ x.toNat) (q : QuoteState) :
    q.step x = q.past := by
  cases q with
  | outside => exact if_neg (ne_of_beyond h (by decide))
  | inside =>
    have hback : x ≠ '\\' := ne_of_beyond h (by decide)
    have hquote : x ≠ '"' := ne_of_beyond h (by decide)
    show (if x = '\\' then QuoteState.escaped else if x = '"' then .outside else .inside) = _
    rw [if_neg hback, if_neg hquote]
    rfl
  | escaped => rfl

@[simp] theorem QuoteState.past_past (q : QuoteState) : q.past.past = q.past := by
  cases q with
  | outside => rfl
  | inside => rfl
  | escaped => rfl

/-- The bytes of one character, unless it is one byte of ASCII. -/
theorem readBytes_single (c : Char) : readBytes [c] = [c] ∨
    128 ≤ c.toNat ∧ ∃ x xs, readBytes [c] = x :: xs ∧ 128 ≤ x.toNat ∧ ∀ y ∈ xs, 128 ≤ y.toNat := by
  rcases Nat.lt_or_ge c.toNat 128 with h | h
  · exact Or.inl (readBytes_ascii h)
  · right
    refine ⟨h, ?_⟩
    have hall := readBytes_beyond h
    have hlen := length_readBytes [c]
    cases hread : readBytes [c] with
    | nil =>
      have hpos := c.utf8Size_pos
      rw [hread, byteLen_cons, List.length_nil] at hlen
      omega
    | cons x xs =>
      rw [hread] at hall
      exact ⟨x, xs, rfl, hall x List.mem_cons_self, fun y hy => hall y (List.mem_cons_of_mem x hy)⟩

theorem readBytes_cons (c : Char) (s : Str) : readBytes (c :: s) = readBytes [c] ++ readBytes s :=
  readBytes_append [c] s

variable {D : Type} {t : Tracker D}

/-- A tracker that counts nothing beyond ASCII passes such characters. -/
theorem Tracker.take_beyond (hcount : ∀ d c, isBracket c = false → t.step d c = (d, false))
    {x : Char} (hx : 128 ≤ x.toNat) (q : QuoteState) (d : D) (r : Str) :
    t.take q d (x :: r) = (t.take q.past d r).map (x :: ·) := by
  have hstep := QuoteState.step_beyond hx q
  have hnone : t.step d x = (d, false) := by
    apply hcount
    simp only [isBracket, Bool.or_eq_false_iff, beq_eq_false_iff_ne]
    exact ⟨⟨⟨ne_of_beyond hx (by decide), ne_of_beyond hx (by decide)⟩,
      ne_of_beyond hx (by decide)⟩, ne_of_beyond hx (by decide)⟩
  cases q with
  | outside => rw [Tracker.take, hnone, hstep, if_neg Bool.false_ne_true]
  | inside =>
    rw [Tracker.take, hstep]
    intro h
    cases h
  | escaped =>
    rw [Tracker.take, hstep]
    intro h
    cases h

theorem Tracker.take_all_beyond (hcount : ∀ d c, isBracket c = false → t.step d c = (d, false))
    {xs : Str} (hxs : ∀ x ∈ xs, 128 ≤ x.toNat) {q : QuoteState} (hq : q.past = q) (d : D) (r : Str) :
    t.take q d (xs ++ r) = (t.take q d r).map (xs ++ ·) := by
  induction xs with
  | nil => simp
  | cons x xs ih =>
    rw [List.cons_append, Tracker.take_beyond hcount (hxs x List.mem_cons_self), hq,
      ih fun y hy => hxs y (List.mem_cons_of_mem x hy), Option.map_map]
    rfl

/-- Over the bytes of a text a tracker takes the bytes of what it takes of the text. -/
theorem Tracker.take_readBytes (hcount : ∀ d c, isBracket c = false → t.step d c = (d, false))
    (q : QuoteState) (d : D) (s : Str) :
    t.take q d (readBytes s) = (t.take q d s).map readBytes := by
  induction s generalizing q d with
  | nil => simp [Tracker.take]
  | cons c s ih =>
    rw [readBytes_cons]
    rcases readBytes_single c with hone | ⟨hc, x, xs, hread, hx, hxs⟩
    · have hmap : ∀ o : Option Str, (o.map readBytes).map (c :: ·) =
          (o.map (c :: ·)).map readBytes := by
        intro o
        rw [Option.map_map, Option.map_map]
        congr 1
        funext u
        exact (congrArg (· ++ readBytes u) hone).symm.trans (readBytes_cons c u).symm
      rw [hone, List.singleton_append]
      cases q with
      | outside =>
        rw [Tracker.take, Tracker.take]
        split
        · rw [Option.map_some, hone]
        · rw [ih, hmap]
      | inside => rw [Tracker.take, Tracker.take, ih, hmap] <;> exact fun h => by cases h
      | escaped => rw [Tracker.take, Tracker.take, ih, hmap] <;> exact fun h => by cases h
    · rw [hread, List.cons_append, Tracker.take_beyond hcount hx,
        Tracker.take_all_beyond hcount hxs (QuoteState.past_past q), ih,
        Tracker.take_beyond hcount hc, Option.map_map, Option.map_map, Option.map_map]
      congr 1
      funext u
      show x :: (xs ++ readBytes u) = readBytes (c :: u)
      rw [readBytes_cons, hread, List.cons_append]

end JsonText
