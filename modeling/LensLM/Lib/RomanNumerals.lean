import Mathlib.Data.List.Basic
import Mathlib.Data.Int.Order.Basic
import Mathlib.Tactic.Tauto

/-!
# Roman numerals

The letters of a word are summed, a letter before a greater one negatively. The sum is positive for
every word. The canonical numeral of a number has a group of letters for each of its digits.
-/

namespace RomanNumerals

set_option autoImplicit false

/-! ## The sum of a word -/

def letters : List Char := ['i', 'v', 'x', 'l', 'c', 'd', 'm']

def letterValue (c : Char) : Int :=
  match c with
  | 'i' => 1
  | 'v' => 5
  | 'x' => 10
  | 'l' => 50
  | 'c' => 100
  | 'd' => 500
  | 'm' => 1000
  | _ => 0

/-- What a letter adds before the rest of the word. -/
def signed (c : Char) (rest : List Char) : Int :=
  let next := (rest.head?.map letterValue).getD 0
  if letterValue c < next then -letterValue c else letterValue c

def total : List Char → Int
  | [] => 0
  | c :: rest => signed c rest + total rest

theorem total_cons (c : Char) (rest : List Char) :
    total (c :: rest) = signed c rest + total rest := rfl

theorem letterValue_nonneg (c : Char) : 0 ≤ letterValue c := by
  unfold letterValue
  split <;> decide

theorem letterValue_pos {c : Char} (h : c ∈ letters) : 0 < letterValue c := by
  have hall : (letters.all fun c => decide (0 < letterValue c)) = true := by decide
  exact of_decide_eq_true (List.all_eq_true.mp hall c h)

/-- A greater letter has at least twice the value. -/
theorem letterValue_gap {c d : Char} (hc : c ∈ letters) (hd : d ∈ letters)
    (h : letterValue c < letterValue d) : 2 * letterValue c ≤ letterValue d := by
  have hall : (letters.all fun c => letters.all fun d =>
      decide (letterValue c < letterValue d → 2 * letterValue c ≤ letterValue d)) = true := by
    decide
  have hgap := List.all_eq_true.mp (List.all_eq_true.mp hall c hc) d hd
  exact of_decide_eq_true hgap h

theorem signed_last (c : Char) : signed c [] = letterValue c :=
  if_neg (not_lt.mpr (letterValue_nonneg c))

theorem signed_cons (c d : Char) (rest : List Char) : signed c (d :: rest) =
    if letterValue c < letterValue d then -letterValue c else letterValue c := rfl

theorem signed_append {c : Char} {t : List Char} (h : ∀ b ∈ t, letterValue b ≤ letterValue c)
    (rest : List Char) : signed c (rest ++ t) = signed c rest := by
  cases rest with
  | cons d rest => rfl
  | nil =>
    cases t with
    | nil => rfl
    | cons b t =>
      rw [List.nil_append, signed_cons, if_neg (not_lt.mpr (h b List.mem_cons_self)), signed_last]

/-- No letter of the first word comes before a greater one of the second. -/
theorem total_append {s t : List Char} (h : ∀ a ∈ s, ∀ b ∈ t, letterValue b ≤ letterValue a) :
    total (s ++ t) = total s + total t := by
  induction s with
  | nil => simp [total]
  | cons a s ih =>
    have hs : ∀ a ∈ s, ∀ b ∈ t, letterValue b ≤ letterValue a := by
      intro a ha
      exact h a (List.mem_cons_of_mem _ ha)
    rw [List.cons_append, total_cons, total_cons, signed_append (h a List.mem_cons_self), ih hs]
    omega

/-- The sum is not below the value of the first letter. -/
theorem letterValue_le_total {c : Char} {rest : List Char} (h : ∀ a ∈ c :: rest, a ∈ letters) :
    letterValue c ≤ total (c :: rest) := by
  induction rest generalizing c with
  | nil =>
    rw [total_cons, signed_last]
    exact le_of_eq (Int.add_zero _).symm
  | cons d rest ih =>
    have hc := h c List.mem_cons_self
    have hd := h d (List.mem_cons_of_mem _ List.mem_cons_self)
    have hnext := ih fun a ha => h a (List.mem_cons_of_mem _ ha)
    have hpos := letterValue_pos hd
    rw [total_cons, signed_cons]
    split
    · next hlt =>
      have hgap := letterValue_gap hc hd hlt
      omega
    · omega

theorem total_pos {s : List Char} (hne : s ≠ []) (h : ∀ c ∈ s, c ∈ letters) : 0 < total s := by
  cases s with
  | nil => exact absurd rfl hne
  | cons c rest =>
    have hc := letterValue_pos (h c List.mem_cons_self)
    exact lt_of_lt_of_le hc (letterValue_le_total h)

/-! ## Canonical numerals -/

/-- A digit in the letters of its place. -/
def digit (one five ten : Char) : Nat → List Char
  | 1 => [one]
  | 2 => [one, one]
  | 3 => [one, one, one]
  | 4 => [one, five]
  | 5 => [five]
  | 6 => [five, one]
  | 7 => [five, one, one]
  | 8 => [five, one, one, one]
  | 9 => [one, ten]
  | _ => []

def numeral (n : Nat) : List Char :=
  List.replicate (n / 1000) 'm' ++ (digit 'c' 'd' 'm' (n / 100 % 10) ++
    (digit 'x' 'l' 'c' (n / 10 % 10) ++ digit 'i' 'v' 'x' (n % 10)))

/-- The numerals of the numbers that have one. -/
def Canonical (s : List Char) (n : Nat) : Prop := 0 < n ∧ n < 4000 ∧ s = numeral n

theorem mem_digit {one five ten c : Char} {k : Nat} (h : c ∈ digit one five ten k) :
    c = one ∨ c = five ∨ c = ten := by
  unfold digit at h
  split at h <;> simp only [List.mem_cons, List.not_mem_nil, or_false] at h <;> tauto

theorem total_thousands (k : Nat) : total (List.replicate k 'm') = 1000 * k := by
  induction k with
  | zero => rfl
  | succ k ih =>
    have hsigned : signed 'm' (List.replicate k 'm') = 1000 := by
      cases k with
      | zero => rfl
      | succ k => rfl
    rw [List.replicate_succ, total_cons, hsigned, ih]
    push_cast
    omega

theorem total_hundreds : ∀ k < 10, total (digit 'c' 'd' 'm' k) = 100 * k := by decide

theorem total_tens : ∀ k < 10, total (digit 'x' 'l' 'c' k) = 10 * k := by decide

theorem total_ones : ∀ k < 10, total (digit 'i' 'v' 'x' k) = k := by decide

theorem letterValue_digit {one five ten c : Char} {k : Nat} {low high : Int}
    (h : c ∈ digit one five ten k) (hone : low ≤ letterValue one ∧ letterValue one ≤ high)
    (hfive : low ≤ letterValue five ∧ letterValue five ≤ high)
    (hten : low ≤ letterValue ten ∧ letterValue ten ≤ high) :
    low ≤ letterValue c ∧ letterValue c ≤ high := by
  rcases mem_digit h with rfl | rfl | rfl
  · exact hone
  · exact hfive
  · exact hten

theorem total_numeral (n : Nat) : total (numeral n) = n := by
  have hhundreds : ∀ c ∈ digit 'c' 'd' 'm' (n / 100 % 10),
      100 ≤ letterValue c ∧ letterValue c ≤ 1000 :=
    fun c hc => letterValue_digit hc (by decide) (by decide) (by decide)
  have htens : ∀ c ∈ digit 'x' 'l' 'c' (n / 10 % 10), 10 ≤ letterValue c ∧ letterValue c ≤ 100 :=
    fun c hc => letterValue_digit hc (by decide) (by decide) (by decide)
  have hones : ∀ c ∈ digit 'i' 'v' 'x' (n % 10), 1 ≤ letterValue c ∧ letterValue c ≤ 10 :=
    fun c hc => letterValue_digit hc (by decide) (by decide) (by decide)
  have hlow : ∀ c ∈ digit 'x' 'l' 'c' (n / 10 % 10) ++ digit 'i' 'v' 'x' (n % 10),
      letterValue c ≤ 100 := by
    intro c hc
    rcases List.mem_append.mp hc with hc | hc
    · exact (htens c hc).2
    · exact le_trans (hones c hc).2 (by decide)
  have hall : ∀ c ∈ digit 'c' 'd' 'm' (n / 100 % 10) ++ (digit 'x' 'l' 'c' (n / 10 % 10) ++
      digit 'i' 'v' 'x' (n % 10)), letterValue c ≤ 1000 := by
    intro c hc
    rcases List.mem_append.mp hc with hc | hc
    · exact (hhundreds c hc).2
    · exact le_trans (hlow c hc) (by decide)
  unfold numeral
  rw [total_append, total_append, total_append, total_thousands, total_hundreds _ (by omega),
    total_tens _ (by omega), total_ones _ (by omega)]
  · omega
  · intro a ha b hb
    exact le_trans (hones b hb).2 (htens a ha).1
  · intro a ha b hb
    exact le_trans (hlow b hb) (hhundreds a ha).1
  · intro a ha b hb
    rw [List.eq_of_mem_replicate ha]
    exact hall b hb

theorem mem_letters_numeral {n : Nat} {c : Char} (h : c ∈ numeral n) : c ∈ letters := by
  unfold numeral at h
  rcases List.mem_append.mp h with h | h
  · rw [List.eq_of_mem_replicate h]
    decide
  · rcases List.mem_append.mp h with h | h
    · rcases mem_digit h with rfl | rfl | rfl <;> decide
    · rcases List.mem_append.mp h with h | h
      · rcases mem_digit h with rfl | rfl | rfl <;> decide
      · rcases mem_digit h with rfl | rfl | rfl <;> decide

theorem numeral_ne_nil {n : Nat} (h : 0 < n) : numeral n ≠ [] := by
  intro hnil
  have htotal := total_numeral n
  rw [hnil] at htotal
  have hzero : total [] = 0 := rfl
  omega

end RomanNumerals
