import LensLM.ChunkSplit
import LensLM.Lib.Tiling

/-!
# Splitting makes progress

Whatever the counter says of a text, a split point lies behind a first piece of it, so that a block is
taken apart into pieces that follow each other.
-/

namespace LensLM

open ByteText Spans Outcome

set_option autoImplicit false

section FindSplit

variable {count : Str → Nat} {limit : Nat} {text : Str}

/-- A boundary behind the first character or later, where the piece in front of it fits if any cut
fitted that was tested, and is one character otherwise. -/
structure SplitsAt (count : Str → Nat) (limit : Nat) (text : Str) (n : Nat) : Prop where
  boundary : IsBoundary text n
  pos : 1 ≤ n
  le : n ≤ byteLen text
  fits : ∀ piece, slice text 0 n = some piece →
    (∃ cut pre, TestedCut (Tokenizer.ofCount count) limit text cut ∧ slice text 0 cut = some pre ∧
      count pre ≤ limit) → count piece ≤ limit
  single : ∀ piece, slice text 0 n = some piece → ¬ count piece ≤ limit → piece.length = 1

theorem SplitsAt.of_best {n : Nat} (h : BestSplit (Tokenizer.ofCount count) limit text n) :
    SplitsAt count limit text n := by
  have hpoint := h.splitPoint
  obtain ⟨first, hfirst, -, hfit⟩ := h
  have hpiece : ∀ piece, slice text 0 n = some piece → piece = first := fun piece hslice =>
    Option.some.inj (hslice.symm.trans hfirst)
  refine ⟨slice_right_boundary hfirst, hpoint.pos, hpoint.le, ?_, ?_⟩
  · rintro piece hslice ⟨cut, pre, htest, hpre, hle⟩
    rw [hpiece piece hslice]
    rcases hfit with hfits | ⟨-, hnone⟩
    · exact fits_ofCount.mp hfits
    · exact absurd (fits_ofCount.mpr hle) (hnone cut pre htest hpre).not_fits
  · intro piece hslice hover
    rw [hpiece piece hslice] at hover ⊢
    rcases hfit with hfits | ⟨hone, -⟩
    · exact absurd (fits_ofCount.mp hfits) hover
    · exact hone

/-- A counter never fails, so that the search returns. -/
theorem findSplit_ofCount (count : Str → Nat) (limit : Nat) {text : Str} (hne : text ≠ []) :
    ∃ n, findSplit (Tokenizer.ofCount count) limit text = .ok n ∧
      BestSplit (Tokenizer.ofCount count) limit text n := by
  have hmeets : Meets (findSplit (Tokenizer.ofCount count) limit text)
      (BestSplit (Tokenizer.ofCount count) limit text) fun _ => False :=
    findSplit_best (fun _ => trivial) hne
  cases hsplit : findSplit (Tokenizer.ofCount count) limit text with
  | ok n => exact ⟨n, rfl, hmeets.value hsplit⟩
  | error e => exact (hmeets.failure hsplit).elim

end FindSplit

section SplitOversized

/-- What one call to `emit` is given. -/
structure SplitPiece where
  text : Str
  charStart : Nat
  charEnd : Nat

def SplitPiece.span (p : SplitPiece) : Span := ⟨p.charStart, p.charEnd⟩

/-- Non-empty slices of the source that follow each other and make up a text. -/
structure Partition (src : Str) (start stop : Nat) (text : Str) (pieces : List SplitPiece) : Prop where
  verbatim : ∀ p ∈ pieces, slice src p.charStart p.charEnd = some p.text
  nonempty : ∀ p ∈ pieces, p.text ≠ []
  consecutive : Consecutive start stop (pieces.map SplitPiece.span)
  flatten : pieces.flatMap SplitPiece.text = text

variable {src : Str}

theorem Partition.nil (start : Nat) : Partition src start start [] [] where
  verbatim _ h := absurd h List.not_mem_nil
  nonempty _ h := absurd h List.not_mem_nil
  consecutive := rfl
  flatten := rfl

theorem Partition.cons {p : SplitPiece} {pieces : List SplitPiece} {stop : Nat} {rest : Str}
    (hp : slice src p.charStart p.charEnd = some p.text) (hne : p.text ≠ [])
    (h : Partition src p.charEnd stop rest pieces) :
    Partition src p.charStart stop (p.text ++ rest) (p :: pieces) where
  verbatim := List.forall_mem_cons.mpr ⟨hp, h.verbatim⟩
  nonempty := List.forall_mem_cons.mpr ⟨hne, h.nonempty⟩
  consecutive := by
    have hstop := slice_stop hp
    exact ⟨rfl, by dsimp only [SplitPiece.span]; omega, h.consecutive⟩
  flatten := by rw [List.flatMap_cons, h.flatten]

variable {block : Block} {count : Str → Nat} {limit : Nat}

/-- From a boundary on, the loop hands out pieces of the rest, whatever is done with them. -/
theorem splitOversizedFrom_pieces (hv : block.Verbatim src) {segStart : Nat} {rest : Str}
    (hrest : slice block.text segStart (byteLen block.text) = some rest) :
    ∃ pieces, Partition src (block.charStart + segStart) block.charEnd rest pieces ∧
      ∀ (σ : Type) (emit : σ → Str → Nat → Nat → Except Fault σ) (acc : σ),
        splitOversizedFrom src block limit (Tokenizer.ofCount count) emit segStart acc =
          pieces.foldlM (fun acc p => emit acc p.text p.charStart p.charEnd) acc := by
  induction hd : byteLen block.text - segStart using Nat.strong_induction_on
    generalizing segStart rest with
  | _ d ih =>
    have hend := hv.charEnd_eq
    have hlen := slice_stop hrest
    by_cases hlt : segStart < byteLen block.text
    · have hne : rest ≠ [] := by
        rintro rfl
        rw [byteLen_nil] at hlen
        omega
      obtain ⟨segLen, hsplit, hbest⟩ := findSplit_ofCount count limit hne
      have hpos := hbest.splitPoint.pos
      have hle := hbest.splitPoint.le
      obtain ⟨piece, hpiece, hpne, -⟩ := hbest
      have hin := slice_of_slice hrest hpiece
      rw [Nat.add_zero] at hin
      have habs := slice_of_slice hv hin
      obtain ⟨rest', hrest'⟩ := exists_slice (slice_right_boundary hin)
        (isBoundary_byteLen block.text) (slice_right_boundary hin).le
      have hparts : rest = piece ++ rest' :=
        Option.some.inj (hrest.symm.trans (slice_append hin hrest'))
      obtain ⟨pieces, hpartition, hrun⟩ := ih _ (by omega) hrest' rfl
      refine ⟨⟨piece, block.charStart + segStart, block.charStart + (segStart + segLen)⟩ :: pieces,
        ?_, ?_⟩
      · rw [hparts]
        exact Partition.cons (p := ⟨piece, _, _⟩) habs hpne hpartition
      · intro σ emit acc
        have hforce : forceProgress segStart (min (segStart + segLen) (byteLen block.text))
            (byteLen block.text) = segStart + segLen := by
          unfold forceProgress
          rw [Nat.min_eq_left (by omega), if_neg (by omega)]
        have hmin : min (block.charStart + (segStart + segLen)) (byteLen src) =
            block.charStart + (segStart + segLen) :=
          Nat.min_eq_left (slice_right_boundary habs).le
        have hstep : splitOversizedFrom src block limit (Tokenizer.ofCount count) emit segStart acc =
            emit acc piece (block.charStart + segStart) (block.charStart + (segStart + segLen)) >>=
              splitOversizedFrom src block limit (Tokenizer.ofCount count) emit
                (segStart + segLen) := by
          rw [splitOversizedFrom, if_pos hlt, sliceBytes_of_slice hrest]
          change (findSplit _ limit rest >>= _) = _
          rw [hsplit]
          change (sliceBytes src _ _ >>= _) = _
          rw [hforce, hmin, sliceBytes_of_slice habs]
          rfl
        rw [hstep, List.foldlM_cons]
        exact bind_congr (hrun σ emit)
    · have hstart : segStart = byteLen block.text := by
        have := (slice_left_boundary hrest).le
        omega
      obtain rfl : rest = [] := byteLen_eq_zero.mp (by omega)
      refine ⟨[], ?_, ?_⟩
      · rw [hend, hstart]
        exact .nil _
      · intro σ emit acc
        rw [splitOversizedFrom, if_neg hlt]
        rfl

/-- Every non-empty text is split behind a first piece, so that a block comes apart into pieces that
make it up. -/
theorem splitting_progresses (count : Str → Nat) (limit : Nat) :
    (∀ text, text ≠ [] → ∃ n, findSplit (Tokenizer.ofCount count) limit text = .ok n ∧
      SplitsAt count limit text n) ∧
    ∀ src block, block.Verbatim src →
      ∃ pieces, Partition src block.charStart block.charEnd block.text pieces ∧
        ∀ (σ : Type) (emit : σ → Str → Nat → Nat → Except Fault σ) (acc : σ),
          splitOversized src block limit (Tokenizer.ofCount count) emit acc =
            pieces.foldlM (fun acc p => emit acc p.text p.charStart p.charEnd) acc := by
  constructor
  · intro text hne
    obtain ⟨n, hsplit, hbest⟩ := findSplit_ofCount count limit hne
    exact ⟨n, hsplit, .of_best hbest⟩
  · intro src block hv
    exact splitOversizedFrom_pieces hv (slice_self block.text)

/-- A counter that does not grow with the text. -/
theorem splitting_progresses_uneven :
    ∃ n, findSplit (Tokenizer.ofCount fun t => if t.length = 5 then 9 else 10 - t.length) 8
      "ab cd".toList = .ok n ∧
      SplitsAt (fun t => if t.length = 5 then 9 else 10 - t.length) 8 "ab cd".toList n :=
  (splitting_progresses _ 8).1 "ab cd".toList (by decide)

end SplitOversized

end LensLM
