import LensLM.Lib.Search

/-!
# Fenced texts

The pieces of a text stand between an opening and a closing marker, with plain text in front of each
and behind the last one. The pieces are read back exactly where no marker stands in them.
-/

namespace Fences

open Search

set_option autoImplicit false

variable {α : Type}

structure Markers (α : Type) where
  opening : List α
  closing : List α
  opening_ne : opening ≠ []
  closing_ne : closing ≠ []
  opening_unbordered : Unbordered opening
  closing_unbordered : Unbordered closing

/-- What stands between two markers, and the plain text in front of them. -/
structure Piece (α : Type) where
  label : List α
  body : List α
deriving DecidableEq

namespace Markers

variable (m : Markers α)

def fenced (p : Piece α) : List α := p.label ++ (m.opening ++ (p.body ++ m.closing))

def written (pieces : List (Piece α)) (tail : List α) : List α :=
  pieces.flatMap m.fenced ++ tail

/-- Neither does a piece open earlier nor does it close earlier. -/
structure Clean (p : Piece α) : Prop where
  label : ¬m.opening <:+: p.label
  body : ¬m.closing <:+: p.body

variable [DecidableEq α]

/-- The first piece, up to the first closing marker behind the first opening one. -/
def readPiece (s : List α) : Option (Piece α × List α) :=
  (splitFirst m.opening s).bind fun x =>
    (splitFirst m.closing x.2).map fun y => (⟨x.1, y.1⟩, y.2)

variable {m} {s tail rest : List α} {p : Piece α} {pieces : List (Piece α)}

theorem readPiece_eq_some :
    m.readPiece s = some (p, rest) ↔ s = m.fenced p ++ rest ∧ m.Clean p := by
  unfold readPiece
  rw [Option.bind_eq_some_iff]
  constructor
  · rintro ⟨⟨label, inner⟩, hopen, h⟩
    obtain ⟨⟨body, behind⟩, hclose, heq⟩ := Option.map_eq_some_iff.mp h
    obtain ⟨rfl, rfl⟩ := Prod.mk.inj heq
    obtain ⟨rfl, hlabel⟩ := (splitFirst_eq_some m.opening_unbordered m.opening_ne).mp hopen
    obtain ⟨hinner, hbody⟩ := (splitFirst_eq_some m.closing_unbordered m.closing_ne).mp hclose
    dsimp only at hinner
    refine ⟨?_, hlabel, hbody⟩
    simp [fenced, hinner]
  · rintro ⟨rfl, hclean⟩
    refine ⟨(p.label, p.body ++ (m.closing ++ rest)), ?_, ?_⟩
    · refine (splitFirst_eq_some m.opening_unbordered m.opening_ne).mpr ⟨?_, hclean.label⟩
      simp [fenced]
    · rw [(splitFirst_eq_some m.closing_unbordered m.closing_ne).mpr ⟨rfl, hclean.body⟩]
      rfl

theorem length_readPiece (h : m.readPiece s = some (p, rest)) : rest.length < s.length := by
  have hpos := List.length_pos_iff.mpr m.opening_ne
  rw [(readPiece_eq_some.mp h).1]
  simp only [fenced, List.length_append]
  omega

/-- A text without an opening marker has no piece. -/
theorem readPiece_eq_none (h : ¬m.opening <:+: s) : m.readPiece s = none := by
  unfold readPiece
  rw [(splitFirst_eq_none m.opening_ne).mpr h, Option.bind_none]

variable (m) in
/-- All pieces, and the text behind the last one. -/
def readPieces (s : List α) : List (Piece α) × List α :=
  match h : m.readPiece s with
  | none => ([], s)
  | some (p, rest) =>
    have := length_readPiece h
    let more := readPieces rest
    (p :: more.1, more.2)
termination_by s.length

theorem readPieces_of_none (h : m.readPiece s = none) : m.readPieces s = ([], s) := by
  rw [readPieces]
  split <;> simp_all

theorem readPieces_of_some (h : m.readPiece s = some (p, rest)) :
    m.readPieces s = (p :: (m.readPieces rest).1, (m.readPieces rest).2) := by
  rw [readPieces]
  split <;> simp_all

/-- What is read is how the text is written in clean pieces. -/
theorem readPieces_eq_iff : m.readPieces s = (pieces, tail) ↔
    s = m.written pieces tail ∧ (∀ p ∈ pieces, m.Clean p) ∧ m.readPiece tail = none := by
  induction pieces generalizing s with
  | nil =>
    cases hread : m.readPiece s with
    | none =>
      rw [readPieces_of_none hread]
      constructor
      · rintro h
        obtain rfl := (Prod.mk.inj h).2
        exact ⟨rfl, by simp, hread⟩
      · rintro ⟨rfl, -, -⟩
        rfl
    | some found =>
      rw [readPieces_of_some hread]
      constructor
      · intro h
        simp at h
      · rintro ⟨rfl, -, htail⟩
        exact absurd (hread.symm.trans htail) (Option.some_ne_none found)
  | cons p pieces ih =>
    have hwritten : m.written (p :: pieces) tail = m.fenced p ++ m.written pieces tail := by
      simp [written]
    cases hread : m.readPiece s with
    | none =>
      rw [readPieces_of_none hread]
      constructor
      · intro h
        simp at h
      · rintro ⟨rfl, hclean, -⟩
        rw [hwritten, readPiece_eq_some.mpr ⟨rfl, hclean p List.mem_cons_self⟩] at hread
        exact absurd hread (Option.some_ne_none _)
    | some found =>
      obtain ⟨q, rest⟩ := found
      rw [readPieces_of_some hread, hwritten, Prod.mk.injEq, List.cons.injEq]
      constructor
      · rintro ⟨⟨rfl, hpieces⟩, htail⟩
        obtain ⟨hrest, hclean, hnone⟩ := ih.mp (Prod.ext hpieces htail)
        obtain ⟨hs, hq⟩ := readPiece_eq_some.mp hread
        refine ⟨by rw [hs, hrest], fun x hx => ?_, hnone⟩
        rcases List.mem_cons.mp hx with rfl | hx
        · exact hq
        · exact hclean x hx
      · rintro ⟨rfl, hclean, hnone⟩
        have hp := readPiece_eq_some.mpr
          ⟨(rfl : m.fenced p ++ m.written pieces tail = _), hclean p List.mem_cons_self⟩
        obtain ⟨rfl, rfl⟩ := Prod.mk.inj (Option.some.inj (hread.symm.trans hp))
        have hmore := ih.mpr ⟨rfl, fun x hx => hclean x (List.mem_cons_of_mem q hx), hnone⟩
        rw [hmore]
        exact ⟨⟨rfl, rfl⟩, rfl⟩

/-- The pieces that are written are those that are read exactly if each is clean. -/
theorem readPieces_written_iff (htail : m.readPiece tail = none) :
    m.readPieces (m.written pieces tail) = (pieces, tail) ↔ ∀ p ∈ pieces, m.Clean p := by
  rw [readPieces_eq_iff]
  simp [htail]

end Markers

end Fences
