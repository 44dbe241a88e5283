import LensLM.Lib.Whitespace
import LensLM.Lib.Spans
import LensLM.Lib.Outcome

/-!
# Blocks

The semantically labelled spans that the parsers produce and the chunker consumes.
-/

namespace LensLM

open ByteText Spans Outcome

set_option autoImplicit false

/-- A failed run: a reported parse error, or the panic of a bad index. -/
inductive Fault where
  | parse (msg : String)
  | panic
deriving DecidableEq, Repr

/-- A panic happens only under `C`. -/
def PanicOnlyIf (C : Prop) (f : Fault) : Prop := f = .panic → C

/-- The indexing expression `s[a..b]`. -/
def sliceBytes (s : Str) (a b : Nat) : Except Fault Str :=
  match slice s a b with
  | some t => .ok t
  | none => .error .panic

theorem sliceBytes_eq_ok {s t : Str} {a b : Nat} :
    sliceBytes s a b = .ok t ↔ slice s a b = some t := by
  unfold sliceBytes
  cases slice s a b <;> simp

theorem sliceBytes_of_slice {s t : Str} {a b : Nat} (h : slice s a b = some t) :
    sliceBytes s a b = .ok t := sliceBytes_eq_ok.mpr h

theorem sliceBytes_eq_panic {s : Str} {a b : Nat} (h : ¬ IsBoundary s b) :
    sliceBytes s a b = .error .panic := by
  unfold sliceBytes
  cases hs : slice s a b with
  | none => rfl
  | some t => exact absurd (slice_right_boundary hs) h

theorem sliceBytes_meets {s t : Str} {a b : Nat} {E : Fault → Prop} (h : slice s a b = some t) :
    Meets (sliceBytes s a b) (fun u => u = t) E := by
  rw [sliceBytes_of_slice h]
  rfl

inductive BlockType where
  | heading
  | paragraph
  | code
  | listItem
  | table
  | html
deriving DecidableEq, Repr

structure Block where
  blockType : BlockType
  sectionPath : Str
  text : Str
  charStart : Nat
  charEnd : Nat
deriving DecidableEq, Repr

def Block.span (b : Block) : Span := ⟨b.charStart, b.charEnd⟩

/-- The block's text is the slice of the source at its offsets. -/
def Block.Verbatim (src : Str) (b : Block) : Prop :=
  slice src b.charStart b.charEnd = some b.text

instance (src : Str) (b : Block) : Decidable (b.Verbatim src) :=
  inferInstanceAs (Decidable (_ = _))

theorem Block.Verbatim.charEnd_eq {src : Str} {b : Block} (h : b.Verbatim src) :
    b.charEnd = b.charStart + byteLen b.text := slice_stop h

/-- Verbatim blocks in document order, none overlapping the next. -/
structure BlockList (src : Str) where
  blocks : List Block
  verbatim : ∀ b ∈ blocks, b.Verbatim src
  disjoint : blocks.Pairwise fun a b => a.charEnd ≤ b.charStart

def BlockList.filter {src : Str} (bs : BlockList src) (p : Block → Bool) : BlockList src where
  blocks := bs.blocks.filter p
  verbatim := fun b hb => bs.verbatim b (List.mem_of_mem_filter hb)
  disjoint := bs.disjoint.sublist List.filter_sublist

end LensLM
