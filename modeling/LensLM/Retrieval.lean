import LensLM.Lib.ByteText

/-!
# Retrieval hits and context units

Scores and confidences are finite floats of which only the order is used: they range over a
linear order.
-/

namespace LensLM

open ByteText

set_option autoImplicit false

/-- The retrieval paths that surfaced a hit. -/
inductive HitSource where
  | dense
  | bm25
  | both
  | graph
deriving DecidableEq, Repr

structure Provenance (κ : Type) where
  source : HitSource
  graphConfidence : Option κ
deriving DecidableEq, Repr

/-- A unit of context, in document order. -/
structure ContextUnit (κ : Type) where
  text : Str
  sourceId : String
  chunkId : String
  parentId : Option String
  locator : Option Str
  orderIndex : Nat
  provenance : Provenance κ
deriving DecidableEq, Repr

end LensLM
