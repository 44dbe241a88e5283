import LensLM.Lib.ByteText

/-!
# The fence redactor

The prompt fences its excerpts with markers that carry a nonce. The redactor takes the markers out
of the answer, and holds back a tail that may become one.
-/

namespace LensLM

open ByteText

set_option autoImplicit false

structure FenceRedactor where
  markers : List Str
  maxLen : Nat
  buf : Str
deriving DecidableEq

/-- A text without the first occurrence of a marker, if it has one. -/
def cutFirst (marker : Str) : Str → Option Str
  | [] => if marker = [] then some [] else none
  | c :: s =>
    if marker <+: c :: s then some ((c :: s).drop marker.length)
    else (cutFirst marker s).map (c :: ·)

/-- A marker has a character, so that a text is cut no more often than it is long. -/
def cutAll (marker : Str) : Nat → Str → Str
  | 0, s => s
  | n + 1, s =>
    match cutFirst marker s with
    | some s' => cutAll marker n s'
    | none => s

namespace FenceRedactor

def new (nonce : Str) : FenceRedactor :=
  let markers := [
    "<<SRC:".toList ++ nonce ++ ">>".toList,
    "<<END:".toList ++ nonce ++ ">>".toList,
    "<SRC:".toList ++ nonce ++ ">".toList,
    "<END:".toList ++ nonce ++ ">".toList]
  { markers, maxLen := (markers.map byteLen).max?.getD 0, buf := [] }

def stripComplete (r : FenceRedactor) : FenceRedactor :=
  { r with buf := r.markers.foldl (fun buf m => cutAll m buf.length buf) r.buf }

/-- The longest tail that is a proper beginning of a marker. -/
def heldBack (r : FenceRedactor) : Str :=
  (r.buf.tails.find? fun tail => byteLen tail ≤ r.maxLen - 1 && tail != [] &&
    r.markers.any fun m => tail.isPrefixOf m).getD []

/-- How many characters of the buffer are safe to emit. -/
def safeSplit (r : FenceRedactor) : Nat := r.buf.length - r.heldBack.length

def push (r : FenceRedactor) (delta : Str) : Str × FenceRedactor :=
  let r := stripComplete { r with buf := r.buf ++ delta }
  (r.buf.take r.safeSplit, { r with buf := r.buf.drop r.safeSplit })

def flush (r : FenceRedactor) : Str × FenceRedactor :=
  let r := r.stripComplete
  (r.buf, { r with buf := [] })

end FenceRedactor

end LensLM
