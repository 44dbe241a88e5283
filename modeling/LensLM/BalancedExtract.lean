import LensLM.Block
import LensLM.DialogueTurns
import LensLM.Lib.JsonBytes

/-!
# The first balanced value

The extraction scans bytes from the first bracket on and slices the text at the byte where the
bracket closes. Over a JSON value in front of other text it finds that value.
-/

namespace LensLM

open ByteText JsonText Utf8

set_option autoImplicit false

/-- The slice from the first `opening` to the byte at which the tracker ends. -/
def extractBytes {D : Type} (t : Tracker D) (d : D) (opening : Char) (text : Str) :
    Except Fault (Option Str) :=
  if opening ∈ text then
    let start := byteLen (text.takeWhile (· != opening))
    match t.take .outside d ((readBytes text).drop start) with
    | some read => (sliceBytes text start (start + read.length)).map some
    | none => .ok none
  else .ok none

def extractJsonArrayBytes (text : Str) : Except Fault (Option Str) :=
  extractBytes arrayTracker (0, 0) '[' text

def extractJsonObjectBytes (text : Str) : Except Fault (Option Str) :=
  extractBytes objectTracker 0 '{' text

/-- The scan of the bytes is that of the characters, and it slices at a boundary. -/
theorem extractBytes_eq {D : Type} {t : Tracker D} (d : D) (opening : Char) (text : Str)
    (hcount : ∀ d c, isBracket c = false → t.step d c = (d, false)) :
    extractBytes t d opening text = .ok (t.take .outside d (text.dropWhile (· != opening))) := by
  have hsplit : text.takeWhile (· != opening) ++ text.dropWhile (· != opening) = text :=
    List.takeWhile_append_dropWhile
  unfold extractBytes
  split
  · next hmem =>
    have hread : (readBytes text).drop (byteLen (text.takeWhile (· != opening))) =
        readBytes (text.dropWhile (· != opening)) := by
      have hboth := congrArg readBytes hsplit
      rw [readBytes_append] at hboth
      rw [← hboth, List.drop_left' (length_readBytes _)]
    dsimp only
    rw [hread, Tracker.take_readBytes hcount]
    cases htake : t.take .outside d (text.dropWhile (· != opening)) with
    | none => rfl
    | some u =>
      obtain ⟨r, hr⟩ := Tracker.take_prefix htake
      have hslice : slice text (byteLen (text.takeWhile (· != opening)))
          (byteLen (text.takeWhile (· != opening)) + byteLen u) = some u := by
        apply slice_eq_some.mpr
        exact ⟨_, r, by rw [← hr, hsplit], rfl, rfl⟩
      rw [Option.map_some]
      dsimp only
      rw [length_readBytes, sliceBytes_of_slice hslice]
      rfl
  · next hnone =>
    have hempty : text.dropWhile (· != opening) = [] := by
      apply List.dropWhile_eq_nil_iff.mpr
      intro c hc
      have hne : c ≠ opening := by
        rintro rfl
        exact hnone hc
      simpa using hne
    rw [hempty, Tracker.take]

theorem extractJsonArrayBytes_eq (text : Str) :
    extractJsonArrayBytes text = .ok (extractJsonArray text) :=
  extractBytes_eq (0, 0) '[' text arrayTracker_balanced.other

theorem extractJsonObjectBytes_eq (text : Str) :
    extractJsonObjectBytes text = .ok (extractJsonObject text) :=
  extractBytes_eq 0 '{' text objectTracker_balanced.other

theorem exists_elements {v : Json} (h : v.start = .bracket .square) :
    ∃ items, v.elements = some items := by
  cases v with
  | atom a => cases h
  | str s => cases h
  | empty b w =>
    cases h
    exact ⟨_, rfl⟩
  | node b w es =>
    cases h
    exact ⟨_, rfl⟩

/-- An array or an object is found whole between a prefix without its bracket and any suffix. -/
theorem extract_whole (v : Json) (before after : Str) :
    (v.start = .bracket .square → '[' ∉ before →
        extractJsonArrayBytes (before ++ (v.text ++ after)) = .ok (some v.text)) ∧
      (v.start = .bracket .curly → '{' ∉ before →
        extractJsonObjectBytes (before ++ (v.text ++ after)) = .ok (some v.text)) := by
  constructor
  · intro hv hbefore
    obtain ⟨items, hitems⟩ := exists_elements hv
    rw [extractJsonArrayBytes_eq, extractJsonArray_first hbefore hitems]
  · intro hv hbefore
    rw [extractJsonObjectBytes_eq, extractJsonObject_first hbefore hv]

theorem extract_whole_pair :
    extractJsonArrayBytes "é []]".toList = .ok (some "[]".toList) ∧
      extractJsonObjectBytes "[{ }\"".toList = .ok (some "{ }".toList) :=
  ⟨(extract_whole (.empty .square .empty) "é ".toList "]".toList).1 rfl (by decide),
    (extract_whole (.empty .curly ⟨[' '], List.forall_mem_singleton.mpr rfl⟩) "[".toList
      "\"".toList).2 rfl (by decide)⟩

end LensLM
