import Mathlib.Data.List.Basic
import Mathlib.Data.List.GetD

/-!
# Speech codes

A speech model emits ids, seven for every frame of audio, with markers among them. An id stands for
a code by its position among the ids that were kept, and the codes of a frame go to three codebooks.
-/

namespace LensLM.Snac

set_option autoImplicit false

def CUSTOM_TOKEN_BASE : Nat := 128266

def CODEBOOK_SPAN : Nat := 4096

def TOKENS_PER_FRAME : Nat := 7

/-- The loop of `extract_codes`, with `pos` ids kept so far. -/
def extractFrom (pos : Nat) : List Nat → List Nat
  | [] => []
  | raw :: rest =>
    let code : Int := raw - CUSTOM_TOKEN_BASE - (pos % TOKENS_PER_FRAME : Nat) * CODEBOOK_SPAN
    if 0 < code ∧ code < CODEBOOK_SPAN then code.toNat :: extractFrom (pos + 1) rest
    else extractFrom pos rest

def extractCodes (rawIds : List Nat) : List Nat := extractFrom 0 rawIds

/-- The codes at the given slots of each frame. -/
def codebook (codes : List Nat) (numFrames : Nat) (slots : List Nat) : List Nat :=
  (List.range numFrames).flatMap fun j => slots.map fun k => codes.getD (TOKENS_PER_FRAME * j + k) 0

structure Codebooks where
  c0 : List Nat
  c1 : List Nat
  c2 : List Nat
deriving DecidableEq

def regroupFrames (codes : List Nat) : Option Codebooks :=
  let numFrames := codes.length / TOKENS_PER_FRAME
  if numFrames = 0 then none
  else some ⟨codebook codes numFrames [0], codebook codes numFrames [1, 4],
    codebook codes numFrames [2, 3, 5, 6]⟩

section Encoding

abbrev Code := {c : Nat // 1 ≤ c ∧ c ≤ 4095}

/-- A whole frame of codes. -/
structure Frame where
  f0 : Code
  f1 : Code
  f2 : Code
  f3 : Code
  f4 : Code
  f5 : Code
  f6 : Code

def Frame.codes (f : Frame) : List Nat :=
  [f.f0.val, f.f1.val, f.f2.val, f.f3.val, f.f4.val, f.f5.val, f.f6.val]

def frameCodes (frames : List Frame) : List Nat := frames.flatMap Frame.codes

/-- The ids of the codes from position `pos` on. -/
def encodeFrom (pos : Nat) : List Nat → List Nat
  | [] => []
  | code :: rest =>
    (CUSTOM_TOKEN_BASE + pos % TOKENS_PER_FRAME * CODEBOOK_SPAN + code) :: encodeFrom (pos + 1) rest

def encode (codes : List Nat) : List Nat := encodeFrom 0 codes

/-- A stream of the ids with any ids below the base put between them. -/
inductive Interleaved : List Nat → List Nat → Prop
  | nil : Interleaved [] []
  | id {ids stream : List Nat} (id : Nat) : Interleaved ids stream →
      Interleaved (id :: ids) (id :: stream)
  | marker {ids stream : List Nat} {raw : Nat} : raw < CUSTOM_TOKEN_BASE → Interleaved ids stream →
      Interleaved ids (raw :: stream)

/-- The codes of the frames, put together again from the codebooks. -/
def ungroup : List Nat → List Nat → List Nat → List (List Nat)
  | f0 :: c0, f1 :: f4 :: c1, f2 :: f3 :: f5 :: f6 :: c2 =>
    [f0, f1, f2, f3, f4, f5, f6] :: ungroup c0 c1 c2
  | _, _, _ => []

def Codebooks.frames (b : Codebooks) : List (List Nat) := ungroup b.c0 b.c1 b.c2

end Encoding

section Extraction

theorem extractFrom_marker {pos raw : Nat} (h : raw < CUSTOM_TOKEN_BASE) (rest : List Nat) :
    extractFrom pos (raw :: rest) = extractFrom pos rest := by
  have hlow : ¬ (0 < (raw : Int) - CUSTOM_TOKEN_BASE - (pos % TOKENS_PER_FRAME : Nat) *
      CODEBOOK_SPAN ∧ (raw : Int) - CUSTOM_TOKEN_BASE - (pos % TOKENS_PER_FRAME : Nat) *
      CODEBOOK_SPAN < CODEBOOK_SPAN) := by
    unfold CODEBOOK_SPAN
    omega
  simp only [extractFrom, if_neg hlow]

theorem extractFrom_id {pos code : Nat} (hpos : 1 ≤ code) (hle : code ≤ 4095) (rest : List Nat) :
    extractFrom pos
        ((CUSTOM_TOKEN_BASE + pos % TOKENS_PER_FRAME * CODEBOOK_SPAN + code) :: rest) =
      code :: extractFrom (pos + 1) rest := by
  have hcode : ((CUSTOM_TOKEN_BASE + pos % TOKENS_PER_FRAME * CODEBOOK_SPAN + code : Nat) : Int) -
      CUSTOM_TOKEN_BASE - (pos % TOKENS_PER_FRAME : Nat) * CODEBOOK_SPAN = code := by
    rw [Int.natCast_add, Int.natCast_add, Int.natCast_mul]
    omega
  have hkept : 0 < (code : Int) ∧ (code : Int) < CODEBOOK_SPAN := by
    unfold CODEBOOK_SPAN
    omega
  simp only [extractFrom, hcode, if_pos hkept, Int.toNat_natCast]

/-- Markers between the ids do not shift their positions. -/
theorem extractFrom_interleaved {codes stream : List Nat} {pos : Nat}
    (hcodes : ∀ c ∈ codes, 1 ≤ c ∧ c ≤ 4095) (h : Interleaved (encodeFrom pos codes) stream) :
    extractFrom pos stream = codes := by
  generalize hids : encodeFrom pos codes = ids at h
  induction h generalizing pos codes with
  | nil =>
    cases codes with
    | nil => rfl
    | cons c codes => cases hids
  | id id _ ih =>
    cases codes with
    | nil => cases hids
    | cons c codes =>
      obtain ⟨hid, hrest⟩ := List.cons.inj hids
      obtain ⟨hc, hcs⟩ := List.forall_mem_cons.mp hcodes
      rw [← hid, extractFrom_id hc.1 hc.2, ih hcs hrest]
  | marker hlow _ ih => rw [extractFrom_marker hlow, ih hcodes hids]

theorem extractFrom_inRange (pos : Nat) (ids : List Nat) :
    ∀ c ∈ extractFrom pos ids, 1 ≤ c ∧ c ≤ 4095 := by
  induction ids generalizing pos with
  | nil =>
    intro c hc
    cases hc
  | cons raw rest ih =>
    simp only [extractFrom]
    split
    · rename_i hkept
      intro c hc
      cases List.mem_cons.mp hc with
      | inl heq =>
        have hspan : (CODEBOOK_SPAN : Int) = 4096 := rfl
        omega
      | inr hrest => exact ih (pos + 1) c hrest
    · exact ih pos

theorem frameCodes_inRange (frames : List Frame) : ∀ c ∈ frameCodes frames, 1 ≤ c ∧ c ≤ 4095 := by
  intro c hc
  obtain ⟨f, _, hcf⟩ := List.mem_flatMap.mp hc
  simp only [Frame.codes, List.mem_cons, List.not_mem_nil, or_false] at hcf
  rcases hcf with rfl | rfl | rfl | rfl | rfl | rfl | rfl
  · exact f.f0.property
  · exact f.f1.property
  · exact f.f2.property
  · exact f.f3.property
  · exact f.f4.property
  · exact f.f5.property
  · exact f.f6.property

end Extraction

section Regrouping

theorem length_codebook (codes : List Nat) (numFrames : Nat) (slots : List Nat) :
    (codebook codes numFrames slots).length = slots.length * numFrames := by
  unfold codebook
  induction numFrames with
  | zero => rfl
  | succ n ih =>
    rw [List.range_succ, List.flatMap_append, List.length_append, ih, List.flatMap_singleton,
      List.length_map, Nat.mul_succ]

/-- The first frame gives the codes at its own slots. -/
theorem codebook_append {frame : List Nat} (hlen : frame.length = TOKENS_PER_FRAME)
    (rest : List Nat) (numFrames : Nat) {slots : List Nat}
    (hslots : ∀ k ∈ slots, k < TOKENS_PER_FRAME) :
    codebook (frame ++ rest) (numFrames + 1) slots =
      slots.map (fun k => frame.getD k 0) ++ codebook rest numFrames slots := by
  unfold codebook
  rw [List.range_succ_eq_map, List.flatMap_cons, List.flatMap_map]
  congr 1
  · apply List.map_congr_left
    intro k hk
    rw [Nat.mul_zero, Nat.zero_add, List.getD_append _ _ _ _ (hlen ▸ hslots k hk)]
  · apply List.flatMap_congr
    intro j _
    apply List.map_congr_left
    intro k _
    have hpos : TOKENS_PER_FRAME * (j + 1) + k = frame.length + (TOKENS_PER_FRAME * j + k) := by
      rw [hlen, Nat.mul_succ, Nat.add_comm (TOKENS_PER_FRAME * j), Nat.add_assoc]
    rw [Nat.succ_eq_add_one, hpos, List.getD_append_right _ _ _ _ (Nat.le_add_right _ _),
      Nat.add_sub_cancel_left]

theorem length_frameCodes (frames : List Frame) :
    (frameCodes frames).length = TOKENS_PER_FRAME * frames.length := by
  induction frames with
  | nil => rfl
  | cons f frames ih =>
    have hcons : frameCodes (f :: frames) = f.codes ++ frameCodes frames := rfl
    rw [hcons, List.length_append, ih, List.length_cons, Nat.mul_succ, Nat.add_comm]
    rfl

theorem ungroup_codebooks (frames : List Frame) :
    ungroup (codebook (frameCodes frames) frames.length [0])
      (codebook (frameCodes frames) frames.length [1, 4])
      (codebook (frameCodes frames) frames.length [2, 3, 5, 6]) = frames.map Frame.codes := by
  induction frames with
  | nil => rfl
  | cons f frames ih =>
    have hcons : frameCodes (f :: frames) = f.codes ++ frameCodes frames := rfl
    have hlen : f.codes.length = TOKENS_PER_FRAME := rfl
    rw [hcons, List.length_cons, codebook_append hlen _ _ (by decide),
      codebook_append hlen _ _ (by decide), codebook_append hlen _ _ (by decide)]
    exact congrArg (f.codes :: ·) ih

theorem regroupFrames_frameCodes (frames : List Frame) :
    (regroupFrames (frameCodes frames)).elim [] Codebooks.frames = frames.map Frame.codes := by
  have hcount : (frameCodes frames).length / TOKENS_PER_FRAME = frames.length := by
    rw [length_frameCodes]
    exact Nat.mul_div_cancel_left _ (by decide)
  unfold regroupFrames
  simp only [hcount]
  split
  · rename_i hzero
    rw [List.length_eq_zero_iff.mp hzero]
    rfl
  · exact ungroup_codebooks frames

theorem regroupFrames_lengths {codes : List Nat} {books : Codebooks}
    (h : regroupFrames codes = some books) :
    books.c0.length = codes.length / TOKENS_PER_FRAME ∧
    books.c1.length = 2 * (codes.length / TOKENS_PER_FRAME) ∧
    books.c2.length = 4 * (codes.length / TOKENS_PER_FRAME) := by
  unfold regroupFrames at h
  dsimp only at h
  split at h
  · cases h
  · cases h
    refine ⟨?_, length_codebook .., length_codebook ..⟩
    rw [length_codebook]
    exact Nat.one_mul _

end Regrouping

end LensLM.Snac
