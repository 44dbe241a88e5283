import LensLM.Lib.ByteText
import LensLM.Lib.Fields

/-!
# Vector tables and their names

A notebook's vectors live in one table per embedding coordinate and generation, whose name
is put together from the fields of the coordinate.
-/

namespace LensLM

open ByteText Fields

set_option autoImplicit false

inductive EmbeddingBackend where
  | fastembed
  | ollama
deriving DecidableEq, Repr

def EmbeddingBackend.asStr : EmbeddingBackend → Str
  | .fastembed => "fastembed".toList
  | .ollama => "ollama".toList

/-- A stored token; an absent or unknown one is the default. -/
def EmbeddingBackend.fromOptStr (s : Option Str) : EmbeddingBackend :=
  if s = some "ollama".toList then .ollama else .fastembed

structure EmbeddingModelSpec where
  id : Str
  dim : Nat
deriving DecidableEq, Repr

/-- The supported models; the first is the default. -/
def REGISTRY : List EmbeddingModelSpec :=
  [⟨"nomic-embed-text-v1.5".toList, 768⟩, ⟨"mxbai-embed-large".toList, 1024⟩,
    ⟨"all-minilm".toList, 384⟩, ⟨"bge-m3".toList, 1024⟩, ⟨"embeddinggemma".toList, 768⟩,
    ⟨"qwen3-embedding:4b".toList, 2560⟩, ⟨"nomic-embed-text-v2-moe".toList, 768⟩,
    ⟨"snowflake-arctic-embed2".toList, 1024⟩]

def LEGACY_DEFAULT_ALIAS : Str := "nomic-embed-text".toList

def defaultSpec : EmbeddingModelSpec := ⟨"nomic-embed-text-v1.5".toList, 768⟩

def resolveOpt (id : Str) : Option EmbeddingModelSpec :=
  if id = LEGACY_DEFAULT_ALIAS then some defaultSpec else REGISTRY.find? fun spec => spec.id = id

def resolve (id : Str) : EmbeddingModelSpec := (resolveOpt id).getD defaultSpec

structure Coordinate where
  notebook : Str
  backend : EmbeddingBackend
  model : Str
  dim : Nat
deriving DecidableEq, Repr

/-- The slug loop: letters and digits in lower case, every other run one `_`. -/
def slugChars (prevUs : Bool) : Str → Str
  | [] => []
  | ch :: rest =>
    if ch.isAlphanum then ch.toLower :: slugChars false rest
    else if prevUs then slugChars true rest
    else '_' :: slugChars true rest

def trimMatches (ch : Char) (s : Str) : Str :=
  ((s.dropWhile (· == ch)).reverse.dropWhile (· == ch)).reverse

def modelSlug (model : Str) : Str :=
  if model = "nomic-embed-text-v1.5".toList then "nomic_v15".toList
  else trimMatches '_' (slugChars false model)

def VEC_TABLE_PREFIX : Str := "vec__".toList

def tableName (notebook : Str) (backend : EmbeddingBackend) (model : Str) (dim : Nat) : Str :=
  VEC_TABLE_PREFIX ++ notebook ++ "__".toList ++ backend.asStr ++ "__".toList ++ modelSlug model ++
    "__d".toList ++ Nat.toDigits 10 dim

/-- Generation 0 is the plain name. -/
def genTableName (c : Coordinate) (generation : Nat) : Str :=
  if generation = 0 then tableName c.notebook c.backend c.model c.dim
  else tableName c.notebook c.backend c.model c.dim ++ "__".toList ++ Nat.toDigits 10 generation

section Slugs

theorem isAlphanum_lower_ne {ch : Char} (h : ch.isAlphanum = true) : ch.toLower ≠ '_' := by
  intro hu
  have hlow : ch.toLower.toNat = 95 := by rw [hu]; rfl
  delta Char.toLower at hlow
  delta Char.isAlphanum Char.isAlpha Char.isUpper Char.isLower Char.isDigit at h
  split at hlow
  · simp_all [UInt32.le_iff_toNat_le]
    omega
  · simp_all [UInt32.le_iff_toNat_le]

theorem head_slugChars_true (s : Str) : (slugChars true s).head? ≠ some '_' := by
  induction s with
  | nil => simp [slugChars]
  | cons ch s ih =>
    simp only [slugChars]
    split
    · rename_i h
      simpa using isAlphanum_lower_ne h
    · exact ih

theorem noPair_slugChars (s : Str) (prevUs : Bool) : NoPair '_' (slugChars prevUs s) := by
  induction s generalizing prevUs with
  | nil => exact noPair_nil
  | cons ch s ih =>
    simp only [slugChars]
    split
    · rename_i h
      apply noPair_cons.mpr
      refine ⟨?_, ih false⟩
      intro hp
      exact isAlphanum_lower_ne h (List.cons_prefix_cons.mp hp).1.symm
    · split
      · exact ih true
      · apply noPair_cons.mpr
        refine ⟨?_, ih true⟩
        intro hp
        have hp := (List.cons_prefix_cons.mp hp).2
        obtain ⟨t, ht⟩ := hp
        exact head_slugChars_true s (by rw [← ht]; rfl)

theorem trimMatches_inside (ch : Char) (s : Str) : trimMatches ch s <:+: s := by
  have hback : trimMatches ch s <+: s.dropWhile (· == ch) := by
    unfold trimMatches
    rw [← List.reverse_suffix, List.reverse_reverse]
    exact List.dropWhile_suffix _
  exact hback.isInfix.trans (List.dropWhile_suffix _).isInfix

theorem noPair_modelSlug (model : Str) : NoPair '_' (modelSlug model) := by
  unfold modelSlug
  split
  · unfold NoPair
    decide
  · exact (noPair_slugChars model false).inside (trimMatches_inside _ _)

end Slugs

section Names

theorem toDigits_injective {m n : Nat} (h : Nat.toDigits 10 m = Nat.toDigits 10 n) : m = n := by
  have := congrArg (fun ds => Nat.ofDigitChars 10 ds 0) h
  simpa [Nat.ofDigitChars_ten_toDigits] using this

theorem underscore_notMem (n : Nat) : '_' ∉ Nat.toDigits 10 n := Nat.underscore_not_in_toDigits

theorem head_toDigits_ne (n : Nat) : (Nat.toDigits 10 n).head? ≠ some '_' :=
  fun h => underscore_notMem n (List.mem_of_head? h)

/-- What follows the dimension's `d`. -/
def genSuffix (dim generation : Nat) : Str :=
  if generation = 0 then Nat.toDigits 10 dim
  else Nat.toDigits 10 dim ++ '_' :: '_' :: Nat.toDigits 10 generation

theorem genSuffix_inj {m n g h : Nat} (hs : genSuffix m g = genSuffix n h) : m = n ∧ g = h := by
  unfold genSuffix at hs
  split at hs <;> split at hs
  · exact ⟨toDigits_injective hs, by omega⟩
  · exact absurd (by rw [hs]; simp) (underscore_notMem m)
  · exact absurd (by rw [← hs]; simp) (underscore_notMem n)
  · obtain ⟨hd, hg⟩ := field_inj (noPair_of_notMem (underscore_notMem m))
      (noPair_of_notMem (underscore_notMem n)) (head_toDigits_ne g) (head_toDigits_ne h) hs
    exact ⟨toDigits_injective hd, toDigits_injective hg⟩

theorem genTableName_eq (c : Coordinate) (g : Nat) :
    genTableName c g = VEC_TABLE_PREFIX ++ (c.notebook ++ '_' :: '_' :: (c.backend.asStr ++
      ('_' :: '_' :: (modelSlug c.model ++ '_' :: '_' :: ('d' :: genSuffix c.dim g))))) := by
  unfold genTableName genSuffix tableName
  split <;> simp

theorem asStr_fastembed : EmbeddingBackend.fastembed.asStr = 'f' :: "astembed".toList := rfl

theorem asStr_ollama : EmbeddingBackend.ollama.asStr = 'o' :: "llama".toList := rfl

theorem backend_tail_head (b : EmbeddingBackend) (tail : Str) :
    (b.asStr ++ tail).head? ≠ some '_' := by
  cases b with
  | fastembed => simp [asStr_fastembed]
  | ollama => simp [asStr_ollama]

theorem backend_tail_inj {a b : EmbeddingBackend} {x y : Str} (h : a.asStr ++ x = b.asStr ++ y) :
    a = b ∧ x = y := by
  cases a with
  | fastembed =>
    cases b with
    | fastembed => exact ⟨rfl, List.append_cancel_left h⟩
    | ollama => exact absurd (List.cons.inj h).1 (by decide)
  | ollama =>
    cases b with
    | fastembed => exact absurd (List.cons.inj h).1 (by decide)
    | ollama => exact ⟨rfl, List.append_cancel_left h⟩

/-- Two coordinates that a table name cannot tell apart. -/
def Coordinate.SameNames (c d : Coordinate) : Prop :=
  c.notebook = d.notebook ∧ c.backend = d.backend ∧ modelSlug c.model = modelSlug d.model ∧
    c.dim = d.dim

theorem genTableName_eq_iff {c d : Coordinate} {g h : Nat} (hc : NoPair '_' c.notebook)
    (hd : NoPair '_' d.notebook) :
    genTableName c g = genTableName d h ↔ c.SameNames d ∧ g = h := by
  constructor
  · intro hn
    rw [genTableName_eq, genTableName_eq] at hn
    have hn := List.append_cancel_left hn
    obtain ⟨hnb, hn⟩ := field_inj hc hd (backend_tail_head _ _) (backend_tail_head _ _) hn
    obtain ⟨hb, hn⟩ := backend_tail_inj hn
    simp only [List.cons.injEq, true_and] at hn
    obtain ⟨hs, hn⟩ := field_inj (noPair_modelSlug _) (noPair_modelSlug _) (by simp) (by simp) hn
    obtain ⟨hdim, hg⟩ := genSuffix_inj (List.cons.inj hn).2
    exact ⟨⟨hnb, hb, hs, hdim⟩, hg⟩
  · rintro ⟨⟨hnb, hb, hs, hdim⟩, rfl⟩
    rw [genTableName_eq, genTableName_eq, hnb, hb, hs, hdim]

theorem registry_slugs_injective :
    ∀ a ∈ REGISTRY, ∀ b ∈ REGISTRY, modelSlug a.id = modelSlug b.id → a = b := by
  decide +kernel

/-- A coordinate of a supported model, as the notebook's settings resolve to. -/
def Coordinate.Supported (c : Coordinate) : Prop := ⟨c.model, c.dim⟩ ∈ REGISTRY

theorem Coordinate.SameNames.eq {c d : Coordinate} (hs : c.SameNames d) (hc : c.Supported)
    (hd : d.Supported) : c = d := by
  obtain ⟨hn, hb, hm, hdim⟩ := hs
  have hspec := registry_slugs_injective _ hc _ hd hm
  cases c
  cases d
  simp only [EmbeddingModelSpec.mk.injEq] at hn hb hdim hspec
  simp [hn, hb, hdim, hspec.1]

/-- The slug forgets which separator a model id has. -/
theorem genTableName_collides :
    ∃ c d : Coordinate, NoPair '_' c.notebook ∧ NoPair '_' d.notebook ∧ c ≠ d ∧
      genTableName c 0 = genTableName d 0 :=
  ⟨⟨"nb".toList, .fastembed, "bge-m3".toList, 1024⟩, ⟨"nb".toList, .fastembed, "bge_m3".toList, 1024⟩,
    by unfold NoPair; decide, by unfold NoPair; decide, by decide +kernel, by decide +kernel⟩

/-- Names coincide exactly when everything but the model ids agrees and the model ids have one
slug. Coordinates of supported models never share a name. -/
theorem genTableName_determines {c d : Coordinate} (g h : Nat) (hc : NoPair '_' c.notebook)
    (hd : NoPair '_' d.notebook) :
    (genTableName c g = genTableName d h ↔ c.SameNames d ∧ g = h) ∧
      (c.Supported → d.Supported → genTableName c g = genTableName d h → c = d ∧ g = h) := by
  constructor
  · exact genTableName_eq_iff hc hd
  · intro hsc hsd hn
    obtain ⟨hs, hg⟩ := (genTableName_eq_iff hc hd).mp hn
    exact ⟨hs.eq hsc hsd, hg⟩

def nomicCoordinate : Coordinate := ⟨"nb".toList, .fastembed, "nomic-embed-text-v1.5".toList, 768⟩

theorem genTableName_determines_nomic :
    (genTableName nomicCoordinate 0 = genTableName nomicCoordinate 1 ↔
        nomicCoordinate.SameNames nomicCoordinate ∧ 0 = 1) ∧
      (nomicCoordinate.Supported → nomicCoordinate.Supported →
        genTableName nomicCoordinate 0 = genTableName nomicCoordinate 1 →
          nomicCoordinate = nomicCoordinate ∧ 0 = 1) :=
  genTableName_determines 0 1 (by unfold NoPair; decide) (by unfold NoPair; decide)

end Names

end LensLM
