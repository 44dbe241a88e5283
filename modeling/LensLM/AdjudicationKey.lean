import LensLM.Resolution
import LensLM.Lib.Fields
import Mathlib.Data.Char
import Mathlib.Data.List.Lex
import Mathlib.Data.Sym.Sym2.Order

/-!
# The cache key of an adjudicated pair

The kind and the two names are joined by a separator that a name may hold. A verdict is read under
the key of another pair exactly where a separator has moved from one name into the other.
-/

namespace LensLM

open ByteText Fields

set_option autoImplicit false

/-- The names of a pair, the smaller one first. -/
def sortedNames (toLowercase : Str → Str) (a b : EntityNode) : Str × Str :=
  let names := s(normalizeName toLowercase a.name, normalizeName toLowercase b.name)
  (names.inf, names.sup)

section Names

variable (toLowercase : Str → Str) (a b a' b' : EntityNode)

theorem sortedNames_comm : sortedNames toLowercase a b = sortedNames toLowercase b a := by
  unfold sortedNames
  rw [Sym2.eq_swap]

/-- The names in their order stand for the pair. -/
theorem sortedNames_eq_iff : sortedNames toLowercase a b = sortedNames toLowercase a' b' ↔
    s(normalizeName toLowercase a.name, normalizeName toLowercase b.name) =
      s(normalizeName toLowercase a'.name, normalizeName toLowercase b'.name) := by
  unfold sortedNames
  rw [Prod.mk.injEq, Sym2.inf_eq_inf_and_sup_eq_sup]

theorem adjudicationKey_eq : adjudicationKey toLowercase a b =
    a.kind.asStr ++ '|' :: ((sortedNames toLowercase a b).1 ++
      '|' :: (sortedNames toLowercase a b).2) := by
  unfold adjudicationKey sortedNames
  dsimp only
  rw [Sym2.inf_mk, Sym2.sup_mk, List.append_assoc, List.cons_append]
  split
  · rename_i h
    rw [inf_eq_right.mpr h.le, sup_eq_left.mpr h.le]
  · rename_i h
    rw [inf_eq_left.mpr (not_lt.mp h), sup_eq_right.mpr (not_lt.mp h)]

end Names

section Kinds

theorem EntityKind.asStr_injective : Function.Injective EntityKind.asStr := by
  intro k l h
  cases k <;> cases l <;> first | rfl | exact absurd h (by decide)

theorem EntityKind.separator_notMem (kind : EntityKind) : '|' ∉ kind.asStr := by
  cases kind <;> decide

end Kinds

/-- The key stands for the kind of two nodes and for their names without an order. -/
structure KeysIdentify (toLowercase : Str → Str) (a b a' b' : EntityNode) : Prop where
  symm : a.kind = b.kind → adjudicationKey toLowercase a b = adjudicationKey toLowercase b a
  unique : adjudicationKey toLowercase a b = adjudicationKey toLowercase a' b' →
    a.kind = a'.kind ∧
      s(normalizeName toLowercase a.name, normalizeName toLowercase b.name) =
        s(normalizeName toLowercase a'.name, normalizeName toLowercase b'.name)

/-- In one kind, a separator has moved from a name of one pair into the other name. -/
def SeparatorMoved (toLowercase : Str → Str) (a b a' b' : EntityNode) : Prop :=
  a.kind = a'.kind ∧
    (Shifted '|' (sortedNames toLowercase a b) (sortedNames toLowercase a' b') ∨
      Shifted '|' (sortedNames toLowercase a' b') (sortedNames toLowercase a b))

section Identify

variable {toLowercase : Str → Str} {a b a' b' : EntityNode}

theorem adjudicationKey_comm (h : a.kind = b.kind) :
    adjudicationKey toLowercase a b = adjudicationKey toLowercase b a := by
  rw [adjudicationKey_eq, adjudicationKey_eq, sortedNames_comm, h]

theorem adjudicationKey_eq_iff :
    adjudicationKey toLowercase a b = adjudicationKey toLowercase a' b' ↔
      a.kind = a'.kind ∧ sortedNames toLowercase a b = sortedNames toLowercase a' b' ∨
        SeparatorMoved toLowercase a b a' b' := by
  rw [adjudicationKey_eq, adjudicationKey_eq]
  constructor
  · intro h
    obtain ⟨hkind, hnames⟩ := single_cons_inj a.kind.separator_notMem a'.kind.separator_notMem h
    have hkind := EntityKind.asStr_injective hkind
    cases joined_eq_iff.mp hnames with
    | inl heq => exact .inl ⟨hkind, heq⟩
    | inr hshift => exact .inr ⟨hkind, hshift⟩
  · rintro (⟨hkind, heq⟩ | ⟨hkind, hshift⟩)
    · rw [hkind, heq]
    · rw [hkind, joined_eq_iff.mpr (.inr hshift)]

theorem SeparatorMoved.ne (h : SeparatorMoved toLowercase a b a' b') :
    sortedNames toLowercase a b ≠ sortedNames toLowercase a' b' := by
  obtain ⟨-, h | h⟩ := h
  · exact h.ne
  · exact h.ne.symm

end Identify

/-- Two pairs share a key wrongly exactly where a separator has moved. -/
theorem keysIdentify_iff (toLowercase : Str → Str) (a b a' b' : EntityNode) :
    KeysIdentify toLowercase a b a' b' ↔ ¬ SeparatorMoved toLowercase a b a' b' := by
  constructor
  · intro h hmoved
    have hkey := adjudicationKey_eq_iff.mpr (.inr hmoved)
    exact hmoved.ne ((sortedNames_eq_iff toLowercase a b a' b').mpr (h.unique hkey).2)
  · intro h
    refine ⟨adjudicationKey_comm, ?_⟩
    intro hkey
    rcases adjudicationKey_eq_iff.mp hkey with ⟨hkind, heq⟩ | hmoved
    · exact ⟨hkind, (sortedNames_eq_iff toLowercase a b a' b').mp heq⟩
    · exact absurd hmoved h

def namedNode (id : String) (name : Str) : EntityNode := ⟨id, .concept, name, none⟩

theorem keysIdentify_separator : ¬ KeysIdentify (List.map Char.toLower)
    (namedNode "1" "a|b".toList) (namedNode "2" "c".toList)
    (namedNode "3" "a".toList) (namedNode "4" "b|c".toList) := by
  intro h
  have hpair := (h.unique (by decide +kernel)).2
  revert hpair
  decide +kernel

end LensLM
