import LensLM.Chunk
import LensLM.Lib.Fields
import LensLM.Lib.Utf8

/-!
# The cache key of an enrichment

The key is a hash of the joined components. The last component is left out where it is off, and the
version in the middle has bytes of any value in a fixed width.
-/

namespace LensLM

open ByteText Fields Utf8

set_option autoImplicit false

structure CacheKeyParts where
  contentHash : Str
  llmModelId : Str
  promptVersion : UInt32
  corefStrategy : Str
  relationsStrategy : Str
deriving DecidableEq, Repr

namespace CacheKeyParts

def relationsStrategyOff : Str := "off".toList

/-- The relations are marked only where they are on. -/
def relationsBytes (p : CacheKeyParts) : List UInt8 :=
  if p.relationsStrategy = relationsStrategyOff then [] else 0 :: encode p.relationsStrategy

/-- What the hasher is updated with. -/
def hashed (p : CacheKeyParts) : List UInt8 :=
  encode p.contentHash ++ 0 :: (encode p.llmModelId ++ 0 ::
    (leBytes 4 p.promptVersion.toNat ++ 0 :: (encode p.corefStrategy ++ p.relationsBytes)))

def compute (sha256Hex : List UInt8 → String) (p : CacheKeyParts) : String := sha256Hex p.hashed

structure NulFree (p : CacheKeyParts) : Prop where
  contentHash : Char.ofNat 0 ∉ p.contentHash
  llmModelId : Char.ofNat 0 ∉ p.llmModelId
  corefStrategy : Char.ofNat 0 ∉ p.corefStrategy
  relationsStrategy : Char.ofNat 0 ∉ p.relationsStrategy

end CacheKeyParts

section Version

theorem length_leBytes (width n : Nat) : (leBytes width n).length = width := by
  induction width generalizing n with
  | zero => rfl
  | succ width ih => rw [leBytes, List.length_cons, ih]

/-- The bytes of a number within their width. -/
theorem leBytes_inj {width m n : Nat} (hm : m < 256 ^ width) (hn : n < 256 ^ width)
    (h : leBytes width m = leBytes width n) : m = n := by
  induction width generalizing m n with
  | zero =>
    rw [Nat.pow_zero] at hm hn
    omega
  | succ width ih =>
    obtain ⟨hbyte, hrest⟩ := List.cons.inj h
    have hlow : m % 256 = n % 256 := by
      have hnat := congrArg UInt8.toNat hbyte
      rwa [UInt8.toNat_ofNat', UInt8.toNat_ofNat'] at hnat
    have hhigh : m / 256 = n / 256 := by
      rw [Nat.pow_succ] at hm hn
      exact ih (by omega) (by omega) hrest
    omega

theorem promptVersion_inj {v w : UInt32} (h : leBytes 4 v.toNat = leBytes 4 w.toNat) : v = w :=
  UInt32.toNat.inj (leBytes_inj v.toNat_lt w.toNat_lt h)

end Version

namespace CacheKeyParts

variable {p q : CacheKeyParts}

theorem relationsBytes_head (p : CacheKeyParts) : ∀ b ∈ p.relationsBytes.head?, b = 0 := by
  unfold relationsBytes
  split
  · nofun
  · intro b hb
    exact (Option.some.inj hb).symm

/-- The marker tells every strategy from the one that is left out. -/
theorem relationsBytes_inj (h : p.relationsBytes = q.relationsBytes) :
    p.relationsStrategy = q.relationsStrategy := by
  unfold relationsBytes at h
  split at h
  · rename_i hp
    split at h
    · rename_i hq
      rw [hp, hq]
    · cases h
  · split at h
    · cases h
    · exact encode_injective (List.cons.inj h).2

/-- The components are read back from the bytes that are hashed. -/
theorem hashed_injective (hp : p.NulFree) (hq : q.NulFree) (h : p.hashed = q.hashed) : p = q := by
  have hbytes : ∀ {s : Str}, Char.ofNat 0 ∉ s → 0 ∉ encode s := fun hs hzero =>
    hs (zero_mem_encode.mp hzero)
  obtain ⟨hcontent, h⟩ := single_cons_inj (hbytes hp.contentHash) (hbytes hq.contentHash) h
  obtain ⟨hmodel, h⟩ := single_cons_inj (hbytes hp.llmModelId) (hbytes hq.llmModelId) h
  obtain ⟨hversion, h⟩ := List.append_inj h (by rw [length_leBytes, length_leBytes])
  obtain ⟨hcoref, hrelations⟩ := single_inj (hbytes hp.corefStrategy) (hbytes hq.corefStrategy)
    p.relationsBytes_head q.relationsBytes_head (List.cons.inj h).2
  cases p
  cases q
  obtain rfl := encode_injective hcontent
  obtain rfl := encode_injective hmodel
  obtain rfl := promptVersion_inj hversion
  obtain rfl := encode_injective hcoref
  obtain rfl := relationsBytes_inj hrelations
  rfl

/-- Different components without NUL give the hash different bytes. -/
theorem hashed_ne (hp : p.NulFree) (hq : q.NulFree) (h : p ≠ q) : p.hashed ≠ q.hashed :=
  fun heq => h (hashed_injective hp hq heq)

def offParts : CacheKeyParts :=
  ⟨"abc123".toList, "llama3".toList, 3, "llm_inline".toList, relationsStrategyOff⟩

def onParts : CacheKeyParts := { offParts with relationsStrategy := "on".toList }

theorem hashed_ne_relations : offParts.hashed ≠ onParts.hashed :=
  hashed_ne ⟨by decide, by decide, by decide, by decide⟩
    ⟨by decide, by decide, by decide, by decide⟩ (by decide)

end CacheKeyParts

end LensLM
