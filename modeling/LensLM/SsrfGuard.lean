import Mathlib.Data.Nat.Bitwise

/-!
# Addresses that are never fetched

Loopback, private, reserved and link-local addresses are refused, and so is an IPv6 address of a
transition mechanism with such an IPv4 address in it.
-/

namespace LensLM

set_option autoImplicit false

section Addresses

structure Ipv4Addr where
  a : UInt8
  b : UInt8
  c : UInt8
  d : UInt8
deriving DecidableEq, Repr

/-- The eight segments. -/
structure Ipv6Addr where
  s0 : UInt16
  s1 : UInt16
  s2 : UInt16
  s3 : UInt16
  s4 : UInt16
  s5 : UInt16
  s6 : UInt16
  s7 : UInt16
deriving DecidableEq, Repr

inductive IpAddr where
  | v4 (addr : Ipv4Addr)
  | v6 (addr : Ipv6Addr)
deriving DecidableEq, Repr

namespace Ipv4Addr

def isLoopback (v4 : Ipv4Addr) : Bool := v4.a == 127

def isPrivate (v4 : Ipv4Addr) : Bool :=
  v4.a == 10 || (v4.a == 172 && 16 ≤ v4.b && v4.b ≤ 31) || (v4.a == 192 && v4.b == 168)

def isLinkLocal (v4 : Ipv4Addr) : Bool := v4.a == 169 && v4.b == 254

def isUnspecified (v4 : Ipv4Addr) : Bool := v4 == ⟨0, 0, 0, 0⟩

def isBroadcast (v4 : Ipv4Addr) : Bool := v4 == ⟨255, 255, 255, 255⟩

def isMulticast (v4 : Ipv4Addr) : Bool := 224 ≤ v4.a && v4.a ≤ 239

def isDocumentation (v4 : Ipv4Addr) : Bool :=
  (v4.a == 192 && v4.b == 0 && v4.c == 2) || (v4.a == 198 && v4.b == 51 && v4.c == 100) ||
    (v4.a == 203 && v4.b == 0 && v4.c == 113)

end Ipv4Addr

/-- The address with the upper and the lower bytes of two segments. -/
def ipv4OfSegments (high low : UInt16) : Ipv4Addr :=
  ⟨(high >>> 8).toUInt8, high.toUInt8, (low >>> 8).toUInt8, low.toUInt8⟩

namespace Ipv6Addr

def isLoopback (v6 : Ipv6Addr) : Bool := v6 == ⟨0, 0, 0, 0, 0, 0, 0, 1⟩

def isUnspecified (v6 : Ipv6Addr) : Bool := v6 == ⟨0, 0, 0, 0, 0, 0, 0, 0⟩

def toIpv4Mapped (v6 : Ipv6Addr) : Option Ipv4Addr :=
  if v6.s0 = 0 ∧ v6.s1 = 0 ∧ v6.s2 = 0 ∧ v6.s3 = 0 ∧ v6.s4 = 0 ∧ v6.s5 = 0xffff then
    some (ipv4OfSegments v6.s6 v6.s7)
  else none

end Ipv6Addr

end Addresses

section Guard

def CLOUD_METADATA_IP : IpAddr := .v4 ⟨169, 254, 169, 254⟩

def SIXTOFOUR_PREFIX : UInt16 := 0x2002

def TEREDO_PREFIX_HIGH : UInt16 := 0x2001

def TEREDO_PREFIX_LOW : UInt16 := 0x0000

def NAT64_WELL_KNOWN_HIGH : UInt16 := 0x0064

def NAT64_WELL_KNOWN_LOW : UInt16 := 0xff9b

def embeddedTransitionIpv4 (v6 : Ipv6Addr) : Option Ipv4Addr :=
  if v6.s0 = SIXTOFOUR_PREFIX then some (ipv4OfSegments v6.s1 v6.s2)
  else if v6.s0 = NAT64_WELL_KNOWN_HIGH ∧ v6.s1 = NAT64_WELL_KNOWN_LOW ∧ v6.s2 = 0 ∧ v6.s3 = 0 ∧
      v6.s4 = 0 ∧ v6.s5 = 0 then
    some (ipv4OfSegments v6.s6 v6.s7)
  else if v6.s0 = TEREDO_PREFIX_HIGH ∧ v6.s1 = TEREDO_PREFIX_LOW then
    some (ipv4OfSegments (~~~v6.s6) (~~~v6.s7))
  else none

def isBenchmarkingIpv4 (v4 : Ipv4Addr) : Bool := v4.a == 198 && v4.b &&& 0xfe == 18

def isIanaReservedIpv4 (v4 : Ipv4Addr) : Bool := 240 ≤ v4.a

def isLoopbackIp : IpAddr → Bool
  | .v4 v4 => v4.isLoopback
  | .v6 v6 =>
    match v6.toIpv4Mapped with
    | some mapped => mapped.isLoopback
    | none => v6.isLoopback

/-- The function on an IPv4 address, to which the other one comes back. -/
def isBlockedIpv4 (v4 : Ipv4Addr) : Bool :=
  .v4 v4 == CLOUD_METADATA_IP || isLoopbackIp (.v4 v4) || v4.isPrivate || v4.isLinkLocal ||
    v4.isUnspecified || v4.isBroadcast || v4.isMulticast || v4.isDocumentation ||
    isBenchmarkingIpv4 v4 || isIanaReservedIpv4 v4 || v4.a == 0 ||
    -- carrier-grade translation, 100.64.0.0/10
    (v4.a == 100 && v4.b &&& 0xc0 == 0x40)

def isBlockedIp : IpAddr → Bool
  | .v4 v4 => isBlockedIpv4 v4
  | .v6 v6 =>
    match v6.toIpv4Mapped with
    | some mapped => isBlockedIpv4 mapped
    | none =>
      match embeddedTransitionIpv4 v6 with
      | some embedded => isBlockedIpv4 embedded
      | none =>
        isLoopbackIp (.v6 v6) || v6.isUnspecified ||
          -- link-local fe80::/10 and unique-local fc00::/7
          v6.s0 &&& 0xffc0 == 0xfe80 || v6.s0 &&& 0xfe00 == 0xfc00

end Guard

section Embeddings

/-- Two bytes in network order. -/
def segment (high low : UInt8) : UInt16 := (high.toUInt16 <<< 8) ||| low.toUInt16

inductive TransitionForm where
  | mapped
  | compatible
  | sixToFour
  | nat64
  | teredo
deriving DecidableEq, Repr

/-- `Embeds form v4 v6`: the IPv6 address carries the IPv4 address in this form. The other fields of
6to4 and Teredo addresses are free, and a Teredo client's address is complemented. -/
inductive Embeds : TransitionForm → Ipv4Addr → Ipv6Addr → Prop
  | mapped (a b c d : UInt8) :
    Embeds .mapped ⟨a, b, c, d⟩ ⟨0, 0, 0, 0, 0, 0xffff, segment a b, segment c d⟩
  | compatible (a b c d : UInt8) :
    Embeds .compatible ⟨a, b, c, d⟩ ⟨0, 0, 0, 0, 0, 0, segment a b, segment c d⟩
  | sixToFour (a b c d : UInt8) (subnet i0 i1 i2 i3 : UInt16) :
    Embeds .sixToFour ⟨a, b, c, d⟩ ⟨0x2002, segment a b, segment c d, subnet, i0, i1, i2, i3⟩
  | nat64 (a b c d : UInt8) :
    Embeds .nat64 ⟨a, b, c, d⟩ ⟨0x0064, 0xff9b, 0, 0, 0, 0, segment a b, segment c d⟩
  | teredo (a b c d : UInt8) (server0 server1 flags port : UInt16) :
    Embeds .teredo ⟨a, b, c, d⟩
      ⟨0x2001, 0, server0, server1, flags, port, ~~~segment a b, ~~~segment c d⟩

theorem toNat_segment (high low : UInt8) :
    (segment high low).toNat = 256 * high.toNat + low.toNat := by
  have hhigh := high.toNat_lt
  have hlow := low.toNat_lt
  unfold segment
  rw [UInt16.toNat_or, UInt16.toNat_shiftLeft, UInt8.toNat_toUInt16, UInt8.toNat_toUInt16]
  show (high.toNat <<< 8 % 2 ^ 16) ||| low.toNat = _
  rw [Nat.shiftLeft_eq, Nat.mod_eq_of_lt (by omega), Nat.mul_comm,
    ← Nat.two_pow_add_eq_or_of_lt hlow]

@[simp] theorem segment_high (high low : UInt8) : (segment high low >>> 8).toUInt8 = high := by
  have hhigh := high.toNat_lt
  have hlow := low.toNat_lt
  apply UInt8.toNat.inj
  rw [UInt16.toNat_toUInt8, UInt16.toNat_shiftRight, toNat_segment]
  show (256 * high.toNat + low.toNat) >>> 8 % 2 ^ 8 = _
  rw [Nat.shiftRight_eq_div_pow]
  omega

@[simp] theorem segment_low (high low : UInt8) : (segment high low).toUInt8 = low := by
  have hlow := low.toNat_lt
  apply UInt8.toNat.inj
  rw [UInt16.toNat_toUInt8, toNat_segment]
  omega

@[simp] theorem ipv4OfSegments_segment (a b c d : UInt8) :
    ipv4OfSegments (segment a b) (segment c d) = ⟨a, b, c, d⟩ := by
  simp [ipv4OfSegments]

theorem segment_inj {a b c d : UInt8} : segment a b = segment c d ↔ a = c ∧ b = d := by
  constructor
  · intro h
    constructor
    · rw [← segment_high a b, h, segment_high]
    · rw [← segment_low a b, h, segment_low]
  · rintro ⟨rfl, rfl⟩
    rfl

/-- Such an address is judged as what it embeds, except in the one form that is not recognized. -/
theorem isBlockedIp_embeds {form : TransitionForm} {v4 : Ipv4Addr} {v6 : Ipv6Addr}
    (h : Embeds form v4 v6) (hform : form ≠ .compatible) :
    isBlockedIp (.v6 v6) = isBlockedIp (.v4 v4) := by
  cases h with
  | mapped a b c d => simp [isBlockedIp, Ipv6Addr.toIpv4Mapped]
  | compatible a b c d => exact absurd rfl hform
  | sixToFour a b c d subnet i0 i1 i2 i3 =>
    simp [isBlockedIp, Ipv6Addr.toIpv4Mapped, embeddedTransitionIpv4, SIXTOFOUR_PREFIX]
  | nat64 a b c d =>
    simp [isBlockedIp, Ipv6Addr.toIpv4Mapped, embeddedTransitionIpv4, SIXTOFOUR_PREFIX,
      NAT64_WELL_KNOWN_HIGH, NAT64_WELL_KNOWN_LOW]
  | teredo a b c d server0 server1 flags port =>
    simp [isBlockedIp, Ipv6Addr.toIpv4Mapped, embeddedTransitionIpv4, SIXTOFOUR_PREFIX,
      NAT64_WELL_KNOWN_HIGH, NAT64_WELL_KNOWN_LOW, TEREDO_PREFIX_HIGH, TEREDO_PREFIX_LOW]

/-- In that form the unspecified address and the loopback address are left, which are written so. -/
theorem isBlockedIp_compatible {v4 : Ipv4Addr} {v6 : Ipv6Addr} (h : Embeds .compatible v4 v6) :
    isBlockedIp (.v6 v6) = true ↔ v4 = ⟨0, 0, 0, 0⟩ ∨ v4 = ⟨0, 0, 0, 1⟩ := by
  cases h with
  | compatible a b c d =>
    have hmapped : Ipv6Addr.toIpv4Mapped ⟨0, 0, 0, 0, 0, 0, segment a b, segment c d⟩ = none :=
      if_neg (by simp)
    have hembedded :
        embeddedTransitionIpv4 ⟨0, 0, 0, 0, 0, 0, segment a b, segment c d⟩ = none := by
      unfold embeddedTransitionIpv4
      rw [if_neg (by simp [SIXTOFOUR_PREFIX]), if_neg (by simp [NAT64_WELL_KNOWN_HIGH]),
        if_neg (by simp [TEREDO_PREFIX_HIGH])]
    have hone : (1 : UInt16) = segment 0 1 := by decide
    have hzero : (0 : UInt16) = segment 0 0 := by decide
    have hloopback : Ipv6Addr.isLoopback ⟨0, 0, 0, 0, 0, 0, segment a b, segment c d⟩ = true ↔
        Ipv4Addr.mk a b c d = ⟨0, 0, 0, 1⟩ := by
      simp only [Ipv6Addr.isLoopback, beq_iff_eq, Ipv6Addr.mk.injEq, true_and]
      rw [hone, hzero, segment_inj, segment_inj, Ipv4Addr.mk.injEq, and_assoc]
    have hunspecified : Ipv6Addr.isUnspecified ⟨0, 0, 0, 0, 0, 0, segment a b, segment c d⟩ = true ↔
        Ipv4Addr.mk a b c d = ⟨0, 0, 0, 0⟩ := by
      simp only [Ipv6Addr.isUnspecified, beq_iff_eq, Ipv6Addr.mk.injEq, true_and]
      rw [hzero, segment_inj, segment_inj, Ipv4Addr.mk.injEq, and_assoc]
    rw [← hloopback, ← hunspecified]
    simp [isBlockedIp, isLoopbackIp, hmapped, hembedded, or_comm]

/-- A blocked address is blocked in every form but the compatible one. -/
theorem isBlockedIp_embedded {form : TransitionForm} {v4 : Ipv4Addr} {v6 : Ipv6Addr}
    (h : Embeds form v4 v6) (hblocked : isBlockedIp (.v4 v4) = true) :
    isBlockedIp (.v6 v6) = true ↔
      form ≠ .compatible ∨ v4 = ⟨0, 0, 0, 0⟩ ∨ v4 = ⟨0, 0, 0, 1⟩ := by
  by_cases hform : form = .compatible
  · subst hform
    rw [isBlockedIp_compatible h]
    simp
  · rw [isBlockedIp_embeds h hform, hblocked]
    exact ⟨fun _ => Or.inl hform, fun _ => rfl⟩

/-- A private address as a Teredo client. -/
theorem isBlockedIp_embedded_teredo :
    isBlockedIp (.v6 ⟨0x2001, 0, 0, 0, 0, 0, ~~~segment 10 0, ~~~segment 0 1⟩) = true ↔
      TransitionForm.teredo ≠ .compatible ∨ (⟨10, 0, 0, 1⟩ : Ipv4Addr) = ⟨0, 0, 0, 0⟩ ∨
        (⟨10, 0, 0, 1⟩ : Ipv4Addr) = ⟨0, 0, 0, 1⟩ :=
  isBlockedIp_embedded (.teredo 10 0 0 1 0 0 0 0) (by decide)

/-- `::10.0.0.1` -/
theorem isBlockedIp_misses_compatible :
    Embeds .compatible ⟨10, 0, 0, 1⟩ ⟨0, 0, 0, 0, 0, 0, 0x0a00, 0x0001⟩ ∧
      isBlockedIp (.v4 ⟨10, 0, 0, 1⟩) = true ∧
      isBlockedIp (.v6 ⟨0, 0, 0, 0, 0, 0, 0x0a00, 0x0001⟩) = false :=
  ⟨.compatible 10 0 0 1, by decide, by decide⟩

end Embeddings

end LensLM
