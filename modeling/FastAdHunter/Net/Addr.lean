import Mathlib.Data.FinEnum
import Mathlib.Tactic

/-!
# Internet addresses

The address types of `std::net` and the predicates the engines use on them.
An IPv4 address is its four octets, an IPv6 address its eight segments. A
socket address carries the flow label and the scope of its IPv6 form, as in
the standard library; `SocketAddr.new` sets both to zero.

`inBlock` is CIDR membership, read on addresses as numbers.
-/

namespace FastAdHunter.Net

open List

/-- An IPv4 address: its octets from the left. -/
structure Ipv4Addr where
  a : UInt8
  b : UInt8
  c : UInt8
  d : UInt8
  deriving DecidableEq

/-- An IPv6 address: its segments from the left. -/
structure Ipv6Addr where
  s0 : UInt16
  s1 : UInt16
  s2 : UInt16
  s3 : UInt16
  s4 : UInt16
  s5 : UInt16
  s6 : UInt16
  s7 : UInt16
  deriving DecidableEq

inductive IpAddr where
  | v4 (ip : Ipv4Addr)
  | v6 (ip : Ipv6Addr)
  deriving DecidableEq

inductive SocketAddr where
  | v4 (ip : Ipv4Addr) (port : UInt16)
  | v6 (ip : Ipv6Addr) (port : UInt16) (flowinfo scopeId : UInt32)
  deriving DecidableEq

namespace SocketAddr

def new : IpAddr → UInt16 → SocketAddr
  | .v4 ip, port => .v4 ip port
  | .v6 ip, port => .v6 ip port 0 0

def ip : SocketAddr → IpAddr
  | .v4 ip _ => .v4 ip
  | .v6 ip _ _ _ => .v6 ip

def port : SocketAddr → UInt16
  | .v4 _ port => port
  | .v6 _ port _ _ => port

end SocketAddr

/-- `u16::from_be_bytes`. -/
def segmentOf (hi lo : UInt8) : UInt16 :=
  UInt16.ofNat (hi.toNat * 256 + lo.toNat)

def highByte (s : UInt16) : UInt8 :=
  UInt8.ofNat (s.toNat / 256)

def lowByte (s : UInt16) : UInt8 :=
  UInt8.ofNat (s.toNat % 256)

lemma toNat_segmentOf (hi lo : UInt8) : (segmentOf hi lo).toNat = hi.toNat * 256 + lo.toNat := by
  have h₁ := hi.toNat_lt
  have h₂ := lo.toNat_lt
  simp only [segmentOf, UInt16.toNat_ofNat']
  omega

lemma toNat_highByte (s : UInt16) : (highByte s).toNat = s.toNat / 256 := by
  have h := s.toNat_lt
  simp only [highByte, UInt8.toNat_ofNat']
  omega

lemma toNat_lowByte (s : UInt16) : (lowByte s).toNat = s.toNat % 256 := by
  simp only [lowByte, UInt8.toNat_ofNat']
  omega

@[simp] lemma highByte_segmentOf (hi lo : UInt8) : highByte (segmentOf hi lo) = hi := by
  have h₂ := lo.toNat_lt
  apply UInt8.toNat_inj.mp
  rw [toNat_highByte, toNat_segmentOf]
  omega

@[simp] lemma lowByte_segmentOf (hi lo : UInt8) : lowByte (segmentOf hi lo) = lo := by
  have h₂ := lo.toNat_lt
  apply UInt8.toNat_inj.mp
  rw [toNat_lowByte, toNat_segmentOf]
  omega

@[simp] lemma segmentOf_bytes (s : UInt16) : segmentOf (highByte s) (lowByte s) = s := by
  apply UInt16.toNat_inj.mp
  rw [toNat_segmentOf, toNat_highByte, toNat_lowByte]
  omega

lemma bytes_eq_zero_iff (s : UInt16) : (highByte s = 0 ∧ lowByte s = 0) ↔ s = 0 := by
  constructor
  · rintro ⟨h₁, h₂⟩
    rw [← segmentOf_bytes s, h₁, h₂]
    rfl
  · rintro rfl
    exact ⟨rfl, rfl⟩

namespace Ipv4Addr

def octets (ip : Ipv4Addr) : List UInt8 :=
  [ip.a, ip.b, ip.c, ip.d]

/-- `u32::from`. -/
def toNat (ip : Ipv4Addr) : Nat :=
  ((ip.a.toNat * 256 + ip.b.toNat) * 256 + ip.c.toNat) * 256 + ip.d.toNat

def isUnspecified (ip : Ipv4Addr) : Bool :=
  ip.octets == [0, 0, 0, 0]

def isLoopback (ip : Ipv4Addr) : Bool :=
  ip.a == 127

def isLinkLocal (ip : Ipv4Addr) : Bool :=
  ip.a == 169 && ip.b == 254

def isBroadcast (ip : Ipv4Addr) : Bool :=
  ip.octets == [255, 255, 255, 255]

def isMulticast (ip : Ipv4Addr) : Bool :=
  decide (224 ≤ ip.a) && decide (ip.a ≤ 239)

/-- The three blocks of RFC 1918. -/
def isPrivate (ip : Ipv4Addr) : Bool :=
  ip.a == 10 ||
    (ip.a == 172 && decide (16 ≤ ip.b) && decide (ip.b ≤ 31)) ||
    (ip.a == 192 && ip.b == 168)

end Ipv4Addr

namespace Ipv6Addr

def segments (ip : Ipv6Addr) : List UInt16 :=
  [ip.s0, ip.s1, ip.s2, ip.s3, ip.s4, ip.s5, ip.s6, ip.s7]

@[simp] lemma length_segments (ip : Ipv6Addr) :
    ip.segments.length = 8 := rfl

def octets (ip : Ipv6Addr) : List UInt8 :=
  ip.segments.flatMap (fun s => [highByte s, lowByte s])

/-- `u128::from`. -/
def toNat (ip : Ipv6Addr) : Nat :=
  ip.segments.foldl (fun n s => n * 65536 + s.toNat) 0

def isUnspecified (ip : Ipv6Addr) : Bool :=
  ip.segments == [0, 0, 0, 0, 0, 0, 0, 0]

def isLoopback (ip : Ipv6Addr) : Bool :=
  ip.segments == [0, 0, 0, 0, 0, 0, 0, 1]

def isMulticast (ip : Ipv6Addr) : Bool :=
  ip.s0 &&& 0xff00 == 0xff00

/-- The address in the last four octets. -/
def lowIpv4 (ip : Ipv6Addr) : Ipv4Addr :=
  ⟨highByte ip.s6, lowByte ip.s6, highByte ip.s7, lowByte ip.s7⟩

/-- The address behind `::ffff:a.b.c.d`. -/
def toIpv4Mapped (ip : Ipv6Addr) : Option Ipv4Addr :=
  if ip.octets.take 12 = [0, 0, 0, 0, 0, 0, 0, 0, 0, 0, 0xff, 0xff] then
    some ip.lowIpv4
  else
    none

/-- The IPv6 address with the given first six segments that ends in `ip`. -/
def withLowIpv4 (s0 s1 s2 s3 s4 s5 : UInt16) (ip : Ipv4Addr) : Ipv6Addr :=
  ⟨s0, s1, s2, s3, s4, s5, segmentOf ip.a ip.b, segmentOf ip.c ip.d⟩

@[simp] lemma lowIpv4_withLowIpv4 (s0 s1 s2 s3 s4 s5 : UInt16) (ip : Ipv4Addr) :
    (withLowIpv4 s0 s1 s2 s3 s4 s5 ip).lowIpv4 = ip := by
  simp [lowIpv4, withLowIpv4]

lemma withLowIpv4_lowIpv4 (ip : Ipv6Addr) :
    withLowIpv4 ip.s0 ip.s1 ip.s2 ip.s3 ip.s4 ip.s5 ip.lowIpv4 = ip := by
  simp [lowIpv4, withLowIpv4]

lemma toIpv4Mapped_eq_some_iff (ip : Ipv6Addr) (v4 : Ipv4Addr) :
    ip.toIpv4Mapped = some v4 ↔ ip = withLowIpv4 0 0 0 0 0 0xffff v4 := by
  have hbytes : ∀ s : UInt16, highByte s = 0xff → lowByte s = 0xff → s = 0xffff := by
    intro s h₁ h₂
    rw [← segmentOf_bytes s, h₁, h₂]
    rfl
  constructor
  · intro h
    unfold toIpv4Mapped at h
    split at h
    · next ho =>
      simp only [octets, segments, flatMap_cons, cons_append,
        nil_append, take_succ_cons, take_zero,
        List.cons.injEq, and_true] at ho
      obtain ⟨h0, h0', h1, h1', h2, h2', h3, h3', h4, h4', h5, h5'⟩ := ho
      rw [← Option.some.inj h, ← withLowIpv4_lowIpv4 ip]
      simp only [lowIpv4_withLowIpv4]
      congr 1
      · exact (bytes_eq_zero_iff _).mp ⟨h0, h0'⟩
      · exact (bytes_eq_zero_iff _).mp ⟨h1, h1'⟩
      · exact (bytes_eq_zero_iff _).mp ⟨h2, h2'⟩
      · exact (bytes_eq_zero_iff _).mp ⟨h3, h3'⟩
      · exact (bytes_eq_zero_iff _).mp ⟨h4, h4'⟩
      · exact hbytes _ h5 h5'
    · cases h
  · rintro rfl
    have hff : highByte 0xffff = 0xff ∧ lowByte 0xffff = 0xff := ⟨rfl, rfl⟩
    have h00 : highByte 0 = 0 ∧ lowByte 0 = 0 := ⟨rfl, rfl⟩
    unfold toIpv4Mapped
    rw [if_pos, lowIpv4_withLowIpv4]
    simp [octets, segments, withLowIpv4, hff, h00]

end Ipv6Addr

namespace IpAddr

def isIpv4 : IpAddr → Bool
  | .v4 _ => true
  | .v6 _ => false

/-- One address per client: an IPv4 peer of a dual-stack listener. -/
def toCanonical : IpAddr → IpAddr
  | .v4 ip => .v4 ip
  | .v6 ip => ip.toIpv4Mapped.elim (.v6 ip) .v4

/-- Width of the address in bits. -/
def bits : IpAddr → Nat
  | .v4 _ => 32
  | .v6 _ => 128

def toNat : IpAddr → Nat
  | .v4 ip => ip.toNat
  | .v6 ip => ip.toNat

end IpAddr

/-- Membership of `ip` in the block `net/len` of addresses `bits` wide. -/
def inBlock (bits net len ip : Nat) : Prop :=
  ip / 2 ^ (bits - len) = net / 2 ^ (bits - len)

instance (bits net len ip : Nat) : Decidable (inBlock bits net len ip) :=
  inferInstanceAs (Decidable (_ = _))

lemma land_highMask (hn : n < 2 ^ m) (hk : k ≤ m) :
    n &&& (2 ^ m - 2 ^ k) = n / 2 ^ k * 2 ^ k := by
  have hpow : 2 ^ m - 2 ^ k = 2 ^ m - ((2 ^ k - 1) + 1) := by
    have := Nat.two_pow_pos k
    congr 1
    omega
  have hlt : 2 ^ k - 1 < 2 ^ m := by
    have := Nat.pow_le_pow_right (n := 2) (by omega) hk
    omega
  apply Nat.eq_of_testBit_eq
  intro i
  rw [Nat.testBit_and, hpow, Nat.testBit_two_pow_sub_succ hlt,
    Nat.testBit_two_pow_sub_one, Nat.testBit_mul_two_pow,
    Nat.testBit_div_two_pow]
  by_cases hik : i < k
  · simp [hik]
  · have hle : k ≤ i := Nat.not_lt.mp hik
    by_cases him : i < m
    · simp [hle, him, Nat.sub_add_cancel hle]
    · have : n.testBit i = false :=
        Nat.testBit_lt_two_pow (lt_of_lt_of_le hn
          (Nat.pow_le_pow_right (by omega) (Nat.not_lt.mp him)))
      simp [this, Nat.sub_add_cancel hle]

lemma and_mask_eq_iff (s mask value : UInt16) (hk : k ≤ 16)
    (hmask : mask.toNat = 2 ^ 16 - 2 ^ k) (hvalue : 2 ^ k ∣ value.toNat) :
    s &&& mask = value ↔ s.toNat / 2 ^ k = value.toNat / 2 ^ k := by
  rw [← UInt16.toNat_inj, UInt16.toNat_and, hmask,
    land_highMask s.toNat_lt hk]
  obtain ⟨q, hq⟩ := hvalue
  have hpos := Nat.two_pow_pos k
  rw [hq, Nat.mul_div_cancel_left q hpos, Nat.mul_comm (2 ^ k) q]
  exact Nat.mul_left_inj (by omega)

namespace Ipv6Addr

lemma div_toNat_firstSegment (ip : Ipv6Addr) :
    ip.toNat / 2 ^ (112 + k) = ip.s0.toNat / 2 ^ k := by
  have h1 := ip.s1.toNat_lt
  have h2 := ip.s2.toNat_lt
  have h3 := ip.s3.toNat_lt
  have h4 := ip.s4.toNat_lt
  have h5 := ip.s5.toNat_lt
  have h6 := ip.s6.toNat_lt
  have h7 := ip.s7.toNat_lt
  rw [Nat.pow_add, ← Nat.div_div_eq_div_mul]
  congr 1
  simp only [toNat, segments, foldl_cons, foldl_nil]
  omega

lemma div_toNat_low (ip : Ipv6Addr) :
    ip.toNat / 2 ^ 32 = 0 ↔
    ip.s0 = 0 ∧ ip.s1 = 0 ∧ ip.s2 = 0 ∧ ip.s3 = 0 ∧ ip.s4 = 0 ∧ ip.s5 = 0 := by
  have h6 := ip.s6.toNat_lt
  have h7 := ip.s7.toNat_lt
  simp only [← UInt16.toNat_inj, toNat, segments, foldl_cons,
    foldl_nil, UInt16.toNat_zero]
  omega

lemma toNat_eq_one_iff (ip : Ipv6Addr) :
    ip.toNat = 1 ↔ ip.segments = [0, 0, 0, 0, 0, 0, 0, 1] := by
  simp only [toNat, segments, foldl_cons, foldl_nil,
    List.cons.injEq, and_true, ← UInt16.toNat_inj, UInt16.toNat_zero,
    UInt16.toNat_one]
  omega

end Ipv6Addr

end FastAdHunter.Net
