import FastAdHunter.Net.Text

/-!
# Egress destination policy

Where the proxies may connect. The policy judges a resolved socket address:
the port first, which no exception waives, then the operator's exceptions, then
a list of refused ranges. IPv6 forms that carry an IPv4 address are reduced to
that address before they are judged.

The model of `check` follows the source test by test. Over it stand the ranges
as CIDR blocks (`NonRoutable`) and the four embeddings as a relation
(`Embeds`), both stated without the code's bit tests.
-/

namespace FastAdHunter.Common

open Lib Net List

/-- Why a destination was refused. -/
inductive Refusal where
  | portNotIntercepted
  | unspecified
  | loopback
  | linkLocal
  | privateNet
  | cgnat
  | multicast
  | broadcast
  deriving DecidableEq

/-- One entry of the operator's allow-list. The prefix is never longer than
the address is wide. -/
structure AllowedNet where
  addr : IpAddr
  prefixLen : Nat
  valid : prefixLen ≤ addr.bits
  deriving DecidableEq

/-- Why the text of an allow-list entry was refused: no address, no prefix
length, or a prefix longer than the address. -/
inductive AllowedNetError where
  | notAnAddress (text : Bytes)
  | notAPrefixLength (text : Bytes)
  | exceeds (value max : Nat) (addr : IpAddr)
  deriving DecidableEq

def AllowedNet.host (addr : IpAddr) : AllowedNet :=
  ⟨addr, addr.bits, le_refl _⟩

/-- `AllowedNet::from_str`: an address, or an address, a slash and a prefix
length. -/
def AllowedNet.fromStr (text : Bytes) : Except AllowedNetError AllowedNet :=
  let (addrText, prefixText) :=
    match splitOnce 47 text with
    | some (addr, len) => (addr, some len)
    | none => (text, none)
  match parseIpAddr addrText with
  | none => .error (.notAnAddress addrText)
  | some addr =>
    match prefixText with
    | none => .ok (.host addr)
    | some len =>
      match parseUnsigned 256 len with
      | none => .error (.notAPrefixLength len)
      | some value =>
        if h : value ≤ addr.bits then .ok ⟨addr, value, h⟩
        else .error (.exceeds value addr.bits addr)

def prefixMatches (net candidate prefixLen bits : Nat) : Bool :=
  if prefixLen = 0 then true
  else net >>> (bits - prefixLen) == candidate >>> (bits - prefixLen)

def AllowedNet.contains (net : AllowedNet) (candidate : IpAddr) : Bool :=
  match net.addr, candidate with
  | .v4 base, .v4 ip => prefixMatches base.toNat ip.toNat net.prefixLen 32
  | .v6 base, .v6 ip => prefixMatches base.toNat ip.toNat net.prefixLen 128
  -- families never match across
  | _, _ => false

/-- Reduce the IPv6 forms that embed an IPv4 address to that address. -/
def canonicalize : IpAddr → IpAddr
  | .v4 ip => .v4 ip
  | .v6 v6 =>
    match v6.toIpv4Mapped with
    | some v4 => .v4 v4
    | none =>
      let octets := v6.octets
      -- 6to4 embeds its address high, so it is read before the low forms
      if v6.s0 == 0x2002 then
        .v4 ⟨octets.getD 2 0, octets.getD 3 0, octets.getD 4 0, octets.getD 5 0⟩
      else
        let embedded : Ipv4Addr :=
          ⟨octets.getD 12 0, octets.getD 13 0, octets.getD 14 0, octets.getD 15 0⟩
        if (octets.take 12).all (· == 0) && octets.getD 12 0 != 0 then
          .v4 embedded
        else if octets.take 4 == [0x00, 0x64, 0xff, 0x9b] &&
            ((octets.take 12).drop 4).all (· == 0) then
          .v4 embedded
        else
          .v6 v6

def checkV4 (ip : Ipv4Addr) : Except Refusal Unit :=
  if ip.isUnspecified || ip.a == 0 then .error .unspecified
  else if ip.isLoopback then .error .loopback
  else if ip.isLinkLocal then .error .linkLocal
  else if ip.isBroadcast then .error .broadcast
  else if ip.isMulticast then .error .multicast
  else if ip.a == 100 && (decide (64 ≤ ip.b) && decide (ip.b < 128)) then
    .error .cgnat
  else if ip.isPrivate then .error .privateNet
  else .ok ()

def checkV6 (ip : Ipv6Addr) : Except Refusal Unit :=
  if ip.isUnspecified then .error .unspecified
  else if ip.isLoopback then .error .loopback
  else if ip.isMulticast then .error .multicast
  else if ip.s0 &&& 0xffc0 == 0xfe80 then .error .linkLocal
  else if ip.s0 &&& 0xfe00 == 0xfc00 then .error .privateNet
  else if (ip.segments.take 6).all (· == 0) then .error .unspecified
  else .ok ()

/-- The origin port a proxy intercepts and the operator's exceptions. -/
structure DestinationPolicy where
  originPort : UInt16
  exceptions : List AllowedNet

def DestinationPolicy.check (policy : DestinationPolicy)
    (destination : SocketAddr) : Except Refusal Unit :=
  if destination.port != policy.originPort then .error .portNotIntercepted
  else
    let ip := canonicalize destination.ip
    if policy.exceptions.any (·.contains ip) then .ok ()
    else
      match ip with
      | .v4 ip => checkV4 ip
      | .v6 ip => checkV6 ip

/-- The four IPv6 forms that carry an IPv4 address. In the compatible form
the first octet is not zero: `::` and `::1` are addresses of their own. -/
inductive Embeds : IpAddr → Ipv4Addr → Prop where
  | mapped (v4 : Ipv4Addr) :
      Embeds (.v6 (.withLowIpv4 0 0 0 0 0 0xffff v4)) v4
  | compatible (v4 : Ipv4Addr) (h : v4.a ≠ 0) :
      Embeds (.v6 (.withLowIpv4 0 0 0 0 0 0 v4)) v4
  | nat64 (v4 : Ipv4Addr) :
      Embeds (.v6 (.withLowIpv4 0x64 0xff9b 0 0 0 0 v4)) v4
  | sixToFour (v4 : Ipv4Addr) (s3 s4 s5 s6 s7 : UInt16) :
      Embeds (.v6 ⟨0x2002, segmentOf v4.a v4.b, segmentOf v4.c v4.d,
        s3, s4, s5, s6, s7⟩) v4

/-- The address behind an embedding, or the address itself. -/
def Unwraps (ip target : IpAddr) : Prop :=
  (∃ v4, Embeds ip v4 ∧ target = .v4 v4) ∨
    ((∀ v4, ¬ Embeds ip v4) ∧ target = ip)

/-- 0.0.0.0/8, loopback, link-local, RFC 1918, carrier NAT, multicast and
broadcast. -/
def nonRoutableV4 : List (Ipv4Addr × Nat) :=
  [(⟨0, 0, 0, 0⟩, 8), (⟨127, 0, 0, 0⟩, 8), (⟨169, 254, 0, 0⟩, 16),
    (⟨10, 0, 0, 0⟩, 8), (⟨172, 16, 0, 0⟩, 12), (⟨192, 168, 0, 0⟩, 16),
    (⟨100, 64, 0, 0⟩, 10), (⟨224, 0, 0, 0⟩, 4), (⟨255, 255, 255, 255⟩, 32)]

/-- Loopback, link-local, unique-local and multicast. -/
def nonRoutableV6 : List (Ipv6Addr × Nat) :=
  [(⟨0, 0, 0, 0, 0, 0, 0, 1⟩, 128), (⟨0xfe80, 0, 0, 0, 0, 0, 0, 0⟩, 10),
    (⟨0xfc00, 0, 0, 0, 0, 0, 0, 0⟩, 7), (⟨0xff00, 0, 0, 0, 0, 0, 0, 0⟩, 8)]

/-- The addresses no proxy connects to without an exception: those in a block
above, and whatever of `::/96` embeds no IPv4 address. -/
def NonRoutable : IpAddr → Prop
  | .v4 ip => ∃ block ∈ nonRoutableV4, inBlock 32 block.1.toNat block.2 ip.toNat
  | .v6 ip =>
    (∃ block ∈ nonRoutableV6, inBlock 128 block.1.toNat block.2 ip.toNat) ∨
      (inBlock 128 0 96 ip.toNat ∧ ∀ v4, ¬ Embeds (.v6 ip) v4)

/-- The address is of the block's family and lies in it. -/
def AllowedNet.Covers (net : AllowedNet) (ip : IpAddr) : Prop :=
  net.addr.isIpv4 = ip.isIpv4 ∧
    inBlock net.addr.bits net.addr.toNat net.prefixLen ip.toNat

lemma AllowedNet.contains_iff (net : AllowedNet) (ip : IpAddr) :
    net.contains ip = true ↔ net.Covers ip := by
  have hpm : ∀ base x len bits : Nat, base < 2 ^ bits → x < 2 ^ bits →
      (prefixMatches base x len bits = true ↔ inBlock bits base len x) := by
    intro base x len bits hb hx
    simp only [prefixMatches, inBlock, Nat.shiftRight_eq_div_pow]
    by_cases hlen : len = 0
    · simp [hlen, Nat.div_eq_of_lt hb, Nat.div_eq_of_lt hx]
    · simp only [hlen, if_false, beq_iff_eq]
      exact eq_comm
  have hv4 : ∀ ip : Ipv4Addr, ip.toNat < 2 ^ 32 := by
    intro ip
    have := ip.a.toNat_lt
    have := ip.b.toNat_lt
    have := ip.c.toNat_lt
    have := ip.d.toNat_lt
    simp only [Ipv4Addr.toNat]
    omega
  have hv6 : ∀ ip : Ipv6Addr, ip.toNat < 2 ^ 128 := by
    intro ip
    have h : ip.toNat / 2 ^ 112 < 2 ^ 16 := by
      have := ip.div_toNat_firstSegment (k := 0)
      have := ip.s0.toNat_lt
      omega
    omega
  obtain ⟨addr, len, valid⟩ := net
  cases addr with
  | v4 base =>
    cases ip with
    | v4 ip =>
      simp only [contains, hpm _ _ len 32 (hv4 base) (hv4 ip)]
      simp [Covers, IpAddr.isIpv4, IpAddr.bits, IpAddr.toNat]
    | v6 ip => simp [contains, Covers, IpAddr.isIpv4]
  | v6 base =>
    cases ip with
    | v4 ip => simp [contains, Covers, IpAddr.isIpv4]
    | v6 ip =>
      simp only [contains, hpm _ _ len 128 (hv6 base) (hv6 ip)]
      simp [Covers, IpAddr.isIpv4, IpAddr.bits, IpAddr.toNat]

lemma nonRoutable_v4_iff (ip : Ipv4Addr) :
    NonRoutable (.v4 ip) ↔ ip.a = 0 ∨ ip.isLoopback = true ∨ ip.isLinkLocal = true ∨
      ip.isPrivate = true ∨ (ip.a = 100 ∧ 64 ≤ ip.b ∧ ip.b < 128) ∨
      ip.isMulticast = true ∨ ip.isBroadcast = true := by
  have hb := ip.b.toNat_lt
  have hc := ip.c.toNat_lt
  have hd := ip.d.toNat_lt
  -- the quotients behind the prefix lengths 8, 16, 12, 10 and 4
  have h8 : ip.toNat / 2 ^ 24 = ip.a.toNat := by
    simp only [Ipv4Addr.toNat]
    omega
  have h16 : ip.toNat / 2 ^ 16 = ip.a.toNat * 256 + ip.b.toNat := by
    simp only [Ipv4Addr.toNat]
    omega
  have h12 : ip.toNat / 2 ^ 20 = ip.a.toNat * 16 + ip.b.toNat / 16 := by omega
  have h10 : ip.toNat / 2 ^ 22 = ip.a.toNat * 4 + ip.b.toNat / 64 := by omega
  have h4 : ip.toNat / 2 ^ 28 = ip.a.toNat / 16 := by omega
  have hprivate : ip.isPrivate = true ↔ ip.a.toNat = 10 ∨
      ip.a.toNat * 16 + ip.b.toNat / 16 = 2753 ∨
      ip.a.toNat * 256 + ip.b.toNat = 49320 := by
    simp [Ipv4Addr.isPrivate, ← UInt8.toNat_inj, UInt8.le_iff_toNat_le]
    omega
  have hcgnat : (ip.a = 100 ∧ 64 ≤ ip.b ∧ ip.b < 128) ↔
      ip.a.toNat * 4 + ip.b.toNat / 64 = 401 := by
    simp [← UInt8.toNat_inj, UInt8.le_iff_toNat_le, UInt8.lt_iff_toNat_lt]
    omega
  have hlink : ip.isLinkLocal = true ↔
      ip.a.toNat * 256 + ip.b.toNat = 43518 := by
    simp [Ipv4Addr.isLinkLocal, ← UInt8.toNat_inj]
    omega
  have hmulti : ip.isMulticast = true ↔ ip.a.toNat / 16 = 14 := by
    simp [Ipv4Addr.isMulticast, UInt8.le_iff_toNat_le]
    omega
  have hbroad : ip.isBroadcast = true ↔ ip.toNat = 4294967295 := by
    simp [Ipv4Addr.isBroadcast, Ipv4Addr.octets, Ipv4Addr.toNat, ← UInt8.toNat_inj]
    omega
  have hzero : ip.a = 0 ↔ ip.a.toNat = 0 := by
    simp [← UInt8.toNat_inj]
  have hloop : ip.isLoopback = true ↔ ip.a.toNat = 127 := by
    simp [Ipv4Addr.isLoopback, ← UInt8.toNat_inj]
  rw [hprivate, hcgnat, hlink, hmulti, hbroad, hzero, hloop]
  have hblocks : NonRoutable (.v4 ip) ↔
      ip.toNat / 2 ^ 24 = 0 ∨ ip.toNat / 2 ^ 24 = 127 ∨
        ip.toNat / 2 ^ 16 = 43518 ∨ ip.toNat / 2 ^ 24 = 10 ∨
        ip.toNat / 2 ^ 20 = 2753 ∨ ip.toNat / 2 ^ 16 = 49320 ∨
        ip.toNat / 2 ^ 22 = 401 ∨ ip.toNat / 2 ^ 28 = 14 ∨
        ip.toNat / 2 ^ 0 = 4294967295 := by
    simp only [NonRoutable, nonRoutableV4, inBlock, mem_cons,
      not_mem_nil, or_false, exists_eq_or_imp, exists_eq_left]
    rfl
  rw [hblocks, h8, h16, h12, h10, h4, Nat.pow_zero, Nat.div_one]
  simp only [or_assoc]

lemma checkV4_ok_iff (ip : Ipv4Addr) : checkV4 ip = .ok () ↔ ¬ NonRoutable (.v4 ip) := by
  have hunspec : ip.isUnspecified = true → ip.a = 0 := by
    simp only [Ipv4Addr.isUnspecified, Ipv4Addr.octets, beq_iff_eq,
      List.cons.injEq]
    exact fun h => h.1
  simp only [checkV4]
  rw [nonRoutable_v4_iff]
  grind

lemma firstSegment_inBlock (ip net : Ipv6Addr) (mask : UInt16) (hk : k ≤ 16)
    (hmask : mask.toNat = 2 ^ 16 - 2 ^ k) (hnet : 2 ^ k ∣ net.s0.toNat) :
    ip.s0 &&& mask = net.s0 ↔ inBlock 128 net.toNat (16 - k) ip.toNat := by
  rw [and_mask_eq_iff ip.s0 mask net.s0 hk hmask hnet, inBlock,
    show 128 - (16 - k) = 112 + k by omega, Ipv6Addr.div_toNat_firstSegment,
    Ipv6Addr.div_toNat_firstSegment]

lemma lowSegments_inBlock (ip : Ipv6Addr) :
    (ip.segments.take 6).all (· == 0) = true ↔ inBlock 128 0 96 ip.toNat := by
  rw [inBlock, Nat.zero_div, show 128 - 96 = 32 from rfl, ip.div_toNat_low]
  simp [Ipv6Addr.segments]

lemma isLoopback_inBlock (ip : Ipv6Addr) :
    ip.isLoopback = true ↔ inBlock 128 (Ipv6Addr.toNat ⟨0, 0, 0, 0, 0, 0, 0, 1⟩) 128 ip.toNat := by
  rw [inBlock, Nat.sub_self, Nat.pow_zero, Nat.div_one, Nat.div_one]
  change _ ↔ ip.toNat = 1
  rw [ip.toNat_eq_one_iff, Ipv6Addr.isLoopback, beq_iff_eq]

lemma nonRoutable_v6_iff (ip : Ipv6Addr) :
    NonRoutable (.v6 ip) ↔ ip.isLoopback = true ∨ ip.s0 &&& 0xffc0 = 0xfe80 ∨
      ip.s0 &&& 0xfe00 = 0xfc00 ∨ ip.s0 &&& 0xff00 = 0xff00 ∨
      ((ip.segments.take 6).all (· == 0) = true ∧ ∀ v4, ¬ Embeds (.v6 ip) v4) := by
  have hmulti := firstSegment_inBlock ip ⟨0xff00, 0, 0, 0, 0, 0, 0, 0⟩
    0xff00 (k := 8) (by omega) rfl ⟨255, rfl⟩
  have hlink := firstSegment_inBlock ip ⟨0xfe80, 0, 0, 0, 0, 0, 0, 0⟩
    0xffc0 (k := 6) (by omega) rfl ⟨1018, rfl⟩
  have hlocal := firstSegment_inBlock ip ⟨0xfc00, 0, 0, 0, 0, 0, 0, 0⟩
    0xfe00 (k := 9) (by omega) rfl ⟨126, rfl⟩
  rw [isLoopback_inBlock, hmulti, hlink, hlocal, lowSegments_inBlock]
  simp only [NonRoutable, nonRoutableV6, mem_cons, not_mem_nil,
    or_false, exists_eq_or_imp, exists_eq_left, or_assoc]

lemma checkV6_ok_iff (ip : Ipv6Addr) (h : ∀ v4, ¬ Embeds (.v6 ip) v4) :
    checkV6 ip = .ok () ↔ ¬ NonRoutable (.v6 ip) := by
  have hunspec : ip.isUnspecified = true →
      (ip.segments.take 6).all (· == 0) = true := by
    intro hu
    rw [Ipv6Addr.isUnspecified, beq_iff_eq] at hu
    simp [hu]
  simp only [checkV6, Ipv6Addr.isMulticast]
  rw [nonRoutable_v6_iff]
  grind

lemma octets_eq (ip : Ipv6Addr) :
    ip.octets =
      [highByte ip.s0, lowByte ip.s0, highByte ip.s1, lowByte ip.s1,
        highByte ip.s2, lowByte ip.s2, highByte ip.s3, lowByte ip.s3,
        highByte ip.s4, lowByte ip.s4, highByte ip.s5, lowByte ip.s5,
        highByte ip.s6, lowByte ip.s6, highByte ip.s7, lowByte ip.s7] := rfl

lemma canonicalize_of_embeds (h : Embeds ip v4) :
    canonicalize ip = .v4 v4 := by
  have h00 : highByte 0 = 0 ∧ lowByte 0 = 0 := ⟨rfl, rfl⟩
  have h64 : highByte 0x64 = 0 ∧ lowByte 0x64 = 0x64 := ⟨rfl, rfl⟩
  have hff9b : highByte 0xff9b = 0xff ∧ lowByte 0xff9b = 0x9b := ⟨rfl, rfl⟩
  cases h with
  | mapped =>
    simp only [canonicalize, (Ipv6Addr.toIpv4Mapped_eq_some_iff _ _).mpr rfl]
  | compatible _ ha =>
    have hm : (Ipv6Addr.withLowIpv4 0 0 0 0 0 0 v4).toIpv4Mapped = none := by
      simp [Ipv6Addr.toIpv4Mapped, octets_eq, Ipv6Addr.withLowIpv4, h00]
    simp only [canonicalize, hm]
    simp [octets_eq, Ipv6Addr.withLowIpv4, h00, ha]
  | nat64 =>
    have hm : (Ipv6Addr.withLowIpv4 0x64 0xff9b 0 0 0 0 v4).toIpv4Mapped = none := by
      simp [Ipv6Addr.toIpv4Mapped, octets_eq, Ipv6Addr.withLowIpv4, h64]
    simp only [canonicalize, hm]
    simp [octets_eq, Ipv6Addr.withLowIpv4, h00, h64, hff9b]
  | sixToFour _ s3 s4 s5 s6 s7 =>
    have hm : (⟨0x2002, segmentOf v4.a v4.b, segmentOf v4.c v4.d,
        s3, s4, s5, s6, s7⟩ : Ipv6Addr).toIpv4Mapped = none := by
      have h20 : highByte 0x2002 = 0x20 := rfl
      simp [Ipv6Addr.toIpv4Mapped, octets_eq, h20]
    simp only [canonicalize, hm]
    simp [octets_eq]

lemma take_octets_zero_iff (ip : Ipv6Addr) :
    (ip.octets.take 12).all (· == 0) = true ↔
    ip.s0 = 0 ∧ ip.s1 = 0 ∧ ip.s2 = 0 ∧ ip.s3 = 0 ∧ ip.s4 = 0 ∧ ip.s5 = 0 := by
  simp [octets_eq, ← bytes_eq_zero_iff, and_assoc]

lemma octets_nat64_iff (ip : Ipv6Addr) :
    (ip.octets.take 4 == [0x00, 0x64, 0xff, 0x9b] &&
      ((ip.octets.take 12).drop 4).all (· == 0)) = true ↔
    ip.s0 = 0x64 ∧ ip.s1 = 0xff9b ∧ ip.s2 = 0 ∧ ip.s3 = 0 ∧ ip.s4 = 0 ∧ ip.s5 = 0 := by
  have hseg : ∀ (s : UInt16) (hi lo : UInt8),
      (highByte s = hi ∧ lowByte s = lo) ↔ s = segmentOf hi lo := by
    intro s hi lo
    constructor
    · rintro ⟨rfl, rfl⟩
      exact (segmentOf_bytes s).symm
    · rintro rfl
      simp
  rw [show (0x64 : UInt16) = segmentOf 0x00 0x64 from rfl,
    show (0xff9b : UInt16) = segmentOf 0xff 0x9b from rfl, ← hseg, ← hseg]
  simp [octets_eq, ← bytes_eq_zero_iff, and_assoc]

lemma canonicalize_of_not_embeds (h : ∀ v4, ¬ Embeds ip v4) :
    canonicalize ip = ip := by
  cases ip with
  | v4 ip => rfl
  | v6 ip =>
    have hm : ip.toIpv4Mapped = none := by
      cases hm : ip.toIpv4Mapped with
      | none => rfl
      | some v4 =>
        rw [Ipv6Addr.toIpv4Mapped_eq_some_iff] at hm
        exact absurd (hm ▸ .mapped v4) (h v4)
    have h2002 : ip.s0 ≠ 0x2002 := by
      intro hs
      apply h ⟨highByte ip.s1, lowByte ip.s1, highByte ip.s2, lowByte ip.s2⟩
      have := Embeds.sixToFour
        ⟨highByte ip.s1, lowByte ip.s1, highByte ip.s2, lowByte ip.s2⟩
        ip.s3 ip.s4 ip.s5 ip.s6 ip.s7
      simpa [← hs] using this
    have hlow := ip.withLowIpv4_lowIpv4
    have hcompat : ((ip.octets.take 12).all (· == 0) &&
        ip.octets.getD 12 0 != 0) = false := by
      rw [Bool.eq_false_iff]
      intro hz
      rw [Bool.and_eq_true, take_octets_zero_iff] at hz
      obtain ⟨⟨h0, h1, h2, h3, h4, h5⟩, ha⟩ := hz
      have ha' : ip.lowIpv4.a ≠ 0 := by
        simpa [octets_eq, Ipv6Addr.lowIpv4] using ha
      have hembeds := Embeds.compatible ip.lowIpv4 ha'
      rw [h0, h1, h2, h3, h4, h5] at hlow
      rw [hlow] at hembeds
      exact h ip.lowIpv4 hembeds
    have hnat : (ip.octets.take 4 == [0x00, 0x64, 0xff, 0x9b] &&
        ((ip.octets.take 12).drop 4).all (· == 0)) = false := by
      rw [Bool.eq_false_iff]
      intro hz
      obtain ⟨h0, h1, h2, h3, h4, h5⟩ := (octets_nat64_iff ip).mp hz
      have hembeds := Embeds.nat64 ip.lowIpv4
      rw [h0, h1, h2, h3, h4, h5] at hlow
      rw [hlow] at hembeds
      exact h ip.lowIpv4 hembeds
    simp only [canonicalize, hm, beq_iff_eq, h2002, if_false, hcompat, hnat,
      Bool.false_eq_true]

lemma canonicalize_unwraps (ip : IpAddr) : Unwraps ip (canonicalize ip) := by
  by_cases h : ∃ v4, Embeds ip v4
  · obtain ⟨v4, hv4⟩ := h
    exact .inl ⟨v4, hv4, canonicalize_of_embeds hv4⟩
  · rw [not_exists] at h
    exact .inr ⟨h, canonicalize_of_not_embeds h⟩

lemma Unwraps.unique (h : Unwraps ip target) : target = canonicalize ip := by
  rcases h with ⟨v4, hv4, rfl⟩ | ⟨h, rfl⟩
  · exact (canonicalize_of_embeds hv4).symm
  · exact (canonicalize_of_not_embeds h).symm

lemma not_nonRoutable_of_embeds (h : Embeds ip v4) :
    ¬ NonRoutable ip := by
  cases h with
  | mapped =>
    rw [nonRoutable_v6_iff]
    simp [Ipv6Addr.withLowIpv4, Ipv6Addr.isLoopback, Ipv6Addr.segments]
  | compatible _ ha =>
    have hloop : ¬ segmentOf v4.a v4.b = 0 := by
      intro h
      rw [← bytes_eq_zero_iff, highByte_segmentOf] at h
      exact ha h.1
    rw [nonRoutable_v6_iff]
    simp [Ipv6Addr.withLowIpv4, Ipv6Addr.isLoopback, Ipv6Addr.segments, hloop]
    exact ⟨v4, .compatible v4 ha⟩
  | nat64 =>
    rw [nonRoutable_v6_iff]
    simp [Ipv6Addr.withLowIpv4, Ipv6Addr.isLoopback, Ipv6Addr.segments]
    decide
  | sixToFour _ s3 s4 s5 s6 s7 =>
    rw [nonRoutable_v6_iff]
    simp [Ipv6Addr.isLoopback, Ipv6Addr.segments]
    decide

/-- **What `check` accepts**: the intercepted port, and an unwrapped address
that the operator opted in or that lies outside every refused range. -/
theorem check_ok_iff (policy : DestinationPolicy) (destination : SocketAddr) :
    policy.check destination = .ok () ↔ destination.port = policy.originPort ∧
      ∃ ip, Unwraps destination.ip ip ∧
        ((∃ net ∈ policy.exceptions, net.Covers ip) ∨ ¬ NonRoutable ip) := by
  have hip : (∃ ip, Unwraps destination.ip ip ∧
      ((∃ net ∈ policy.exceptions, net.Covers ip) ∨ ¬ NonRoutable ip)) ↔
        (∃ net ∈ policy.exceptions, net.Covers (canonicalize destination.ip)) ∨
          ¬ NonRoutable (canonicalize destination.ip) := by
    constructor
    · rintro ⟨ip, hip, h⟩
      rwa [hip.unique] at h
    · exact fun h => ⟨_, canonicalize_unwraps _, h⟩
  have hrange : (match canonicalize destination.ip with
      | .v4 ip => checkV4 ip
      | .v6 ip => checkV6 ip) = .ok () ↔
        ¬ NonRoutable (canonicalize destination.ip) := by
    rcases canonicalize_unwraps destination.ip with ⟨v4, -, h⟩ | ⟨hno, h⟩
    · rw [h]
      exact checkV4_ok_iff v4
    · rw [h]
      cases hd : destination.ip with
      | v4 ip => exact checkV4_ok_iff ip
      | v6 ip => exact checkV6_ok_iff ip (hd ▸ hno)
  have hany : policy.exceptions.any (·.contains (canonicalize destination.ip)) =
      true ↔ ∃ net ∈ policy.exceptions,
        net.Covers (canonicalize destination.ip) := by
    simp only [any_eq_true, AllowedNet.contains_iff]
  rw [hip, ← hany, ← hrange]
  simp only [DestinationPolicy.check, bne_iff_ne]
  by_cases hport : destination.port = policy.originPort
  · by_cases hex : policy.exceptions.any
        (·.contains (canonicalize destination.ip)) = true
    · simp only [hport, hex, ne_eq, not_true_eq_false, if_false, if_true,
        true_or, and_self]
    · simp only [hport, hex, ne_eq, not_true_eq_false, if_false, false_or,
        true_and, Bool.false_eq_true]
  · simp [hport]

/-- **An accepted destination is safe.** The port is the intercepted one, and
either the unwrapped address lies in an exception block, or neither the address
nor an IPv4 address it embeds lies in a refused range. -/
theorem egress_check_sound (policy : DestinationPolicy) (destination : SocketAddr)
    (h : policy.check destination = .ok ()) :
    destination.port = policy.originPort ∧ ((∃ ip, Unwraps destination.ip ip ∧
          ∃ net ∈ policy.exceptions, net.Covers ip) ∨ (¬ NonRoutable destination.ip ∧
          ∀ v4, Embeds destination.ip v4 → ¬ NonRoutable (.v4 v4))) := by
  obtain ⟨hport, ip, hip, hcov | hrange⟩ := (check_ok_iff _ _).mp h
  · exact ⟨hport, .inl ⟨ip, hip, hcov⟩⟩
  · refine ⟨hport, .inr ⟨?_, ?_⟩⟩
    · rcases hip with ⟨v4, hv4, rfl⟩ | ⟨hno, rfl⟩
      · exact not_nonRoutable_of_embeds hv4
      · exact hrange
    · intro v4 hv4
      have := hip.unique
      rw [canonicalize_of_embeds hv4] at this
      rwa [this] at hrange

/-- A public address behind 6to4, accepted by the plain-HTTP policy. -/
theorem egress_check_sound_sixToFour :
    let policy : DestinationPolicy := ⟨80, []⟩
    let destination := SocketAddr.v6 ⟨0x2002, 0x5db8, 0xd822, 0, 0, 0, 0, 0⟩ 80 0 0
    policy.check destination = .ok () ∧
      destination.port = 80 ∧
      ((∃ ip, Unwraps destination.ip ip ∧
          ∃ net ∈ policy.exceptions, net.Covers ip) ∨
        (¬ NonRoutable destination.ip ∧
          ∀ v4, Embeds destination.ip v4 → ¬ NonRoutable (.v4 v4))) :=
  ⟨by decide, egress_check_sound ⟨80, []⟩
    (.v6 ⟨0x2002, 0x5db8, 0xd822, 0, 0, 0, 0, 0⟩ 80 0 0) (by decide)⟩

/-- **An exception opens what it names** exactly where the address carries no IPv4
address. An address that carries one is judged by that one, so the block it was written
in is not consulted: the IPv4 address must be opened itself or need no exception. -/
theorem exception_opens_iff
    {policy : DestinationPolicy} {text : Bytes} {net : AllowedNet} {destination : SocketAddr}
    (_hparse : AllowedNet.fromStr text = .ok net) (hnet : net ∈ policy.exceptions)
    (hip : net.Covers destination.ip) (hport : destination.port = policy.originPort) :
    policy.check destination = .ok () ↔ ∀ v4, Embeds destination.ip v4 →
      (∃ other ∈ policy.exceptions, other.Covers (.v4 v4)) ∨ ¬ NonRoutable (.v4 v4) := by
  rw [check_ok_iff]
  constructor
  · rintro ⟨-, ip, hunwraps, haccepted⟩ v4 hv4
    rw [hunwraps.unique, canonicalize_of_embeds hv4] at haccepted
    exact haccepted
  · intro h
    refine ⟨hport, _, canonicalize_unwraps _, ?_⟩
    rcases canonicalize_unwraps destination.ip with ⟨v4, hv4, heq⟩ | ⟨-, heq⟩
    · rw [heq]
      exact h v4 hv4
    · rw [heq]
      exact .inl ⟨net, hnet, hip⟩

/-- The block `fd00::/8`, as written in the configuration, opens `fd00::1`. -/
theorem exception_opens_uniqueLocal :
    ∃ net, AllowedNet.fromStr (lit "fd00::/8") = .ok net ∧
      (DestinationPolicy.mk 80 [net]).check (.v6 ⟨0xfd00, 0, 0, 0, 0, 0, 0, 1⟩ 80 0 0) = .ok () := by
  let net : AllowedNet := ⟨.v6 ⟨0xfd00, 0, 0, 0, 0, 0, 0, 0⟩, 8, by decide⟩
  have hparse : AllowedNet.fromStr (lit "fd00::/8") = .ok net := by decide +kernel
  let destination : SocketAddr := .v6 ⟨0xfd00, 0, 0, 0, 0, 0, 0, 1⟩ 80 0 0
  have hcovers : net.Covers destination.ip := (net.contains_iff _).mp (by decide +kernel)
  refine ⟨net, hparse, (exception_opens_iff hparse mem_cons_self hcovers rfl).mpr ?_⟩
  intro v4 hv4
  have hsame : canonicalize destination.ip = destination.ip := by decide +kernel
  cases hsame.symm.trans (canonicalize_of_embeds hv4)

/-- The block of the mapped addresses of 10.0.0.0/8 is taken from the configuration, and
opens none of them. -/
theorem exception_closed_mapped :
    ∃ net, AllowedNet.fromStr (lit "::ffff:10.0.0.0/104") = .ok net ∧
      net.Covers (.v6 ⟨0, 0, 0, 0, 0, 0xffff, 0x0a00, 1⟩) ∧
      (DestinationPolicy.mk 80 [net]).check (.v6 ⟨0, 0, 0, 0, 0, 0xffff, 0x0a00, 1⟩ 80 0 0) =
        .error .privateNet := by
  let net : AllowedNet := ⟨.v6 ⟨0, 0, 0, 0, 0, 0xffff, 0x0a00, 0⟩, 104, by decide⟩
  exact ⟨net, by decide +kernel, (net.contains_iff _).mp (by decide +kernel), by decide +kernel⟩

end FastAdHunter.Common
