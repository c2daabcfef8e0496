import FastAdHunter.Common.Egress
import FastAdHunter.Lib.BigEndian
import FastAdHunter.Rules.Client

/-!
# Networks

Whether an address lies in a network is tested in two places: the exceptions of the
egress policy shift both addresses as wide integers, the selectors of policies compare
whole bytes and then mask the byte in which the prefix ends. `LeadingBits` says what
both are to decide, of the bits as they are written.
-/

namespace FastAdHunter.Net

open Lib List

/-- The bytes of an address from the left. -/
def IpAddr.octets : IpAddr → List UInt8
  | .v4 ip => ip.octets
  | .v6 ip => ip.octets

/-- The addresses are of one family and their first `len` bits are the same. -/
def LeadingBits (len : Nat) (a b : IpAddr) : Prop :=
  a.isIpv4 = b.isIpv4 ∧ ∀ i < len, BigEndian.bitAt a.octets i = BigEndian.bitAt b.octets i

lemma Ipv4Addr.toNat_eq_value (ip : Ipv4Addr) : ip.toNat = BigEndian.value ip.octets := by
  simp [Ipv4Addr.toNat, octets, BigEndian.value]

lemma Ipv6Addr.toNat_eq_value (ip : Ipv6Addr) : ip.toNat = BigEndian.value ip.octets := by
  have hsegment : ∀ (n : Nat) (s : UInt16),
      n * 65536 + s.toNat = (n * 256 + (highByte s).toNat) * 256 + (lowByte s).toNat := by
    intro n s
    rw [toNat_highByte, toNat_lowByte]
    omega
  have hfold : ∀ (segments : List UInt16) (n : Nat),
      segments.foldl (fun n s => n * 65536 + s.toNat) n =
        (segments.flatMap fun s => [highByte s, lowByte s]).foldl
          (fun n b => n * 256 + b.toNat) n := by
    intro segments
    induction segments with
    | nil => exact fun _ => rfl
    | cons s segments ih =>
      intro n
      rw [foldl_cons, hsegment, ih, flatMap_cons, foldl_append, foldl_cons, foldl_cons, foldl_nil]
  exact hfold ip.segments 0

end FastAdHunter.Net

namespace FastAdHunter.Rules

open Lib Net List Common

/-- The byte in which a prefix ends is compared in its first bits only. -/
lemma mask_eq_iff (x y : UInt8) (hbits : 0 < bits ∧ bits < 8) :
    x &&& 0xff <<< UInt8.ofNat (8 - bits) = y &&& 0xff <<< UInt8.ofNat (8 - bits) ↔
      ∀ r < bits, x.toNat.testBit (7 - r) = y.toNat.testBit (7 - r) := by
  have hmask : ∀ n : Fin 8, ∀ r : Fin 8, 0 < n.val →
      ((0xff : UInt8) <<< UInt8.ofNat (8 - n.val)).toNat.testBit (7 - r.val) =
        decide (r.val < n.val) := by
    decide
  rw [BigEndian.byte_eq_iff]
  constructor
  · intro h r hr
    have hbit := h r (by omega)
    have hset := hmask ⟨bits, hbits.2⟩ ⟨r, by omega⟩ hbits.1
    rw [UInt8.toNat_and, UInt8.toNat_and, Nat.testBit_and, Nat.testBit_and, hset] at hbit
    simpa [hr] using hbit
  · intro h r hr
    have hset := hmask ⟨bits, hbits.2⟩ ⟨r, hr⟩ hbits.1
    rw [UInt8.toNat_and, UInt8.toNat_and, Nat.testBit_and, Nat.testBit_and, hset]
    by_cases hlt : r < bits
    · rw [h r hlt]
    · simp [hlt]

/-- Whole bytes, then the bits that are left: all the leading bits. -/
lemma covered_iff (hwidth : network.length = candidate.length) (hlen : len ≤ 8 * network.length) :
    covered network candidate len = true ↔
      ∀ i < len, BigEndian.bitAt network i = BigEndian.bitAt candidate i := by
  have hwhole := BigEndian.take_eq_iff (w := len / 8) hwidth (by omega)
  rw [covered, if_neg (by omega)]
  by_cases htake : network.take (len / 8) = candidate.take (len / 8)
  · have hleading := hwhole.mp htake
    simp only [htake, bne_self_eq_false, Bool.false_eq_true, if_false]
    by_cases hbits : len % 8 = 0
    · rw [if_pos hbits]
      refine iff_of_true rfl fun i hi => hleading i (by omega)
    · rw [if_neg hbits, beq_iff_eq, mask_eq_iff _ _ (by omega)]
      constructor
      · intro h i hi
        by_cases hin : i < 8 * (len / 8)
        · exact hleading i hin
        · have := h (i % 8) (by omega)
          rwa [show len / 8 = i / 8 by omega] at this
      · intro h r hr
        have := h (8 * (len / 8) + r) (by omega)
        rwa [BigEndian.bitAt, BigEndian.bitAt, show (8 * (len / 8) + r) / 8 = len / 8 by omega,
          show (8 * (len / 8) + r) % 8 = r by omega] at this
  · have hne : (network.take (len / 8) != candidate.take (len / 8)) = true := by simpa using htake
    rw [if_pos hne]
    refine iff_of_false Bool.false_ne_true fun h => htake (hwhole.mpr fun i hi => h i (by omega))

/-- The shift of wide integers leaves the same bits. -/
lemma inBlock_iff (hwidth : net.length = ip.length) (hlen : len ≤ 8 * net.length) :
    inBlock (8 * net.length) (BigEndian.value net) len (BigEndian.value ip) ↔
      ∀ i < len, BigEndian.bitAt net i = BigEndian.bitAt ip i := by
  rw [inBlock, eq_comm]
  exact BigEndian.value_div_eq_iff hwidth hlen

/-- **Both tests are the same prefix test.** An exception of the egress policy contains
the addresses that a selector of the same network names, and these are the addresses of
its family that have its leading bits. -/
theorem prefix_tests_agree (net : AllowedNet) (ip : IpAddr) :
    net.contains ip = networkContains net.addr net.prefixLen ip ∧
      (net.contains ip = true ↔ LeadingBits net.prefixLen net.addr ip) := by
  obtain ⟨address, len, hvalid⟩ := net
  have hcontains := AllowedNet.contains_iff ⟨address, len, hvalid⟩ ip
  rw [Bool.eq_iff_iff, hcontains]
  cases address with
  | v4 network =>
    cases ip with
    | v4 candidate =>
      have hblock := @inBlock_iff len network.octets candidate.octets rfl hvalid
      have hcovered := @covered_iff len network.octets candidate.octets rfl hvalid
      simp only [AllowedNet.Covers, IpAddr.toNat, IpAddr.bits, Ipv4Addr.toNat_eq_value,
        networkContains, LeadingBits, IpAddr.octets, hcovered]
      exact ⟨(and_iff_right rfl).trans hblock, and_congr_right fun _ => hblock⟩
    | v6 candidate =>
      simp [AllowedNet.Covers, networkContains, LeadingBits, IpAddr.isIpv4]
  | v6 network =>
    cases ip with
    | v4 candidate =>
      simp [AllowedNet.Covers, networkContains, LeadingBits, IpAddr.isIpv4]
    | v6 candidate =>
      have hblock := @inBlock_iff len network.octets candidate.octets rfl hvalid
      have hcovered := @covered_iff len network.octets candidate.octets rfl hvalid
      simp only [AllowedNet.Covers, IpAddr.toNat, IpAddr.bits, Ipv6Addr.toNat_eq_value,
        networkContains, LeadingBits, IpAddr.octets, hcovered]
      exact ⟨(and_iff_right rfl).trans hblock, and_congr_right fun _ => hblock⟩

end FastAdHunter.Rules
