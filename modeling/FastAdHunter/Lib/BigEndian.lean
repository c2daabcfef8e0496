import Mathlib.Data.Nat.Bitwise
import Mathlib.Tactic

/-!
# Big-endian numbers

A number as its bytes, the most significant byte first. Bits are counted from the
left, in the order in which they are written; two numbers of one width agree in their
leading bits exactly when they agree after the shift that leaves only these.
-/

namespace FastAdHunter.Lib.BigEndian

open List

/-- The number that these bytes write. -/
def value (bytes : List UInt8) : Nat :=
  bytes.foldl (fun n b => n * 256 + b.toNat) 0

/-- Bit `i` from the left. -/
def bitAt (bytes : List UInt8) (i : Nat) : Bool :=
  (bytes.getD (i / 8) 0).toNat.testBit (7 - i % 8)

@[simp] lemma value_concat (bytes : List UInt8) (b : UInt8) :
    value (bytes ++ [b]) = 2 ^ 8 * value bytes + b.toNat := by
  simp [value, Nat.mul_comm]

lemma value_lt (bytes : List UInt8) : value bytes < 2 ^ (8 * bytes.length) := by
  induction bytes using reverseRecOn with
  | nil => simp [value]
  | append_singleton bytes b ih =>
    have hb := b.toNat_lt
    rw [value_concat, length_append, length_singleton, Nat.mul_succ, Nat.pow_add]
    omega

/-- Counted from the right, the bits are those of the number. -/
theorem testBit_value {bytes : List UInt8} (hi : i < 8 * bytes.length) :
    (value bytes).testBit (8 * bytes.length - 1 - i) = bitAt bytes i := by
  induction bytes using reverseRecOn with
  | nil => simp at hi
  | append_singleton bytes b ih =>
    rw [length_append, length_singleton] at hi ⊢
    rw [value_concat, Nat.testBit_two_pow_mul_add _ b.toNat_lt]
    by_cases hlast : i < 8 * bytes.length
    · have hbyte : i / 8 < bytes.length := by omega
      rw [if_neg (by omega), bitAt, getD_append _ _ _ _ hbyte, ← bitAt, ← ih hlast]
      congr 1
      omega
    · have hbyte : i / 8 = bytes.length := by omega
      rw [if_pos (by omega), bitAt, getD_append_right _ _ _ _ hbyte.ge, hbyte, Nat.sub_self]
      congr 1
      omega

section Leading

variable {a b : List UInt8}

/-- **The leading bits are what the shift leaves.** -/
theorem value_div_eq_iff (hwidth : a.length = b.length) (hk : k ≤ 8 * a.length) :
    value a / 2 ^ (8 * a.length - k) = value b / 2 ^ (8 * a.length - k) ↔
      ∀ i < k, bitAt a i = bitAt b i := by
  have hbits : ∀ c : List UInt8, c.length = a.length → ∀ i < k,
      (value c / 2 ^ (8 * a.length - k)).testBit (k - 1 - i) = bitAt c i := by
    intro c hc i hi
    rw [Nat.testBit_div_two_pow, ← testBit_value (by omega), hc]
    congr 1
    omega
  have hsmall : ∀ c : List UInt8, c.length = a.length →
      value c / 2 ^ (8 * a.length - k) < 2 ^ k := by
    intro c hc
    apply Nat.div_lt_of_lt_mul
    rw [← Nat.pow_add, Nat.sub_add_cancel hk, ← hc]
    exact value_lt c
  constructor
  · intro h i hi
    rw [← hbits a rfl i hi, ← hbits b hwidth.symm i hi, h]
  · intro h
    apply Nat.eq_of_testBit_eq
    intro j
    by_cases hj : j < k
    · have hi : k - 1 - j < k := by omega
      have ha := hbits a rfl (k - 1 - j) hi
      have hb := hbits b hwidth.symm (k - 1 - j) hi
      rw [show k - 1 - (k - 1 - j) = j by omega] at ha hb
      rw [ha, hb, h _ hi]
    · have hpow : 2 ^ k ≤ 2 ^ j := Nat.pow_le_pow_right (by omega) (by omega)
      rw [Nat.testBit_lt_two_pow ((hsmall a rfl).trans_le hpow),
        Nat.testBit_lt_two_pow ((hsmall b hwidth.symm).trans_le hpow)]

/-- A byte is its eight bits. -/
lemma byte_eq_iff (x y : UInt8) :
    x = y ↔ ∀ r < 8, x.toNat.testBit (7 - r) = y.toNat.testBit (7 - r) := by
  constructor
  · rintro rfl r hr
    rfl
  · intro h
    apply UInt8.toNat_inj.mp
    apply Nat.eq_of_testBit_eq
    intro j
    by_cases hj : j < 8
    · have := h (7 - j) (by omega)
      rwa [show 7 - (7 - j) = j by omega] at this
    · have hpow : 2 ^ 8 ≤ 2 ^ j := Nat.pow_le_pow_right (by omega) (by omega)
      rw [Nat.testBit_lt_two_pow (x.toNat_lt.trans_le hpow),
        Nat.testBit_lt_two_pow (y.toNat_lt.trans_le hpow)]

/-- Equal leading bytes are equal leading bits. -/
lemma take_eq_iff (hwidth : a.length = b.length) (hw : w ≤ a.length) :
    a.take w = b.take w ↔ ∀ i < 8 * w, bitAt a i = bitAt b i := by
  have hbytes : a.take w = b.take w ↔ ∀ j < w, a.getD j 0 = b.getD j 0 := by
    constructor
    · intro h j hj
      have ha : a.getD j 0 = (a.take w).getD j 0 := by simp [hj]
      have hb : b.getD j 0 = (b.take w).getD j 0 := by simp [hj]
      rw [ha, hb, h]
    · intro h
      apply ext_getElem
      · simp [hwidth]
      · intro j hj hj'
        rw [length_take] at hj hj'
        have := h j (by omega)
        rw [getD_eq_getElem _ _ (by omega), getD_eq_getElem _ _ (by omega)] at this
        simpa using this
  rw [hbytes]
  constructor
  · intro h i hi
    rw [bitAt, bitAt, h (i / 8) (by omega)]
  · intro h j hj
    rw [byte_eq_iff]
    intro r hr
    have := h (8 * j + r) (by omega)
    rwa [bitAt, bitAt, show (8 * j + r) / 8 = j by omega,
      show (8 * j + r) % 8 = r by omega] at this

end Leading

end FastAdHunter.Lib.BigEndian
