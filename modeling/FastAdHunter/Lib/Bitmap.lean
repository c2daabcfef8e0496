import Mathlib.Data.List.Basic
import Mathlib.Tactic

/-!
# Bitmaps over 64-bit words

A fixed array of words, one bit an index. Indices outside the array are
ignored: setting one changes nothing and testing one answers `false`.
-/

namespace FastAdHunter.Lib.Bitmap

/-- The bit of index `i` inside its word. -/
def bit (i : Nat) : UInt64 :=
  1 <<< UInt64.ofNat (i % 64)

def set (words : List UInt64) (i : Nat) : List UInt64 :=
  words.modify (i / 64) (· ||| bit i)

def test (words : List UInt64) (i : Nat) : Bool :=
  (words[i / 64]?).any fun w => w &&& bit i != 0

lemma bit_and_ne_zero_iff (i j : Nat) : bit i &&& bit j ≠ 0 ↔ i % 64 = j % 64 := by
  have hall : ∀ a : Fin 64, ∀ b : Fin 64,
      ((1 <<< UInt64.ofNat a.val : UInt64) &&& (1 <<< UInt64.ofNat b.val) ≠ 0 ↔ a = b) := by
    decide +kernel
  have := hall ⟨i % 64, Nat.mod_lt _ (by omega)⟩ ⟨j % 64, Nat.mod_lt _ (by omega)⟩
  rw [bit, bit, this, Fin.mk.injEq]

lemma or_and_ne_zero_iff (a b m : UInt64) : (a ||| b) &&& m ≠ 0 ↔ a &&& m ≠ 0 ∨ b &&& m ≠ 0 := by
  have h : (a ||| b) &&& m = (a &&& m) ||| (b &&& m) := by
    rw [← UInt64.toNat_inj]
    simp [Nat.and_or_distrib_right]
  rw [h, Ne, UInt64.or_eq_zero_iff, not_and_or]

@[simp] lemma length_set (words : List UInt64) (i : Nat) :
    (set words i).length = words.length := by
  simp [set]

/-- **Setting an index sets it and nothing else.** -/
theorem test_set (hi : i < words.length * 64) (j : Nat) :
    test (set words i) j = true ↔ j = i ∨ test words j = true := by
  have hlt : i / 64 < words.length := by omega
  rw [test, test, set, List.getElem?_modify]
  by_cases hword : i / 64 = j / 64
  · have hbit : i % 64 = j % 64 ↔ j = i := by omega
    rw [← hword, List.getElem?_eq_getElem hlt]
    simp only [Option.map_eq_map, Option.map_some, Option.any_some, if_true, bne_iff_ne,
      or_and_ne_zero_iff, bit_and_ne_zero_iff, hbit]
    exact or_comm
  · have hne : j ≠ i := by
      rintro rfl
      exact hword rfl
    simp [hword, hne]

lemma test_replicate_zero (n i : Nat) : test (List.replicate n 0) i = false := by
  rw [test, List.getElem?_replicate]
  split <;> simp

end FastAdHunter.Lib.Bitmap
