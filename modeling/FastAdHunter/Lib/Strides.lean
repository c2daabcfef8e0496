import Mathlib.Data.List.Basic
import Mathlib.Tactic

/-!
# Every n-th item of a list

`everyNth k xs` are the items of `xs` whose index is a multiple of `k`, in order. It is
read here from the right end, as a list that grows item by item is.
-/

namespace FastAdHunter.Lib.Strides

open List

universe u

variable {α : Type u}

/-- The items whose index is a multiple of `k`. -/
def everyNth (k : Nat) (xs : List α) : List α :=
  (xs.zipIdx.filter fun entry => entry.2 % k == 0).map Prod.fst

@[simp] lemma everyNth_nil (k : Nat) : everyNth k ([] : List α) = [] := rfl

lemma everyNth_concat (k : Nat) (xs : List α) (x : α) :
    everyNth k (xs ++ [x]) = everyNth k xs ++ if xs.length % k = 0 then [x] else [] := by
  simp only [everyNth, zipIdx_append]
  by_cases h : xs.length % k = 0
  · simp [h]
  · simp [h]

/-- One item for each started run of `k`. -/
lemma length_everyNth (hk : 0 < k) (xs : List α) :
    xs.length ≤ k * (everyNth k xs).length ∧ k * (everyNth k xs).length < xs.length + k := by
  induction xs using reverseRecOn with
  | nil => simpa using hk
  | append_singleton xs x ih =>
    rw [everyNth_concat, length_append, length_append, length_singleton]
    by_cases hmod : xs.length % k = 0
    · obtain ⟨q, hq⟩ := Nat.dvd_of_mod_eq_zero hmod
      have hlt : (everyNth k xs).length < q + 1 := by
        apply Nat.lt_of_mul_lt_mul_left (a := k)
        rw [Nat.mul_succ]
        omega
      have hle := Nat.mul_le_mul_left k (Nat.le_of_lt_succ hlt)
      rw [if_pos hmod, length_singleton, Nat.mul_succ]
      omega
    · have hne : xs.length ≠ k * (everyNth k xs).length := by
        intro h
        rw [h, Nat.mul_mod_right] at hmod
        exact hmod rfl
      simp only [if_neg hmod, length_nil, Nat.add_zero]
      omega

lemma length_everyNth_of_dvd (hk : 0 < k) (h : xs.length = k * q) :
    (everyNth k xs : List α).length = q := by
  obtain ⟨hlow, hhigh⟩ := length_everyNth hk xs
  rw [h] at hlow hhigh
  have hle := Nat.le_of_mul_le_mul_left hlow hk
  rw [← Nat.mul_succ] at hhigh
  have hlt := Nat.lt_of_mul_lt_mul_left hhigh
  omega

/-- A longer list leaves no less. -/
lemma length_everyNth_concat (k : Nat) (xs : List α) (x : α) :
    (everyNth k xs).length ≤ (everyNth k (xs ++ [x])).length := by
  rw [everyNth_concat, length_append]
  exact Nat.le_add_right _ _

/-- **Every m-th of every k-th item.** -/
theorem everyNth_everyNth (hk : 0 < k) (m : Nat) (xs : List α) :
    everyNth m (everyNth k xs) = everyNth (k * m) xs := by
  induction xs using reverseRecOn with
  | nil => rfl
  | append_singleton xs x ih =>
    rw [everyNth_concat k, everyNth_concat (k * m)]
    by_cases hmod : xs.length % k = 0
    · obtain ⟨q, hq⟩ := Nat.dvd_of_mod_eq_zero hmod
      have hposition := length_everyNth_of_dvd hk hq
      have hiff : q % m = 0 ↔ xs.length % (k * m) = 0 := by
        rw [hq, Nat.mul_mod_mul_left, Nat.mul_eq_zero]
        exact ⟨.inr, fun h => h.resolve_left hk.ne'⟩
      rw [if_pos hmod, everyNth_concat, ih, hposition]
      simp only [hiff]
    · have hmod' : xs.length % (k * m) ≠ 0 := by
        intro h
        exact hmod (Nat.mod_eq_zero_of_dvd ((Nat.dvd_mul_right k m).trans (Nat.dvd_of_mod_eq_zero h)))
      rw [if_neg hmod, if_neg hmod', append_nil, append_nil, ih]

end FastAdHunter.Lib.Strides
