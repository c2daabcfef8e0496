import FastAdHunter.Lib.Strides
import Mathlib.Order.Bounds.Basic

/-!
# Decimation of a series

A read of the history keeps at most `max` rows of a range, whatever its length: every
`stride`-th row, and whenever there is one row too many, every second of those is
dropped and the stride doubles.

Counters are natural numbers here; no range has 2^64 rows.
-/

namespace FastAdHunter.Stats

open Lib Strides List

universe u

variable {α : Type u}

structure Decimator (α : Type u) where
  kept : List α
  seen : Nat
  stride : Nat
  max : Nat
  deriving DecidableEq

/-- `Vec::retain` with a closure that counts, and keeps the even positions. -/
def retainEven (index : Nat) : List α → List α
  | [] => []
  | x :: xs => if index % 2 = 0 then x :: retainEven (index + 1) xs else retainEven (index + 1) xs

namespace Decimator

def new (limit : Nat) : Decimator α where
  kept := []
  seen := 0
  stride := 1
  max := Nat.max limit 1

def push (d : Decimator α) (item : α) : Decimator α :=
  let kept := if d.seen % d.stride = 0 then d.kept ++ [item] else d.kept
  if d.max < kept.length then
    { d with kept := retainEven 0 kept, seen := d.seen + 1, stride := d.stride * 2 }
  else { d with kept := kept, seen := d.seen + 1 }

def finish (d : Decimator α) : List α × Nat :=
  (d.kept, d.stride)

end Decimator

/-- A whole series through one decimator. -/
def decimate (limit : Nat) (items : List α) : List α × Nat :=
  (items.foldl Decimator.push (Decimator.new limit)).finish

lemma retainEven_eq (xs : List α) : retainEven 0 xs = everyNth 2 xs := by
  have hfrom : ∀ (xs : List α) (index : Nat), retainEven index xs =
      ((xs.zipIdx index).filter fun entry => entry.2 % 2 == 0).map Prod.fst := by
    intro xs
    induction xs with
    | nil => exact fun _ => rfl
    | cons x xs ih =>
      intro index
      rw [retainEven, zipIdx_cons, ih]
      by_cases h : index % 2 = 0
      · simp [h]
      · simp [h]
  exact hfrom xs 0

/-- What a decimator knows of the items it has seen: it keeps those at its stride, within
its limit, and with half the stride there were too many. -/
structure Decimator.Sees (d : Decimator α) (items : List α) : Prop where
  seen : d.seen = items.length
  kept : d.kept = everyNth d.stride items
  within : d.kept.length ≤ d.max
  limit : 1 ≤ d.max
  stride : ∃ j, d.stride = 2 ^ j ∧ ∀ i < j, d.max < (everyNth (2 ^ i) items).length

lemma Decimator.sees_new (limit : Nat) : (new limit : Decimator α).Sees [] where
  seen := rfl
  kept := rfl
  within := Nat.zero_le _
  limit := Nat.le_max_right limit 1
  stride := ⟨0, rfl, fun i hi => absurd hi (Nat.not_lt_zero i)⟩

lemma Decimator.max_push (d : Decimator α) (item : α) : (d.push item).max = d.max := by
  simp only [push, apply_ite Decimator.max, ite_self]

/-- One more item, whether it is kept, passed over or makes the decimator halve. -/
lemma Decimator.Sees.push {d : Decimator α} (h : d.Sees items) (item : α) :
    (d.push item).Sees (items ++ [item]) := by
  obtain ⟨j, hstride, hbefore⟩ := h.stride
  have hpos : 0 < d.stride := by
    rw [hstride]
    exact Nat.two_pow_pos j
  have hkept : (if d.seen % d.stride = 0 then d.kept ++ [item] else d.kept) =
      everyNth d.stride (items ++ [item]) := by
    rw [everyNth_concat, ← h.kept, h.seen]
    split
    · rfl
    · rw [append_nil]
  have hbefore' : ∀ i < j, d.max < (everyNth (2 ^ i) (items ++ [item])).length :=
    fun i hi => (hbefore i hi).trans_le (length_everyNth_concat _ items item)
  have hgrown : (everyNth d.stride (items ++ [item])).length ≤ d.max + 1 := by
    rw [everyNth_concat, ← h.kept, length_append]
    have := h.within
    split
    · rw [length_singleton]
      omega
    · rw [length_nil]
      omega
  simp only [Decimator.push, hkept]
  split
  next hmany =>
    -- the buffer is one too long: half of it is at most the limit, and its stride failed
    have hhalved : retainEven 0 (everyNth d.stride (items ++ [item])) =
        everyNth (d.stride * 2) (items ++ [item]) := by
      rw [retainEven_eq, everyNth_everyNth hpos]
    have hhalf := (length_everyNth (show 0 < 2 by decide)
      (everyNth d.stride (items ++ [item]))).2
    rw [everyNth_everyNth hpos] at hhalf
    have hlimit := h.limit
    refine ⟨?_, hhalved, ?_, hlimit, j + 1, ?_, ?_⟩
    · simp [h.seen]
    · simp only [hhalved]
      omega
    · simp only [hstride, Nat.pow_succ]
    · intro i hi
      obtain hlt | rfl : i < j ∨ i = j := by omega
      · exact hbefore' i hlt
      · exact hstride ▸ hmany
  next hfew =>
    refine ⟨?_, rfl, Nat.le_of_not_lt hfew, h.limit, j, hstride, hbefore'⟩
    simp [h.seen]

lemma Decimator.sees_foldl (limit : Nat) (items : List α) :
    (items.foldl Decimator.push (new limit)).Sees items ∧
      (items.foldl Decimator.push (new limit)).max = Nat.max limit 1 := by
  induction items using reverseRecOn with
  | nil => exact ⟨sees_new limit, rfl⟩
  | append_singleton items item ih =>
    rw [foldl_append, foldl_cons, foldl_nil]
    exact ⟨ih.1.push item, (Decimator.max_push _ item).trans ih.2⟩

/-- **Decimation is even and minimal.** What is kept of a series are the items whose index
is a multiple of the stride that is reported, in order, and the stride is the smallest
power of two that leaves no more than the limit. -/
theorem decimate_even_minimal (items : List α) (hlimit : 1 ≤ limit) :
    (decimate limit items).1 = everyNth (decimate limit items).2 items ∧
      IsLeast {stride | (∃ j, stride = 2 ^ j) ∧ (everyNth stride items).length ≤ limit}
        (decimate limit items).2 := by
  obtain ⟨hsees, hmax⟩ := Decimator.sees_foldl limit items
  have hmax' : Nat.max limit 1 = limit := Nat.max_eq_left hlimit
  obtain ⟨j, hstride, hbefore⟩ := hsees.stride
  have hwithin := hsees.within
  rw [hmax, hmax'] at hwithin hbefore
  refine ⟨hsees.kept, ⟨⟨j, hstride⟩, ?_⟩, ?_⟩
  · rw [hsees.kept] at hwithin
    exact hwithin
  · rintro _ ⟨⟨i, rfl⟩, hi⟩
    have hle : j ≤ i := by
      by_contra hlt
      have := hbefore i (Nat.lt_of_not_le hlt)
      omega
    exact hstride.trans_le (Nat.pow_le_pow_right (by decide) hle)

theorem decimate_even_minimal_seven :
    (decimate 3 [0, 1, 2, 3, 4, 5, 6]) = ([0, 4], 4) ∧
      IsLeast {stride | (∃ j, stride = 2 ^ j) ∧
        (everyNth stride [0, 1, 2, 3, 4, 5, 6]).length ≤ 3} 4 :=
  ⟨by decide, (decimate_even_minimal [0, 1, 2, 3, 4, 5, 6] (show 1 ≤ 3 by decide)).2⟩

end FastAdHunter.Stats
