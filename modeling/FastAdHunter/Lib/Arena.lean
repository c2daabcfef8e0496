import Mathlib

/-!
# Records over an arena

Records of a fixed size keep their texts in one growing array, by offset and
length, and their rare fields in maps from the record's index.
-/

namespace FastAdHunter.Lib

open List

universe u v

section Arena

variable {α : Type u}

/-- A text that lies in the arena stays where it is when the arena grows. -/
lemma take_drop_append (h : (arena.drop off).take text.length = text) (more : List α) :
    ((arena ++ more).drop off).take text.length = text := by
  have hlen := congrArg List.length h
  simp only [length_take, length_drop] at hlen
  by_cases hoff : off ≤ arena.length
  · rw [drop_append_of_le_length hoff,
      take_append_of_le_length (by simp; omega), h]
  · have hz : text = [] := length_eq_zero_iff.mp (by omega)
    simp [hz]

end Arena

section SideMap

variable {α : Type u} {β : Type v}

/-- Enter a rare field of record `idx` into its side map, if the record has
it. -/
def insertSome (idx : Nat) (value : Option β) (m : List (Nat × β)) : List (Nat × β) :=
  match value with
  | some v => (idx, v) :: m
  | none => m

/-- A side map after a record has been appended. -/
lemma lookup_insertSome {g : α → Option β}
    (hm : ∀ i : Nat, m.lookup i = records[i]?.bind g) (record : α) (i : Nat) :
    (insertSome records.length (g record) m).lookup i = (records ++ [record])[i]?.bind g := by
  have hpast : ∀ j, records.length ≤ j → m.lookup j = none := by
    intro j hj
    rw [hm, getElem?_eq_none hj]
    rfl
  rcases lt_trichotomy i records.length with hlt | rfl | hgt
  · rw [getElem?_append_left hlt, ← hm i]
    cases g record with
    | none => rfl
    | some v =>
      have hne : (i == records.length) = false := by simpa using hlt.ne
      simp [insertSome, List.lookup, hne]
  · rw [getElem?_append_right le_rfl, Nat.sub_self]
    cases hg : g record with
    | none => simp [insertSome, hpast _ le_rfl, hg]
    | some v => simp [insertSome, hg]
  · rw [getElem?_eq_none (by simp; omega), Option.bind_none]
    cases g record with
    | none => exact hpast i hgt.le
    | some v =>
      have hne : (i == records.length) = false := by simpa using hgt.ne'
      simp [insertSome, List.lookup, hne, hpast i hgt.le]

end SideMap

end FastAdHunter.Lib
