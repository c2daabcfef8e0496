import Mathlib.Data.List.Sort

/-!
# First matches in a stable order

A list is put in order of a key, the greatest first and equal keys in the order
they came in; a search takes the first element that matches. The order is only
seen through the elements that match.
-/

namespace FastAdHunter.Lib

open List

universe u

section FirstMatch

variable {α : Type u} (key : α → Nat) {l l' : List α} {p : α → Bool}

/-- The greatest key first; a stable sort. -/
def greatestFirst (l : List α) : List α :=
  l.insertionSort fun a b => key b ≤ key a

variable {key}

lemma mem_greatestFirst : a ∈ greatestFirst key l ↔ a ∈ l :=
  mem_insertionSort _

lemma pairwise_greatestFirst (l : List α) :
    (greatestFirst key l).Pairwise fun a b => key b ≤ key a := by
  exact pairwise_insertionSort _ l

/-- An element goes in front of a list of lesser keys. -/
lemma orderedInsert_of_forall (h : ∀ b ∈ l, key b ≤ key a) :
    l.orderedInsert (fun a b => key b ≤ key a) a = a :: l := by
  cases l with
  | nil => rfl
  | cons b l => rw [orderedInsert_cons, if_pos (h b mem_cons_self)]

lemma filter_orderedInsert (h : l.Pairwise fun a b => key b ≤ key a) :
    (l.orderedInsert (fun a b => key b ≤ key a) a).filter p =
      if p a then (l.filter p).orderedInsert (fun a b => key b ≤ key a) a else l.filter p := by
  induction l with
  | nil => simp [filter_cons]
  | cons b l ih =>
    obtain ⟨hb, hl⟩ := pairwise_cons.mp h
    rw [orderedInsert_cons]
    by_cases hab : key b ≤ key a
    · rw [if_pos hab, filter_cons]
      split
      · -- everything behind `b` has a lesser key still
        refine (orderedInsert_of_forall fun c hc => ?_).symm
        rcases mem_cons.mp (mem_of_mem_filter hc) with rfl | hc
        · exact hab
        · exact Nat.le_trans (hb c hc) hab
      · rfl
    · rw [if_neg hab, filter_cons, filter_cons, ih hl]
      cases hpb : p b with
      | false => simp
      | true =>
        cases hpa : p a with
        | false => simp
        | true => simp [orderedInsert_cons, hab]

/-- The order of the matching elements does not depend on the others. -/
lemma filter_greatestFirst (l : List α) :
    (greatestFirst key l).filter p = greatestFirst key (l.filter p) := by
  induction l with
  | nil => rfl
  | cons a l ih =>
    have hsorted : (greatestFirst key l).Pairwise fun a b => key b ≤ key a :=
      pairwise_greatestFirst l
    simp only [greatestFirst, insertionSort_cons] at hsorted ih ⊢
    rw [filter_orderedInsert hsorted, filter_cons]
    split
    · rw [insertionSort_cons, ih]
    · exact ih

/-- Lists with the same matching elements have the same first match. -/
lemma find?_greatestFirst_congr (h : l.filter p = l'.filter p) :
    (greatestFirst key l).find? p = (greatestFirst key l').find? p := by
  rw [← head?_filter, ← head?_filter, filter_greatestFirst, filter_greatestFirst, h]

lemma head?_greatestFirst (hle : ∀ a ∈ l, key a ≤ k) (hk : ∃ a ∈ l, key a = k) :
    (greatestFirst key l).head? = l.find? fun a => key a == k := by
  induction l with
  | nil => exact absurd hk (by simp)
  | cons a l ih =>
    obtain ⟨ha, hl⟩ := forall_mem_cons.mp hle
    rw [greatestFirst, insertionSort_cons]
    by_cases hak : key a = k
    · rw [find?_cons_of_pos (by simpa using hak)]
      have hlesser : ∀ b ∈ greatestFirst key l, key b ≤ key a := fun b hb => by
        rw [hak]
        exact hl b (mem_greatestFirst.mp hb)
      exact congrArg List.head? (orderedInsert_of_forall hlesser)
    · rw [find?_cons_of_neg (by simpa using hak)]
      obtain ⟨b, hb, hbk⟩ := hk
      have hb : b ∈ l := (mem_cons.mp hb).resolve_left (by rintro rfl; exact hak hbk)
      have hhead := ih hl ⟨b, hb, hbk⟩
      have hmem : b ∈ greatestFirst key l := mem_greatestFirst.mpr hb
      cases hsorted : greatestFirst key l with
      | nil =>
        rw [hsorted] at hmem
        cases hmem
      | cons c rest =>
        rw [hsorted, head?_cons] at hhead
        have hfound := find?_some hhead.symm
        have hck : key c = k := beq_iff_eq.mp hfound
        have hne : ¬ key c ≤ key a := by omega
        show (List.orderedInsert _ a (greatestFirst key l)).head? = _
        rw [hsorted, orderedInsert_cons, if_neg hne, ← hhead]
        rfl

/-- The first match is the first of the matches with the greatest key. -/
lemma find?_greatestFirst (hle : ∀ a ∈ l, p a = true → key a ≤ k)
    (hk : ∃ a ∈ l, p a = true ∧ key a = k) :
    (greatestFirst key l).find? p = l.find? fun a => p a && key a == k := by
  rw [← head?_filter, filter_greatestFirst, head?_greatestFirst (k := k)]
  · rw [find?_filter]
    refine congrArg (l.find? ·) (funext fun a => ?_)
    rw [Bool.decide_and, Bool.decide_eq_true, Bool.decide_eq_true]
  · intro a ha
    exact hle a (mem_of_mem_filter ha) (mem_filter.mp ha).2
  · obtain ⟨a, ha, hpa, hak⟩ := hk
    exact ⟨a, mem_filter.mpr ⟨ha, hpa⟩, hak⟩

end FirstMatch

end FastAdHunter.Lib
