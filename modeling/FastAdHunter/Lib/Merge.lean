import Mathlib.Data.List.Basic
import Mathlib.Tactic

/-!
# Merging duplicates

A sequence of keyed items is compiled into a table without duplicates: the
first item with a key keeps its place, and the payload of every later item with
the same key is joined into it.
-/

namespace FastAdHunter.Lib

open List

universe u v

section Merge

variable {α : Type u} {μ : Type v}
variable (same : α → α → Bool) (join : μ → μ → μ)

/-- The first occurrences of a list, up to `same`. -/
def distinct : List α → List α
  | [] => []
  | a :: l => a :: (distinct l).filter (fun b => !same a b)

/-- Add one item: join it into the first entry with its key, or append it. -/
def mergeStep : List (α × μ) → α × μ → List (α × μ)
  | [], x => [x]
  | e :: acc, x =>
    if same e.1 x.1 then (e.1, join e.2 x.2) :: acc
    else e :: mergeStep acc x

/-- Merge a sequence of items from the left. -/
def merge (l : List (α × μ)) : List (α × μ) :=
  l.foldl (mergeStep same join) []

/-- Being the same key is an equivalence. -/
structure IsSame : Prop where
  refl : ∀ a, same a a = true
  symm : ∀ a b, same a b = true → same b a = true
  trans : ∀ a b c, same a b = true → same b c = true → same a c = true

variable {same} {join}

lemma distinct_append_singleton (hs : IsSame same) (l : List α) (x : α) :
    distinct same (l ++ [x]) = distinct same l ++
        if (distinct same l).any (fun a => same a x) then [] else [x] := by
  induction l with
  | nil => simp [distinct]
  | cons a l ih =>
    rw [cons_append, distinct, ih, distinct, filter_append]
    by_cases hax : same a x = true
    · simp [hax]
    · have hany : ((distinct same l).filter (fun b => !same a b)).any
          (fun b => same b x) = (distinct same l).any (fun b => same b x) := by
        rw [Bool.eq_iff_iff, any_eq_true, any_eq_true]
        constructor
        · rintro ⟨b, hb, hbx⟩
          exact ⟨b, (mem_filter.mp hb).1, hbx⟩
        · rintro ⟨b, hb, hbx⟩
          refine ⟨b, mem_filter.mpr ⟨hb, ?_⟩, hbx⟩
          simp only [Bool.not_eq_true', Bool.eq_false_iff]
          exact fun hab => hax (hs.trans a b x hab hbx)
      simp [hany, hax]

lemma keys_mergeStep (acc : List (α × μ)) (x : α × μ) :
    (mergeStep same join acc x).map Prod.fst = acc.map Prod.fst ++
        if (acc.map Prod.fst).any (fun a => same a x.1) then [] else [x.1] := by
  induction acc with
  | nil => rfl
  | cons e acc ih =>
    by_cases h : same e.1 x.1 = true
    · simp [mergeStep, h]
    · rw [Bool.not_eq_true] at h
      simp only [mergeStep, h, Bool.false_eq_true, if_false, map_cons,
        ih, any_cons, Bool.false_or, cons_append]

variable {acc : List (α × μ)}

/-- Where the key is already there, one payload changes. -/
lemma mergeStep_of_findIdx_some (h : acc.findIdx? (fun e => same e.1 x.1) = some i) :
    mergeStep same join acc x = acc.modify i (fun e => (e.1, join e.2 x.2)) := by
  induction acc generalizing i with
  | nil => simp at h
  | cons e acc ih =>
    by_cases he : same e.1 x.1 = true
    · simp only [findIdx?_cons, he, if_true, Option.some.injEq] at h
      subst h
      simp [mergeStep, he]
    · simp only [findIdx?_cons, he, Bool.false_eq_true, if_false,
        Option.map_eq_some_iff] at h
      obtain ⟨j, hj, rfl⟩ := h
      simp [mergeStep, he, ih hj]

lemma mergeStep_of_findIdx_none (h : acc.findIdx? (fun e => same e.1 x.1) = none) :
    mergeStep same join acc x = acc ++ [x] := by
  induction acc with
  | nil => rfl
  | cons e acc ih =>
    by_cases he : same e.1 x.1 = true
    · simp [findIdx?_cons, he] at h
    · simp only [findIdx?_cons, he, Bool.false_eq_true, if_false,
        Option.map_eq_none_iff] at h
      simp [mergeStep, he, ih h]

/-- **The keys of the table are the first occurrences, in order.** -/
theorem keys_merge (hs : IsSame same) (l : List (α × μ)) :
    (merge same join l).map Prod.fst = distinct same (l.map Prod.fst) := by
  induction l using List.reverseRecOn with
  | nil => rfl
  | append_singleton l x ih =>
    rw [merge, foldl_append, foldl_cons, foldl_nil]
    rw [keys_mergeStep, map_append, map_cons, map_nil,
      distinct_append_singleton hs, ← ih]
    rfl

lemma mem_of_mem_distinct (h : a ∈ distinct same l) : a ∈ l := by
  induction l with
  | nil => exact h
  | cons b l ih =>
    rw [distinct, mem_cons] at h
    rcases h with rfl | h
    · exact mem_cons_self
    · exact mem_cons_of_mem b (ih (mem_filter.mp h).1)

lemma distinct_pairwise (l : List α) :
    (distinct same l).Pairwise (fun a b => same a b = false) := by
  induction l with
  | nil => exact List.Pairwise.nil
  | cons a l ih =>
    rw [distinct, pairwise_cons]
    refine ⟨?_, ih.filter _⟩
    intro b hb
    simpa using (mem_filter.mp hb).2

lemma merge_pairwise (hs : IsSame same) (l : List (α × μ)) :
    ((merge same join l).map Prod.fst).Pairwise (fun a b => same a b = false) := by
  rw [keys_merge hs]
  exact distinct_pairwise _

lemma mem_mergeStep (hs : IsSame same)
    (hacc : (acc.map Prod.fst).Pairwise (fun a b => same a b = false))
    (h : e ∈ mergeStep same join acc x) :
    (e ∈ acc ∧ same e.1 x.1 = false) ∨
      (∃ m, (e.1, m) ∈ acc ∧ same e.1 x.1 = true ∧ e.2 = join m x.2) ∨
      (e = x ∧ ∀ d ∈ acc, same d.1 x.1 = false) := by
  induction acc with
  | nil =>
    simp only [mergeStep, mem_singleton] at h
    exact .inr (.inr ⟨h, by simp⟩)
  | cons d acc ih =>
    rw [map_cons, pairwise_cons] at hacc
    by_cases hd : same d.1 x.1 = true
    · simp only [mergeStep, hd, if_true, mem_cons] at h
      rcases h with rfl | h
      · exact .inr (.inl ⟨d.2, by simp, hd, rfl⟩)
      · refine .inl ⟨mem_cons_of_mem d h, ?_⟩
        -- a second entry with the item's key would have the key of `d`
        have hde := hacc.1 e.1 (mem_map_of_mem h)
        rw [Bool.eq_false_iff] at hde ⊢
        exact fun hex => hde (hs.trans _ _ _ hd (hs.symm _ _ hex))
    · rw [Bool.not_eq_true] at hd
      simp only [mergeStep, hd, Bool.false_eq_true, if_false,
        mem_cons] at h
      rcases h with rfl | h
      · exact .inl ⟨mem_cons_self, hd⟩
      · rcases ih hacc.2 h with ⟨h, hex⟩ | ⟨m, hm, hex, he⟩ | ⟨rfl, hno⟩
        · exact .inl ⟨mem_cons_of_mem d h, hex⟩
        · exact .inr (.inl ⟨m, mem_cons_of_mem d hm, hex, he⟩)
        · refine .inr (.inr ⟨rfl, ?_⟩)
          intro c hc
          rcases mem_cons.mp hc with rfl | hc
          · exact hd
          · exact hno c hc

lemma exists_mem_distinct (hs : IsSame same) (h : x ∈ l) :
    ∃ a ∈ distinct same l, same a x = true := by
  induction l with
  | nil => simp at h
  | cons a l ih =>
    by_cases hax : same a x = true
    · exact ⟨a, mem_cons_self, hax⟩
    · rcases mem_cons.mp h with rfl | h
      · exact absurd (hs.refl x) hax
      · obtain ⟨b, hb, hbx⟩ := ih h
        refine ⟨b, mem_cons_of_mem a (mem_filter.mpr ⟨hb, ?_⟩), hbx⟩
        simp only [Bool.not_eq_true', Bool.eq_false_iff]
        exact fun hab => hax (hs.trans _ _ _ hab hbx)

/-- **A join-prime property of a payload comes from some merged item.** -/
theorem merge_payload_iff (hs : IsSame same) {p : μ → Prop} (hp : ∀ m n, p (join m n) ↔ p m ∨ p n)
    (l : List (α × μ)) :
    ∀ e ∈ merge same join l, (p e.2 ↔ ∃ y ∈ l, same e.1 y.1 = true ∧ p y.2) := by
  induction l using List.reverseRecOn with
  | nil => simp [merge]
  | append_singleton l x ih =>
    intro e he
    rw [merge, foldl_append, foldl_cons, foldl_nil] at he
    have hsplit : (∃ y ∈ l ++ [x], same e.1 y.1 = true ∧ p y.2) ↔
        (∃ y ∈ l, same e.1 y.1 = true ∧ p y.2) ∨
          (same e.1 x.1 = true ∧ p x.2) := by
      simp [or_and_right, exists_or]
    rw [hsplit]
    rcases mem_mergeStep hs (merge_pairwise hs l) he with
      ⟨hmem, hex⟩ | ⟨m, hmem, hex, hm⟩ | ⟨rfl, hno⟩
    · rw [ih e hmem, hex]
      simp
    · rw [hm, hp, ih (e.1, m) hmem]
      simp [hex]
    · constructor
      · exact fun h => .inr ⟨hs.refl _, h⟩
      · rintro (⟨y, hy, hey, -⟩ | ⟨-, h⟩)
        · exfalso
          obtain ⟨a, ha, hay⟩ := exists_mem_distinct hs (mem_map_of_mem hy)
          have ha' : a ∈ (merge same join l).map Prod.fst := by
            rwa [keys_merge hs]
          obtain ⟨d, hd, rfl⟩ := mem_map.mp ha'
          have hde := hno d hd
          rw [hs.trans _ _ _ hay (hs.symm _ _ hey)] at hde
          cases hde
        · exact h

lemma find?_distinct (hp : ∀ a b, same a b = true → p a = p b) (l : List α) :
    (distinct same l).find? p = l.find? p := by
  induction l with
  | nil => rfl
  | cons a l ih =>
    rw [distinct]
    by_cases ha : p a = true
    · rw [find?_cons_of_pos ha, find?_cons_of_pos ha]
    · rw [find?_cons_of_neg ha, find?_cons_of_neg ha, find?_filter, ← ih]
      congr 1
      funext b
      -- a dropped duplicate of `a` fails the search as `a` does
      cases hab : same a b with
      | false => simp
      | true =>
        rw [← hp a b hab]
        simpa using ha

end Merge

section Index

variable {α : Type u}

lemma map_modify (h : ∀ x, g (f x) = k (g x)) (l : List α) (i : Nat) :
    (l.modify i f).map g = (l.map g).modify i k := by
  induction l generalizing i with
  | nil => simp
  | cons a l ih =>
    cases i with
    | zero => simp [h]
    | succ i => simp [ih]

lemma find?_zipIdx_eq_findIdx (f : α → β) (l : List α)
    (h : ∀ i a, l[i]? = some a → p (f a, i) = q a) :
    ((l.map f).zipIdx.find? p).map Prod.snd = l.findIdx? q := by
  have hgen : ∀ (l : List α) (k : Nat), (∀ i a, l[i]? = some a → p (f a, k + i) = q a) →
      (((l.map f).zipIdx k).find? p).map Prod.snd = (l.findIdx? q).map (k + ·) := by
    intro l
    induction l with
    | nil => intro k _; rfl
    | cons a l ih =>
      intro k hk
      have ha := hk 0 a rfl
      rw [map_cons, zipIdx_cons, findIdx?_cons]
      by_cases hq : q a = true
      · rw [find?_cons_of_pos (by rw [← hq]; exact ha), if_pos hq]
        rfl
      · rw [find?_cons_of_neg (by rw [Nat.add_zero] at ha; rw [ha]; exact hq), if_neg hq,
          ih (k + 1) fun i b hb => by
            rw [Nat.add_assoc, Nat.add_comm 1]
            exact hk (i + 1) b hb]
        cases l.findIdx? q with
        | none => rfl
        | some i => simp [Nat.add_assoc, Nat.add_comm 1]
  rw [hgen l 0 fun i a ha => by rw [Nat.zero_add]; exact h i a ha]
  simp

/-- Searching the indices of a list is searching the list. -/
lemma find_range_eq_findIdx (l : List α) (p : α → Bool) (q : Nat → Bool)
    (h : ∀ i a, l[i]? = some a → q i = p a) : (List.range l.length).find? q = l.findIdx? p := by
  cases hf : l.findIdx? p with
  | none =>
    rw [find?_range_eq_none]
    intro i hi
    rw [findIdx?_eq_none_iff] at hf
    rw [h i l[i] (getElem?_eq_getElem hi), hf _ (getElem_mem hi)]
    rfl
  | some i =>
    obtain ⟨hi, hp, hlt⟩ := findIdx?_eq_some_iff_getElem.mp hf
    rw [find?_range_eq_some]
    refine ⟨?_, mem_range.mpr hi, ?_⟩
    · rw [h i l[i] (getElem?_eq_getElem hi), hp]
    · intro j hj
      rw [h j l[j] (getElem?_eq_getElem (by omega))]
      simpa using hlt j hj

end Index

end FastAdHunter.Lib
