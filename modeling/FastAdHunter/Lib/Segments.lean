import FastAdHunter.Lib.Bytes

/-!
# Text cut at a separator

Cutting a text at one byte turns "ends in a separator and then `d`" into "the
last pieces are the pieces of `d`". A text that was joined from parts is cut
into the pieces of its parts, so such an ending starts either where a part
starts or strictly inside one.
-/

namespace FastAdHunter.Lib

open List

section Cut

variable {p : UInt8 → Bool}

/-- Cutting at one more separator. -/
lemma splitBy_append (s t : Bytes) (hc : p c = true) :
    splitBy p (s ++ c :: t) = splitBy p s ++ splitBy p t := by
  induction s with
  | nil => simp [splitBy, hc]
  | cons b s ih =>
    by_cases hb : p b = true
    · simp [splitBy, hb, ih]
    · cases hs : splitBy p s with
      | nil => exact absurd hs (splitBy_ne_nil p s)
      | cons w ws => simp [splitBy, hb, ih, hs]

lemma splitBy_eq_singleton (h : ∀ b ∈ s, p b = false) : splitBy p s = [s] := by
  induction s with
  | nil => rfl
  | cons b s ih =>
    have hs := ih fun c hc => h c (mem_cons_of_mem b hc)
    simp [splitBy, h b mem_cons_self, hs]

/-- Where the pieces of a text divide, the text does. -/
lemma exists_of_splitBy_eq_append (h : splitBy p s = xs ++ ys) (hx : xs ≠ []) (hy : ys ≠ []) :
    ∃ a c b, s = a ++ c :: b ∧ p c = true ∧ splitBy p a = xs ∧ splitBy p b = ys := by
  induction s generalizing xs with
  | nil =>
    obtain ⟨x, xs, rfl⟩ := exists_cons_of_ne_nil hx
    have htail := (append_eq_nil_iff.mp (List.cons.inj h).2.symm).2
    exact absurd htail hy
  | cons b s ih =>
    obtain ⟨x, xs, rfl⟩ := exists_cons_of_ne_nil hx
    by_cases hb : p b = true
    · rw [splitBy, if_pos hb, cons_append] at h
      obtain ⟨rfl, htail⟩ := List.cons.inj h
      cases xs with
      | nil => exact ⟨[], b, s, rfl, hb, rfl, htail⟩
      | cons x' xs =>
        obtain ⟨a, c, t, rfl, hc, ha, ht⟩ := ih htail (cons_ne_nil x' xs)
        exact ⟨b :: a, c, t, rfl, hc, by rw [splitBy, if_pos hb, ha], ht⟩
    · cases hs : splitBy p s with
      | nil => exact absurd hs (splitBy_ne_nil p s)
      | cons w ws =>
        rw [splitBy, if_neg hb, hs, cons_append] at h
        obtain ⟨rfl, htail⟩ := List.cons.inj h
        have hsplit : splitBy p s = (w :: xs) ++ ys := by rw [hs, htail]; rfl
        obtain ⟨a, c, t, rfl, hc, ha, ht⟩ := ih hsplit (cons_ne_nil w xs)
        exact ⟨b :: a, c, t, rfl, hc, by rw [splitBy, if_neg hb, ha], ht⟩

/-- A byte of a text is a separator or in one of its pieces. -/
lemma mem_splitBy_of_mem (h : b ∈ s) :
    p b = true ∨ ∃ w ∈ splitBy p s, b ∈ w := by
  induction s with
  | nil => cases h
  | cons c s ih =>
    rw [splitBy]
    by_cases hc : p c = true
    · rw [if_pos hc]
      rcases mem_cons.mp h with rfl | hs
      · exact .inl hc
      · rcases ih hs with hb | ⟨w, hw, hb⟩
        · exact .inl hb
        · exact .inr ⟨w, mem_cons_of_mem _ hw, hb⟩
    · rw [if_neg hc]
      cases hpieces : splitBy p s with
      | nil => exact absurd hpieces (splitBy_ne_nil p s)
      | cons w ws =>
        rw [hpieces] at ih
        rcases mem_cons.mp h with rfl | hs
        · exact .inr ⟨_, mem_cons_self, mem_cons_self⟩
        · rcases ih hs with hb | ⟨v, hv, hb⟩
          · exact .inl hb
          · rcases mem_cons.mp hv with rfl | hv
            · exact .inr ⟨_, mem_cons_self, mem_cons_of_mem _ hb⟩
            · exact .inr ⟨v, mem_cons_of_mem _ hv, hb⟩

lemma not_mem_of_mem_splitBy (hc : p c = true) (hw : w ∈ splitBy p s) : c ∉ w := by
  obtain ⟨a, t, -, hclean⟩ := split_of_mem_splitBy hw
  intro hmem
  rw [hclean c hmem] at hc
  cases hc

/-- With a single separator the pieces determine the text. -/
lemma splitBy_injective (h : splitBy (· == c) s = splitBy (· == c) t) :
    s = t := by
  induction s generalizing t with
  | nil =>
    cases t with
    | nil => rfl
    | cons b t =>
      exfalso
      by_cases hb : (b == c) = true
      · simp [splitBy, hb] at h
        exact splitBy_ne_nil _ _ h
      · cases ht : splitBy (· == c) t with
        | nil => exact splitBy_ne_nil _ _ ht
        | cons w ws => simp [splitBy, hb, ht] at h
  | cons b s ih =>
    cases t with
    | nil =>
      exfalso
      by_cases hb : (b == c) = true
      · simp [splitBy, hb] at h
        exact splitBy_ne_nil _ _ h
      · cases hs : splitBy (· == c) s with
        | nil => exact splitBy_ne_nil _ _ hs
        | cons w ws => simp [splitBy, hb, hs] at h
    | cons b' t =>
      cases hs : splitBy (· == c) s with
      | nil => exact absurd hs (splitBy_ne_nil _ _)
      | cons w ws =>
        cases ht : splitBy (· == c) t with
        | nil => exact absurd ht (splitBy_ne_nil _ _)
        | cons w' ws' =>
          simp only [splitBy, hs, ht] at h
          by_cases hb : (b == c) = true <;> by_cases hb' : (b' == c) = true
          · rw [if_pos hb, if_pos hb'] at h
            have hst := ih (t := t) (by rw [hs, ht]; exact (List.cons.inj h).2)
            rw [hst, eq_of_beq hb, eq_of_beq hb']
          · rw [if_pos hb, if_neg hb'] at h
            exact absurd (List.cons.inj h).1 (cons_ne_nil _ _).symm
          · rw [if_neg hb, if_pos hb'] at h
            exact absurd (List.cons.inj h).1 (cons_ne_nil _ _)
          · rw [if_neg hb, if_neg hb'] at h
            obtain ⟨hhead, htail⟩ := List.cons.inj h
            obtain ⟨rfl, rfl⟩ := List.cons.inj hhead
            rw [ih (t := t) (by rw [hs, ht, htail])]

lemma suffix_splitBy_iff (c : UInt8) (s d : Bytes) :
    splitBy (· == c) d <:+ splitBy (· == c) s ↔ s = d ∨ ∃ front, s = front ++ c :: d := by
  constructor
  · rintro ⟨xs, h⟩
    by_cases hx : xs = []
    · subst hx
      exact .inl (splitBy_injective h).symm
    · obtain ⟨a, c', b, rfl, hc, -, hb⟩ :=
        exists_of_splitBy_eq_append h.symm hx (splitBy_ne_nil _ _)
      rw [splitBy_injective hb, eq_of_beq hc]
      exact .inr ⟨a, rfl⟩
  · rintro (rfl | ⟨front, rfl⟩)
    · exact suffix_rfl
    · rw [splitBy_append (p := (· == c)) front d (beq_self_eq_true c)]
      exact suffix_append _ _

end Cut

def joinBy (c : UInt8) : List Bytes → Bytes
  | [] => []
  | [part] => part
  | part :: next :: parts => part ++ c :: joinBy c (next :: parts)

/-- A joined text has the pieces of its parts. -/
lemma splitBy_joinBy (c : UInt8) (h : parts ≠ []) :
    splitBy (· == c) (joinBy c parts) = parts.flatMap (splitBy (· == c)) := by
  induction parts with
  | nil => exact absurd rfl h
  | cons part parts ih =>
    cases parts with
    | nil => simp [joinBy]
    | cons next parts =>
      rw [joinBy, splitBy_append (p := (· == c)) _ _ (beq_self_eq_true c), ih (cons_ne_nil _ _)]
      rfl

lemma lower_joinBy (hc : toLower c = c) (parts : List Bytes) :
    lower (joinBy c parts) = joinBy c (parts.map lower) := by
  induction parts with
  | nil => rfl
  | cons part parts ih =>
    cases parts with
    | nil => rfl
    | cons next parts =>
      rw [joinBy, lower_append, lower_cons, hc, ih]
      rfl

/-- The end of a concatenation starts where a member starts, or divides one. -/
lemma suffix_flatMap (f : α → List β) (hd : d ≠ []) (h : d <:+ l.flatMap f) :
    (∃ front rest, l = front ++ rest ∧ d = rest.flatMap f) ∨
      ∃ front a rest x y, l = front ++ a :: rest ∧ f a = x ++ y ∧ x ≠ [] ∧ y ≠ [] ∧
        d = y ++ rest.flatMap f := by
  induction l with
  | nil => exact absurd (suffix_nil.mp h) hd
  | cons a l ih =>
    obtain ⟨z, hz⟩ := h
    rcases append_eq_append_iff.mp hz with ⟨y, hfa, rfl⟩ | ⟨x, -, hlater⟩
    · by_cases hy : y = []
      · subst hy
        exact .inl ⟨[a], l, rfl, rfl⟩
      · by_cases hx : z = []
        · subst hx
          exact .inl ⟨[], a :: l, rfl, by rw [flatMap_cons, hfa]; rfl⟩
        · exact .inr ⟨[], a, l, z, y, rfl, hfa, hx, hy, rfl⟩
    · rcases ih ⟨x, hlater.symm⟩ with
        ⟨front, rest, rfl, hrest⟩ | ⟨front, b, rest, x, y, rfl, hin⟩
      · exact .inl ⟨a :: front, rest, rfl, hrest⟩
      · exact .inr ⟨a :: front, b, rest, x, y, rfl, hin⟩

end FastAdHunter.Lib
