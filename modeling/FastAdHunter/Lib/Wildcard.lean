import Mathlib.Data.List.Basic
import Mathlib.Tactic

/-!
# Wildcard patterns

A pattern is a list of elements: a wildcard for any run of symbols, or a class
of symbols that takes one symbol; some classes are also content with the end of
the text. `Consumes` gives the meaning, independent of any matching algorithm.

A matcher that remembers only its last wildcard is exact because of one fact: a
stretch without wildcards always takes the same number of symbols, so starting
it earlier leaves at least as much text for the wildcard after it.
-/

namespace FastAdHunter.Lib.Wildcard

open List hiding after next

universe u

variable {β : Type u}

/-- One element of a pattern. -/
inductive Elem (β : Type u) where
  | star
  | one (ok : β → Bool) (orEnd : Bool)

section Meaning

/-- The pattern matches a beginning of the text and leaves the rest. -/
inductive Consumes : List (Elem β) → List β → List β → Prop
  | nil (t : List β) : Consumes [] t t
  | star {p : List (Elem β)} {t t' r : List β} :
      t' <:+ t → Consumes p t' r → Consumes (.star :: p) t r
  | one {ok : β → Bool} {orEnd : Bool} {p : List (Elem β)} {b : β} {t r : List β} :
      ok b = true → Consumes p t r → Consumes (.one ok orEnd :: p) (b :: t) r
  | atEnd {ok : β → Bool} {p : List (Elem β)} {r : List β} :
      Consumes p [] r → Consumes (.one ok true :: p) [] r

/-- The pattern matches at the beginning of the text, or all of it. -/
def Matches (whole : Bool) (p : List (Elem β)) (t : List β) : Prop :=
  ∃ r, Consumes p t r ∧ (whole = true → r = [])

variable {whole : Bool} {p q : List (Elem β)} {t u r : List β}

lemma matches_nil : Matches whole [] t ↔ (whole = true → t = []) := by
  constructor
  · rintro ⟨r, hc, hr⟩
    cases hc
    exact hr
  · intro h
    exact ⟨t, .nil t, h⟩

lemma matches_star_iff : Matches whole (.star :: p) t ↔ ∃ t', t' <:+ t ∧ Matches whole p t' := by
  constructor
  · rintro ⟨r, hc, hr⟩
    cases hc with
    | star ht' hc => exact ⟨_, ht', r, hc, hr⟩
  · rintro ⟨t', ht', r, hc, hr⟩
    exact ⟨r, .star ht' hc, hr⟩

lemma matches_one_cons :
    Matches whole (.one ok orEnd :: p) (b :: t) ↔ ok b = true ∧ Matches whole p t := by
  constructor
  · rintro ⟨r, hc, hr⟩
    cases hc with
    | one hb hc => exact ⟨hb, r, hc, hr⟩
  · rintro ⟨hb, r, hc, hr⟩
    exact ⟨r, .one hb hc, hr⟩

lemma matches_one_nil :
    Matches whole (.one ok orEnd :: p) [] ↔ orEnd = true ∧ Matches whole p [] := by
  constructor
  · rintro ⟨r, hc, hr⟩
    cases hc with
    | atEnd hc => exact ⟨rfl, r, hc, hr⟩
  · rintro ⟨rfl, r, hc, hr⟩
    exact ⟨r, .atEnd hc, hr⟩

/-- A map of the text that no class of the pattern can see changes no match. -/
lemma matches_map (hp : ∀ ok orEnd, Elem.one ok orEnd ∈ p → ∀ b, ok (f b) = ok b) (t : List β) :
    Matches whole p (t.map f) ↔ Matches whole p t := by
  induction p generalizing t with
  | nil => simp [matches_nil]
  | cons e p ih =>
    have ih' := ih fun ok orEnd h => hp ok orEnd (mem_cons_of_mem _ h)
    cases e with
    | star =>
      rw [matches_star_iff, matches_star_iff]
      constructor
      · rintro ⟨u, ⟨front, hu⟩, hm⟩
        obtain ⟨front', s, rfl, -, rfl⟩ := append_eq_map_iff.mp hu
        exact ⟨s, suffix_append front' s, (ih' s).mp hm⟩
      · rintro ⟨s, hs, hm⟩
        exact ⟨s.map f, hs.map f, (ih' s).mpr hm⟩
    | one ok orEnd =>
      cases t with
      | nil => rw [map_nil]
      | cons b t =>
        rw [map_cons, matches_one_cons, matches_one_cons, ih',
          hp ok orEnd mem_cons_self]

lemma Consumes.suffix (h : Consumes p t r) : r <:+ t := by
  induction h with
  | nil t => exact suffix_rfl
  | star ht' _ ih => exact ih.trans ht'
  | one _ _ ih => exact ih.trans (suffix_cons _ _)
  | atEnd _ ih => exact ih

lemma consumes_append : Consumes (p ++ q) t r ↔ ∃ u, Consumes p t u ∧ Consumes q u r := by
  constructor
  · intro h
    induction p generalizing t with
    | nil => exact ⟨t, .nil t, h⟩
    | cons e p ih =>
      cases h with
      | star ht' hc =>
        obtain ⟨u, hp, hq⟩ := ih hc
        exact ⟨u, .star ht' hp, hq⟩
      | one hb hc =>
        obtain ⟨u, hp, hq⟩ := ih hc
        exact ⟨u, .one hb hp, hq⟩
      | atEnd hc =>
        obtain ⟨u, hp, hq⟩ := ih hc
        exact ⟨u, .atEnd hp, hq⟩
  · rintro ⟨u, hp, hq⟩
    induction hp with
    | nil t => exact hq
    | star ht' _ ih => exact .star ht' (ih hq)
    | one hb _ ih => exact .one hb (ih hq)
    | atEnd _ ih => exact .atEnd (ih hq)

end Meaning

section Stretch

/-- No wildcard in this stretch of a pattern. -/
def Starless (p : List (Elem β)) : Prop :=
  ∀ e ∈ p, e ≠ .star

variable {whole : Bool} {p q : List (Elem β)} {t u r : List β}

lemma Consumes.eq_drop (hp : Starless p) (h : Consumes p t r) : r = t.drop p.length := by
  induction h with
  | nil t => rfl
  | star _ _ _ => exact absurd rfl (hp _ mem_cons_self)
  | one _ _ ih => exact ih fun e he => hp e (mem_cons_of_mem _ he)
  | atEnd _ ih =>
    rw [ih fun e he => hp e (mem_cons_of_mem _ he)]
    simp

lemma drop_suffix_drop (h : u <:+ t) (n : Nat) : u.drop n <:+ t.drop n := by
  obtain ⟨front, rfl⟩ := h
  rw [drop_append]
  rcases Nat.le_total n front.length with hn | hn
  · rw [Nat.sub_eq_zero_of_le hn, drop_zero]
    exact (drop_suffix n u).trans (suffix_append _ _)
  · rw [drop_eq_nil_of_le hn, nil_append]
    have : u.drop n = (u.drop (n - front.length)).drop front.length := by
      rw [drop_drop]
      congr 1
      omega
    rw [this]
    exact drop_suffix _ _

/-- What a stretch leaves is less when it starts later. -/
lemma Consumes.suffix_of_later_start (hp : Starless p)
    (h : Consumes p t u) (h' : Consumes p t' u') (hlater : t' <:+ t) : u' <:+ u := by
  rw [h.eq_drop hp, h'.eq_drop hp]
  exact drop_suffix_drop hlater p.length

lemma Matches.of_later_start (hp : Starless p) (h : Consumes p t u)
    (hlater : t' <:+ t) (hm : Matches whole (p ++ .star :: q) t') :
    Matches whole (.star :: q) u := by
  obtain ⟨r, hc, hr⟩ := hm
  obtain ⟨u', hp', hq⟩ := consumes_append.mp hc
  cases hq with
  | star hv hq =>
    exact ⟨r, .star (hv.trans (h.suffix_of_later_start hp hp' hlater)) hq, hr⟩

end Stretch

section Pending

/-- The pattern after the last wildcard, with the text it was last tried at. -/
abbrev Backtrack (β : Type u) := Option (List (Elem β) × List β)

/-- The matcher stands in the stretch after the last wildcard. -/
def Reached (star : Backtrack β) (p : List (Elem β)) (t : List β) : Prop :=
  match star with
  | none => True
  | some (after, tried) => ∃ done, after = done ++ p ∧ Starless done ∧ Consumes done tried t

/-- What is left to decide: the rest of the pattern matches here, or the last
wildcard takes more. -/
def Pending (whole : Bool) (star : Backtrack β) (p : List (Elem β)) (t : List β) : Prop :=
  Matches whole p t ∨
    ∃ after tried, star = some (after, tried) ∧
      ∃ t', t' <:+ tried ∧ t'.length < tried.length ∧ Matches whole after t'

variable {whole : Bool} {star : Backtrack β} {p : List (Elem β)} {t : List β}

lemma pending_congr (h : Matches whole p t ↔ Matches whole p' t') :
    Pending whole star p t ↔ Pending whole star p' t' := by
  rw [Pending, Pending, h]

lemma pending_star (h : Reached star (.star :: p) t) :
    Pending whole star (.star :: p) t ↔ Pending whole (some (p, t)) p t := by
  have hsplit : Matches whole (.star :: p) t ↔ Pending whole (some (p, t)) p t := by
    rw [matches_star_iff, Pending]
    constructor
    · rintro ⟨t', ht', hm⟩
      rcases ht'.length_le.eq_or_lt with heq | hlt
      · rw [ht'.eq_of_length heq] at hm
        exact .inl hm
      · exact .inr ⟨p, t, rfl, t', ht', hlt, hm⟩
    · rintro (hm | ⟨after, tried, heq, t', ht', -, hm⟩)
      · exact ⟨t, suffix_rfl, hm⟩
      · cases heq
        exact ⟨t', ht', hm⟩
  rw [← hsplit]
  constructor
  · rintro (hm | ⟨after, tried, rfl, t', ht', -, hm⟩)
    · exact hm
    · obtain ⟨done, rfl, hdone, hc⟩ := h
      exact Matches.of_later_start hdone hc ht' hm
  · exact .inl

/-- A stuck matcher has only the last wildcard to try. -/
lemma pending_widen (hstuck : ¬ Matches whole p t) :
    Pending whole (some (after, b :: tried)) p t ↔
      Pending whole (some (after, tried)) after tried := by
  constructor
  · rintro (hm | ⟨_, _, heq, t', ht', hlt, hm⟩)
    · exact absurd hm hstuck
    · cases heq
      have hle : t'.length ≤ tried.length := by
        rw [length_cons] at hlt
        omega
      have hsuffix : t' <:+ tried :=
        suffix_of_suffix_length_le ht' (suffix_cons b tried) hle
      rcases hle.eq_or_lt with heq | hlt
      · rw [hsuffix.eq_of_length heq] at hm
        exact .inl hm
      · exact .inr ⟨after, tried, rfl, t', hsuffix, hlt, hm⟩
  · rintro (hm | ⟨_, _, heq, t', ht', hlt, hm⟩)
    · exact .inr ⟨after, b :: tried, rfl, tried, suffix_cons b tried, by simp, hm⟩
    · cases heq
      refine .inr ⟨after, b :: tried, rfl, t', ht'.trans (suffix_cons b tried), ?_, hm⟩
      rw [length_cons]
      omega

/-- Positions that cannot match may be skipped. -/
lemma pending_skip {tried next : List β} (hnext : next <:+ tried)
    (hskip : ∀ t', t' <:+ tried → next.length < t'.length → ¬ Matches whole after t') :
    Pending whole (some (after, tried)) after tried ↔
      Pending whole (some (after, next)) after next := by
  have hall : ∀ v : List β, Pending whole (some (after, v)) after v ↔
      ∃ t', t' <:+ v ∧ Matches whole after t' := by
    intro v
    constructor
    · rintro (hm | ⟨_, _, heq, t', ht', -, hm⟩)
      · exact ⟨v, suffix_rfl, hm⟩
      · cases heq
        exact ⟨t', ht', hm⟩
    · rintro ⟨t', ht', hm⟩
      rcases ht'.length_le.eq_or_lt with heq | hlt
      · rw [ht'.eq_of_length heq] at hm
        exact .inl hm
      · exact .inr ⟨after, v, rfl, t', ht', hlt, hm⟩
  rw [hall, hall]
  constructor
  · rintro ⟨t', ht', hm⟩
    have hle : t'.length ≤ next.length := by
      by_contra hlt
      exact hskip t' ht' (by omega) hm
    exact ⟨t', suffix_of_suffix_length_le ht' hnext hle, hm⟩
  · rintro ⟨t', ht', hm⟩
    exact ⟨t', ht'.trans hnext, hm⟩

end Pending

end FastAdHunter.Lib.Wildcard
