import Mathlib.Order.SuccPred.Basic
import Mathlib.Order.Interval.Set.Basic
import Mathlib.Tactic

/-!
# Two alternating sequences of instants

Something starts and stops once a year, and the starts and the stops alternate. It
is on when the last instant that has passed is a start. A rule that looks only at
the start and the stop of the current year finds this out exactly when every stop
falls in its own year.
-/

namespace FastAdHunter.Lib

section Alternation

variable (S E : Int → Int)

/-- Between two starts there is one stop; which year it is counted in may differ. -/
def Alternate : Prop := ∃ k, ∀ y, S y < E (y + k) ∧ E (y + k) < S (y + 1)

/-- The latest instant that has passed is a start. -/
def LastIsStart (t : Int) : Prop := ∃ y, S y ≤ t ∧ ∀ z, E z ≤ t → E z < S y

/-- What the start and the stop of one year say. -/
def InSeason (y t : Int) : Prop :=
  if S y ≤ E y then S y ≤ t ∧ t < E y else S y ≤ t ∨ t < E y

variable {S E} {k : Int}

lemma strictMono_stops (h : ∀ y, S y < E (y + k) ∧ E (y + k) < S (y + 1)) : StrictMono E := by
  refine strictMono_int_of_lt_succ fun n => ?_
  have hn := h (n - k)
  have hnext := h (n - k + 1)
  rw [Int.sub_add_cancel] at hn
  rw [show n - k + 1 + k = n + 1 by omega] at hnext
  exact hn.2.trans hnext.1

lemma lastIsStart_iff (h : ∀ y, S y < E (y + k) ∧ E (y + k) < S (y + 1)) :
    LastIsStart S E t ↔ ∃ y, S y ≤ t ∧ t < E (y + k) := by
  constructor
  · rintro ⟨y, hy, hlast⟩
    refine ⟨y, hy, ?_⟩
    by_contra hle
    exact absurd ((h y).1.trans (hlast _ (not_lt.mp hle))) (lt_irrefl _)
  · rintro ⟨y, hy, ht⟩
    refine ⟨y, hy, fun z hz => ?_⟩
    have hlt : z < y + k := (strictMono_stops h).lt_iff_lt.mp (hz.trans_lt ht)
    have hprev := (h (y - 1)).2
    rw [Int.sub_add_cancel] at hprev
    exact ((strictMono_stops h).monotone (by omega)).trans_lt hprev

variable {N : Int → Int} (hN : StrictMono N) (hS : ∀ y, N y ≤ S y ∧ S y < N (y + 1))

include hN hS in
/-- The current year tells, if every stop falls in its own year. -/
lemma inSeason_iff (h : Alternate S E) (hE : ∀ y, N y ≤ E y ∧ E y ≤ N (y + 1))
    (hy : N y ≤ t) (ht : t < N (y + 1)) : InSeason S E y t ↔ LastIsStart S E t := by
  obtain ⟨k, h⟩ := h
  have hlow : y < y + k + 1 :=
    hN.lt_iff_lt.mp ((hS y).1.trans_lt ((h y).1.trans_le (hE (y + k)).2))
  have hhigh : y + k < y + 1 + 1 :=
    hN.lt_iff_lt.mp ((hE (y + k)).1.trans_lt ((h y).2.trans (hS (y + 1)).2))
  rw [lastIsStart_iff h]
  -- the start that is looked for is of this year or, if the stop comes first, of the last one
  have hyear : ∀ w, S w ≤ t → t < E (w + k) → w ≤ y ∧ y < w + k + 1 := by
    intro w hw hstop
    have hle := hN.lt_iff_lt.mp ((hS w).1.trans_lt (hw.trans_lt ht))
    have hge := hN.lt_iff_lt.mp (hy.trans_lt (hstop.trans_le (hE (w + k)).2))
    omega
  obtain rfl | rfl : k = 0 ∨ k = 1 := by omega
  · simp only [Int.add_zero] at h hyear ⊢
    rw [InSeason, if_pos (h y).1.le]
    constructor
    · exact fun hin => ⟨y, hin⟩
    · rintro ⟨w, hw, hstop⟩
      obtain rfl : w = y := by have := hyear w hw hstop; omega
      exact ⟨hw, hstop⟩
  · have hfirst := (h (y - 1)).2
    rw [Int.sub_add_cancel] at hfirst
    rw [InSeason, if_neg (not_le.mpr hfirst)]
    constructor
    · rintro (hin | hin)
      · exact ⟨y, hin, ht.trans_le (hE (y + 1)).1⟩
      · refine ⟨y - 1, ?_, by rwa [Int.sub_add_cancel]⟩
        have hlast := (hS (y - 1)).2
        rw [Int.sub_add_cancel] at hlast
        exact hlast.le.trans hy
    · rintro ⟨w, hw, hstop⟩
      obtain rfl | rfl : w = y ∨ w = y - 1 := by have := hyear w hw hstop; omega
      · exact .inl hw
      · exact .inr (by rwa [Int.sub_add_cancel] at hstop)

/-- A season ends at the stop of its year. -/
lemma InSeason.ends (hbefore : InSeason S E y (t - 1)) (hat : ¬ InSeason S E y t) :
    t = E y := by
  by_cases hfirst : S y ≤ E y
  · simp only [InSeason, if_pos hfirst] at hbefore hat
    omega
  · simp only [InSeason, if_neg hfirst] at hbefore hat
    omega

/-- What the current year tells is right just before a stop and at it only if that is
the stop of the year. -/
lemma year_of_stop (h : Alternate S E)
    (hright : ∀ t, t = E y - 1 ∨ t = E y → (InSeason S E z t ↔ LastIsStart S E t)) : y = z := by
  obtain ⟨k, h⟩ := h
  have hbefore : LastIsStart S E (E y - 1) := by
    have hy := h (y - k)
    rw [Int.sub_add_cancel] at hy
    exact (lastIsStart_iff h).mpr ⟨y - k, by omega, by rw [Int.sub_add_cancel]; omega⟩
  have hat : ¬ LastIsStart S E (E y) := by
    rintro ⟨w, hw, hlast⟩
    exact absurd (hlast y le_rfl) (not_lt.mpr hw)
  have hends := InSeason.ends ((hright _ (.inl rfl)).mpr hbefore) fun hin =>
    hat ((hright _ (.inr rfl)).mp hin)
  exact (strictMono_stops h).injective hends

end Alternation

end FastAdHunter.Lib
