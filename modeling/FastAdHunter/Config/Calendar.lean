import Mathlib

/-!
# The calendar

Days are numbered from 1970 on in two places, by the timezones and by the names of
the history files. Both count in years that start in March, so that the leap day is
the last of its year, and in eras of 400 years.

Years are 32 bits wide where the code casts them; all divisions but that of the floor
and that of the era have a dividend that is not negative.
-/

namespace FastAdHunter.Stats

def civilFromDays (z : Int) : Int × Int × Int :=
  let z := z + 719468
  let era := (if 0 ≤ z then z else z - 146096).tdiv 146097
  let doe := z - era * 146097
  let yoe := (doe - doe / 1460 + doe / 36524 - doe / 146096) / 365
  let y := yoe + era * 400
  let doy := doe - (365 * yoe + yoe / 4 - yoe / 100)
  let mp := (5 * doy + 2) / 153
  let d := doy - (153 * mp + 2) / 5 + 1
  let m := if mp < 10 then mp + 3 else mp - 9
  (if m ≤ 2 then y + 1 else y, m, d)

def daysFromCivil (y : Int) (m : Nat) (d : Int) : Int :=
  let y := if m ≤ 2 then y - 1 else y
  let era := (if 0 ≤ y then y else y - 399).tdiv 400
  let yoe := y - era * 400
  let mp := if 2 < m then (m : Int) - 3 else m + 9
  let doy := (153 * mp + 2) / 5 + d - 1
  let doe := yoe * 365 + yoe / 4 - yoe / 100 + doy
  era * 146097 + doe - 719468

end FastAdHunter.Stats

namespace FastAdHunter.Config

/-- The cast to 32 bits. -/
def toI32 (n : Int) : Int := (n + 2 ^ 31) % 2 ^ 32 - 2 ^ 31

def divFloor (value divisor : Int) : Int :=
  let quotient := value.tdiv divisor
  if value.tmod divisor ≠ 0 ∧ decide (value < 0) ≠ decide (divisor < 0) then quotient - 1
  else quotient

def isLeap (year : Int) : Bool :=
  decide ((year % 4 = 0 ∧ year % 100 ≠ 0) ∨ year % 400 = 0)

def monthLengths : List Int := [31, 28, 31, 30, 31, 30, 31, 31, 30, 31, 30, 31]

def daysInMonth (year : Int) (month : Nat) : Int :=
  if month = 2 ∧ isLeap year then 29 else monthLengths.getD (month - 1) 0

/-- Days since 1970 of a date. -/
def daysFromCivil (year : Int) (month : Nat) (day : Int) : Int :=
  let year := if month ≤ 2 then year - 1 else year
  let era := (if 0 ≤ year then year else year - 399).tdiv 400
  let yearOfEra := year - era * 400
  let dayOfYear := (153 * (if 2 < month then (month : Int) - 3 else month + 9) + 2) / 5 + day - 1
  let dayOfEra := yearOfEra * 365 + yearOfEra / 4 - yearOfEra / 100 + dayOfYear
  era * 146097 + dayOfEra - 719468

def civilFromDays (days : Int) : Int × Int × Int :=
  let days := days + 719468
  let era := (if 0 ≤ days then days else days - 146096).tdiv 146097
  let dayOfEra := days - era * 146097
  let yearOfEra :=
    (dayOfEra - dayOfEra / 1460 + dayOfEra / 36524 - dayOfEra / 146096) / 365
  let year := yearOfEra + era * 400
  let dayOfYear := dayOfEra - (365 * yearOfEra + yearOfEra / 4 - yearOfEra / 100)
  let m := (5 * dayOfYear + 2) / 153
  let day := dayOfYear - (153 * m + 2) / 5 + 1
  let month := if m < 10 then m + 3 else m - 9
  (toI32 (if month ≤ 2 then year + 1 else year), month, day)

lemma toI32_of_range (h : -2 ^ 31 ≤ n ∧ n < 2 ^ 31) : toI32 n = n := by
  unfold toI32
  omega

lemma divFloor_day (value : Int) : divFloor value 86400 = value / 86400 := by
  unfold divFloor
  by_cases h : 0 ≤ value
  · rw [Int.tdiv_eq_ediv_of_nonneg h]
    simp [not_lt.mpr h]
  · obtain ⟨n, rfl⟩ : ∃ n, value = -n := ⟨-value, (neg_neg value).symm⟩
    rw [Int.neg_tdiv, Int.neg_tmod, Int.tdiv_eq_ediv_of_nonneg (by omega),
      Int.tmod_eq_emod_of_nonneg (by omega)]
    split <;> simp_all <;> omega

/-- The floor as the calendar computes it. -/
lemma floor_tdiv (n : Int) (hk : 0 < k) :
    (if 0 ≤ n then n else n - (k - 1)).tdiv k = n / k := by
  split
  next h => exact Int.tdiv_eq_ediv_of_nonneg h
  next h =>
    have hdiv : (k - 1 - n) / k = -(n / k) := by
      have hmod := Int.mul_ediv_add_emod n k
      have hlow := Int.emod_nonneg n hk.ne'
      have hhigh := Int.emod_lt_of_pos n hk
      rw [Int.ediv_eq_iff_of_pos hk]
      constructor <;> nlinarith
    rw [show n - (k - 1) = -(k - 1 - n) by ring, Int.neg_tdiv,
      Int.tdiv_eq_ediv_of_nonneg (by omega), hdiv, neg_neg]

/-- The day a year starts on, if it starts in March. -/
def marchStart (y : Int) : Int := 365 * y + y / 4 - y / 100 + y / 400 - 719468

lemma daysFromCivil_eq (year : Int) (month : Nat) (day : Int) :
    daysFromCivil year month day = marchStart (if month ≤ 2 then year - 1 else year) +
      (153 * (if 2 < month then (month : Int) - 3 else month + 9) + 2) / 5 + day - 1 := by
  have hera := floor_tdiv (if month ≤ 2 then year - 1 else year) (show (0 : Int) < 400 by decide)
  simp only [Int.reduceSub] at hera
  simp only [daysFromCivil, marchStart]
  omega

lemma daysFromCivil_newYear (y : Int) : daysFromCivil y 1 1 = marchStart (y - 1) + 306 := by
  rw [daysFromCivil_eq]
  norm_num

/-- A year of an era from its centuries, its leap periods and the years of the last. -/
lemma yearOfEra_eq {c q s r doe : Int} (hc : 0 ≤ c ∧ c ≤ 3) (hq : 0 ≤ q ∧ q ≤ 24)
    (hs : 0 ≤ s ∧ s ≤ 3) (hr : 0 ≤ r ∧ (r ≤ 364 ∨ (r = 365 ∧ s = 3 ∧ (q < 24 ∨ c = 3))))
    (hd : doe = 36524 * c + 1461 * q + 365 * s + r) :
    (doe - doe / 1460 + doe / 36524 - doe / 146096) / 365 = 100 * c + 4 * q + s := by
  have hcentury : doe / 36524 - doe / 146096 = c := by
    obtain h | ⟨h, hc⟩ : doe - 36524 * c ≤ 36523 ∨ (doe = 146096 ∧ c = 3) := by omega
    · have hdiv : doe / 36524 = c := by omega
      omega
    · omega
  omega

/-- An era is four centuries, a century 25 leap periods. -/
lemma marchStart_eq (hc : 0 ≤ c ∧ c ≤ 3) (hq : 0 ≤ q ∧ q ≤ 24)
    (hs : 0 ≤ s ∧ s ≤ 3) : marchStart (400 * e + 100 * c + 4 * q + s) =
      146097 * e + 36524 * c + 1461 * q + 365 * s - 719468 := by
  have h4 : (400 * e + 100 * c + 4 * q + s) / 4 = 100 * e + 25 * c + q := by omega
  have h100 : (400 * e + 100 * c + 4 * q + s) / 100 = 4 * e + c := by omega
  have h400 : (400 * e + 100 * c + 4 * q + s) / 400 = e := by omega
  rw [marchStart, h4, h100, h400]
  ring

/-- The leap day is the last of a year that starts in March. -/
lemma marchStart_leap (y : Int) :
    marchStart (y + 1) = marchStart y + 365 + if isLeap (y + 1) then 1 else 0 := by
  simp only [isLeap, decide_eq_true_eq, marchStart]
  split <;> omega

/-- The date of a day that lies in this March year. -/
lemma civil_march (hlow : 0 ≤ r) (hhigh : marchStart y + r < marchStart (y + 1)) :
    Stats.civilFromDays (marchStart y + r) = (if r < 306 then y else y + 1,
      if (5 * r + 2) / 153 < 10 then (5 * r + 2) / 153 + 3 else (5 * r + 2) / 153 - 9,
      r - (153 * ((5 * r + 2) / 153) + 2) / 5 + 1) := by
  obtain ⟨e, c, q, s, hc, hq, hs, rfl⟩ : ∃ e c q s, (0 ≤ c ∧ c ≤ 3) ∧ (0 ≤ q ∧ q ≤ 24) ∧
      (0 ≤ s ∧ s ≤ 3) ∧ y = 400 * e + 100 * c + 4 * q + s :=
    ⟨y / 400, y % 400 / 100, y % 100 / 4, y % 4, by omega, by omega, by omega, by omega⟩
  have hr : 0 ≤ r ∧ (r ≤ 364 ∨ (r = 365 ∧ s = 3 ∧ (q < 24 ∨ c = 3))) := by
    simp only [marchStart_leap, isLeap, decide_eq_true_eq] at hhigh
    split at hhigh <;> omega
  rw [marchStart_eq hc hq hs]
  have hyear := yearOfEra_eq hc hq hs hr rfl
  have hera := floor_tdiv (146097 * e + 36524 * c + 1461 * q + 365 * s - 719468 + r + 719468)
    (show (0 : Int) < 146097 by decide)
  have hdiv : (146097 * e + 36524 * c + 1461 * q + 365 * s - 719468 + r + 719468) / 146097 = e := by
    omega
  simp only [Int.reduceSub, hdiv] at hera
  simp only [Stats.civilFromDays, hera]
  rw [show 146097 * e + 36524 * c + 1461 * q + 365 * s - 719468 + r + 719468 - e * 146097 =
    36524 * c + 1461 * q + 365 * s + r by ring, hyear]
  have h4 : (100 * c + 4 * q + s) / 4 = 25 * c + q := by omega
  have h100 : (100 * c + 4 * q + s) / 100 = c := by omega
  rw [h4, h100, show 36524 * c + 1461 * q + 365 * s + r - (365 * (100 * c + 4 * q + s) +
    (25 * c + q) - c) = r by ring]
  refine Prod.ext ?_ rfl
  split <;> split <;> omega

/-- The zones cut the year to 32 bits. -/
lemma civilFromDays_eq (d : Int) : civilFromDays d =
    (toI32 (Stats.civilFromDays d).1, (Stats.civilFromDays d).2) := rfl

lemma marchStart_lt (y : Int) : marchStart y + 365 ≤ marchStart (y + 1) := by
  rw [marchStart_leap]
  split <;> omega

lemma newYear_lt (y : Int) : daysFromCivil y 1 1 + 365 ≤ daysFromCivil (y + 1) 1 1 := by
  have h := marchStart_lt (y - 1)
  rw [daysFromCivil_newYear, daysFromCivil_newYear, Int.add_sub_cancel]
  rw [Int.sub_add_cancel] at h
  omega

/-- The year of a day. -/
lemma civilFromDays_year (hlow : daysFromCivil y 1 1 ≤ d)
    (hhigh : d < daysFromCivil (y + 1) 1 1) : (civilFromDays d).1 = toI32 y := by
  rw [daysFromCivil_newYear] at hlow hhigh
  rw [Int.add_sub_cancel] at hhigh
  have hnext := marchStart_lt y
  by_cases hmarch : d < marchStart y
  · rw [← Int.sub_add_cancel y 1] at hmarch
    obtain ⟨r, rfl⟩ : ∃ r, d = marchStart (y - 1) + r := ⟨_, (add_sub_cancel ..).symm⟩
    rw [civilFromDays_eq, civil_march (by omega) hmarch, if_neg (by omega), Int.sub_add_cancel]
  · obtain ⟨r, rfl⟩ : ∃ r, d = marchStart y + r := ⟨_, (add_sub_cancel ..).symm⟩
    rw [civilFromDays_eq, civil_march (by omega) (by omega), if_pos (by omega)]

lemma daysInMonth_bounds (year : Int) (h : 1 ≤ month ∧ month ≤ 12) :
    28 ≤ daysInMonth year month ∧ daysInMonth year month ≤ 31 := by
  obtain ⟨hlow, hhigh⟩ := h
  unfold daysInMonth
  split
  · omega
  · interval_cases month <;> decide

/-- A date of the Gregorian calendar. -/
structure Date where
  year : Int
  month : Nat
  day : Int
  month_range : 1 ≤ month ∧ month ≤ 12
  day_range : 1 ≤ day ∧ day ≤ daysInMonth year month

namespace Date

def fields (date : Date) : Int × Int × Int := (date.year, date.month, date.day)

def days (date : Date) : Int := daysFromCivil date.year date.month date.day

/-- The years that the zones compute with have 32 bits. -/
def Fits (date : Date) : Prop :=
  toI32 date.year = date.year ∧ (date.month ≤ 2 → toI32 (date.year - 1) = date.year - 1)

end Date

end FastAdHunter.Config
