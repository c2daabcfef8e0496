import FastAdHunter.Config.Calendar
import FastAdHunter.Lib.Alternation
import FastAdHunter.Lib.Lines
import FastAdHunter.Net.Text

/-!
# Timezones

A timezone is written as POSIX writes it: a name and an offset west of Greenwich,
and for daylight saving a second name and the rules of its start and its end, each
the nth weekday of a month at a time of day. The time of the start is read in
standard time, that of the end in daylight saving time. The offset at an instant is
decided by the two transitions of one year, the year that standard time is in.

Instants and offsets are integers.
-/

namespace FastAdHunter.Config

open Lib Net List

/-- The `week`-th `weekday` of a month, at so many seconds after midnight. -/
structure Transition where
  month : Nat
  week : Nat
  weekday : Nat
  seconds : Int
  date_range : (1 ≤ month ∧ month ≤ 12) ∧ (1 ≤ week ∧ week ≤ 5) ∧ weekday ≤ 6
  time_range : 0 ≤ seconds ∧ seconds < 86400
  deriving DecidableEq

/-- Seconds east of Greenwich, as they can be written. -/
abbrev Offset := { n : Int // -89999 ≤ n ∧ n ≤ 89999 }

/-- Daylight saving; its offset may be one hour more than can be written. -/
structure Dst where
  offset : Int
  start : Transition
  stop : Transition
  offset_range : -89999 ≤ offset ∧ offset ≤ 93599
  deriving DecidableEq

structure PosixTz where
  stdOffset : Offset
  dst : Option Dst
  deriving DecidableEq

def backInto (monthLen : Int) : Nat → Int → Int
  | 0, day => day
  | fuel + 1, day => if monthLen ≤ day then backInto monthLen fuel (day - 7) else day

def transitionInstant (rule : Transition) (year offsetBefore : Int) : Int :=
  let first := daysFromCivil year rule.month 1
  let firstWeekday := (first + 4) % 7
  let toFirstMatch := (rule.weekday + 7 - firstWeekday) % 7
  let day := toFirstMatch + ((rule.week : Int) - 1) * 7
  (first + backInto (daysInMonth year rule.month) day.toNat day) * 86400 + rule.seconds - offsetBefore

def PosixTz.offsetAt (tz : PosixTz) (unixSeconds : Int) : Int :=
  match tz.dst with
  | none => tz.stdOffset
  | some dst =>
    let year := (civilFromDays (divFloor (unixSeconds + tz.stdOffset) 86400)).1
    let start := transitionInstant dst.start year tz.stdOffset
    let stop := transitionInstant dst.stop year dst.offset
    let inDst :=
      if start ≤ stop then decide (start ≤ unixSeconds) && decide (unixSeconds < stop)
      else decide (start ≤ unixSeconds) || decide (unixSeconds < stop)
    if inDst then dst.offset else tz.stdOffset

inductive TzError where
  | empty
  | unterminatedName
  | emptyName
  | shortName (found : Bytes)
  | noOffset (found : Bytes)
  | offsetField (digits : Bytes)
  | offsetRange (hours minutes seconds : Nat)
  | noRules (rest : Bytes)
  | oneRule
  | notMonthForm (date : Bytes)
  | noField (date : Bytes) (what : String)
  | trailingFields (date : Bytes)
  | dateRange (date : Bytes)
  | trailingTime (rest : Bytes)
  | timeRange (spec : Bytes)
  deriving DecidableEq

/-- Reading may fail with an error or panic. -/
abbrev TzM := ExceptT TzError Option

/-- The first eight bytes for a message; cutting a character in two panics. -/
def excerpt (s : Bytes) : TzM Bytes :=
  if (s[8]?).any isContinuation then ExceptT.mk none else pure (s.take 8)

def readName (spec : Bytes) : TzM Bytes :=
  match stripPrefix [ch '<'] spec with
  | some rest =>
    match splitOnce (ch '>') rest with
    | none => throw .unterminatedName
    | some ([], _) => throw .emptyName
    | some (_, after) => pure after
  | none =>
    let len := (spec.takeWhile isAsciiAlphabetic).length
    if len < 3 then do
      let found ← excerpt spec
      throw (.shortName found)
    else pure (spec.drop len)

/-- The fields of an offset that are there, and what follows. -/
def readParts : Nat → Bool → Bytes → TzM (List Nat × Bytes)
  | 0, _, rest => pure ([], rest)
  | left + 1, first, rest => do
    let digits := rest.takeWhile isAsciiDigit
    if digits.isEmpty then
      if first then do
        let found ← excerpt rest
        throw (.noOffset found)
      else pure ([], rest)
    else match parseUnsigned (2 ^ 31) digits with
      | none => throw (.offsetField digits)
      | some part =>
        let rest := rest.drop digits.length
        match if left = 0 then none else stripPrefix [ch ':'] rest with
        | none => pure ([part], rest)
        | some after => do
          let (parts, rest) ← readParts left false after
          pure (part :: parts, rest)

def readOffset (spec : Bytes) : TzM (Offset × Bytes) := do
  let (negated, rest) := match spec with
    | 45 :: rest => (true, rest)
    | 43 :: rest => (false, rest)
    | _ => (false, spec)
  let (parts, rest) ← readParts 3 true rest
  let hours := parts.getD 0 0
  let minutes := parts.getD 1 0
  let seconds := parts.getD 2 0
  if h : hours ≤ 24 ∧ minutes ≤ 59 ∧ seconds ≤ 59 then
    let magnitude : Int := hours * 3600 + minutes * 60 + seconds
    pure (⟨if negated then magnitude else -magnitude, by split <;> omega⟩, rest)
  else throw (.offsetRange hours minutes seconds)

def nextField (date : Bytes) (what : String) : List Bytes → TzM (Nat × List Bytes)
  | [] => throw (.noField date what)
  | piece :: pieces =>
    match parseUnsigned 256 piece with
    | some value => pure (value, pieces)
    | none => throw (.noField date what)

def readTime : Option Bytes → TzM Int
  | none => pure 7200
  | some time => do
    let (offset, rest) ← readOffset time
    if rest.isEmpty then pure (-offset.1) else throw (.trailingTime rest)

def parseTransition (spec : Bytes) : TzM Transition := do
  let (date, time) := match splitOnce (ch '/') spec with
    | some (date, time) => (date, some time)
    | none => (spec, none)
  match stripPrefix [ch 'M'] date with
  | none => throw (.notMonthForm date)
  | some fields =>
    let (month, pieces) ← nextField date "month" (splitBy (· == ch '.') fields)
    let (week, pieces) ← nextField date "week" pieces
    let (weekday, pieces) ← nextField date "weekday" pieces
    if pieces.isEmpty then
      if h : (1 ≤ month ∧ month ≤ 12) ∧ (1 ≤ week ∧ week ≤ 5) ∧ weekday ≤ 6 then
        let seconds ← readTime time
        if hs : 0 ≤ seconds ∧ seconds < 86400 then pure ⟨month, week, weekday, seconds, h, hs⟩
        else throw (.timeRange spec)
      else throw (.dateRange date)
    else throw (.trailingFields date)

/-- The offset of daylight saving: its own, or one hour more. -/
def readDstOffset (std : Offset) (rest : Bytes) :
    TzM ({ n : Int // -89999 ≤ n ∧ n ≤ 93599 } × Bytes) :=
  if startsWith [ch ','] rest then pure (⟨std.1 + 3600, by omega⟩, rest)
  else do
    let (offset, rest) ← readOffset rest
    pure (⟨offset.1, by omega⟩, rest)

def parseDst (std : Offset) (rest : Bytes) : TzM Dst := do
  let rest ← readName rest
  let (offset, rest) ← readDstOffset std rest
  match stripPrefix [ch ','] rest with
  | none => throw (.noRules rest)
  | some rules =>
    match splitOnce (ch ',') rules with
    | none => throw .oneRule
    | some (start, stop) => do
      let start ← parseTransition start
      let stop ← parseTransition stop
      pure ⟨offset.1, start, stop, offset.2⟩

def PosixTz.parse (spec : Bytes) : TzM PosixTz := do
  let spec := trim spec
  if spec.isEmpty then throw .empty
  else
    let rest ← readName spec
    let (std, rest) ← if rest.isEmpty then pure (⟨0, by decide⟩, rest) else readOffset rest
    if rest.isEmpty then pure ⟨std, none⟩
    else
      let dst ← parseDst std rest
      pure ⟨std, some dst⟩

section Years

lemma backInto_eq (hlen : 28 ≤ monthLen ∧ monthLen ≤ 31) (hday : 0 ≤ day ∧ day ≤ 34) :
    backInto monthLen day.toNat day = if day < monthLen then day else day - 7 := by
  split
  next hin =>
    cases hfuel : day.toNat with
    | zero => rw [backInto]
    | succ n => rw [backInto, if_neg (by omega)]
  next =>
    obtain ⟨n, hn⟩ : ∃ n, day.toNat = n + 2 := ⟨day.toNat - 2, by omega⟩
    rw [hn, backInto, if_pos (by omega), backInto, if_neg (by omega)]

variable (rule : Transition) (y offset : Int)

/-- Sunday is 0; 1970 started on a Thursday. -/
def weekday (d : Int) : Int := (d + 4) % 7

/-- The day of a transition, from the first of its month on. -/
lemma transitionInstant_day : ∃ day, 0 ≤ day ∧ day < daysInMonth y rule.month ∧
    weekday (daysFromCivil y rule.month 1 + day) = rule.weekday ∧
    (rule.week ≤ 4 → day / 7 = (rule.week : Int) - 1) ∧
    (rule.week = 5 → daysInMonth y rule.month ≤ day + 7) ∧
    transitionInstant rule y offset =
      (daysFromCivil y rule.month 1 + day) * 86400 + rule.seconds - offset := by
  obtain ⟨hmonth, hweek, hweekday⟩ := rule.date_range
  have hlen := daysInMonth_bounds y hmonth
  simp only [transitionInstant, weekday]
  generalize daysFromCivil y rule.month 1 = first, daysInMonth y rule.month = monthLen at hlen ⊢
  rw [backInto_eq hlen (by omega)]
  refine ⟨_, ?_, ?_, ?_, ?_, ?_, rfl⟩
  all_goals split <;> omega

lemma transitionInstant_bounds : ∃ day, 0 ≤ day ∧ day ≤ 30 ∧ transitionInstant rule y offset =
      (daysFromCivil y rule.month 1 + day) * 86400 + rule.seconds - offset := by
  obtain ⟨day, hlow, hhigh, -, -, -, heq⟩ := transitionInstant_day rule y offset
  have := daysInMonth_bounds y rule.date_range.1
  exact ⟨day, hlow, by omega, heq⟩

lemma month_in_year (h : 1 ≤ month ∧ month ≤ 12) :
    daysFromCivil y 1 1 ≤ daysFromCivil y month 1 ∧
      daysFromCivil y month 1 + 31 ≤ daysFromCivil (y + 1) 1 1 := by
  have hlast := marchStart_lt (y - 1)
  rw [daysFromCivil_newYear, daysFromCivil_newYear, daysFromCivil_eq, Int.add_sub_cancel]
  rw [Int.sub_add_cancel] at hlast
  obtain ⟨hlow, hhigh⟩ := h
  interval_cases month <;> norm_num <;> omega

/-- A transition lies in its year, up to the difference of the offsets. -/
lemma transition_in_year (std : Int) :
    daysFromCivil y 1 1 * 86400 - std ≤ transitionInstant rule y offset + (offset - std) ∧
      transitionInstant rule y offset + (offset - std) < daysFromCivil (y + 1) 1 1 * 86400 - std := by
  obtain ⟨day, hlow, hhigh, heq⟩ := transitionInstant_bounds rule y offset
  have hmonth := month_in_year y rule.date_range.1
  have htime := rule.time_range
  omega

/-- The calendar repeats itself after 400 years, on the same weekday. -/
lemma daysFromCivil_period (month : Nat) (day : Int) :
    daysFromCivil (y + 400) month day = daysFromCivil y month day + 146097 := by
  have hperiod : ∀ z, marchStart (z + 400) = marchStart z + 146097 := by
    unfold marchStart
    omega
  rw [daysFromCivil_eq, daysFromCivil_eq]
  split
  · rw [show y + 400 - 1 = y - 1 + 400 by ring, hperiod]
    ring
  · rw [hperiod]
    ring

lemma transitionInstant_period :
    transitionInstant rule (y + 400) offset = transitionInstant rule y offset + 146097 * 86400 := by
  have hlength : daysInMonth (y + 400) rule.month = daysInMonth y rule.month := by
    have hleap : isLeap (y + 400) = isLeap y := by
      unfold isLeap
      rw [show (y + 400) % 4 = y % 4 by omega, show (y + 400) % 100 = y % 100 by omega,
        show (y + 400) % 400 = y % 400 by omega]
    rw [daysInMonth, daysInMonth, hleap]
  simp only [transitionInstant, daysFromCivil_period, hlength]
  rw [show (daysFromCivil y rule.month 1 + 146097 + 4) % 7 = (daysFromCivil y rule.month 1 + 4) % 7
    by omega]
  ring

end Years

section Daylight

variable (tz : PosixTz) (dst : Dst)

/-- The instants of the starts and the ends, and of New Year in standard time. -/
def PosixTz.startAt (y : Int) : Int := transitionInstant dst.start y tz.stdOffset

def Dst.stopAt (y : Int) : Int := transitionInstant dst.stop y dst.offset

def PosixTz.newYear (y : Int) : Int := daysFromCivil y 1 1 * 86400 - tz.stdOffset

/-- The instants whose year in standard time has 32 bits, and the year before too. -/
def PosixTz.InRange (t : Int) : Prop := tz.newYear (-2 ^ 31 + 1) ≤ t ∧ t < tz.newYear (2 ^ 31)

/-- The offset is that of daylight saving exactly when the last transition was a
start. -/
def PosixTz.Decides (t : Int) : Prop :=
  (LastIsStart (tz.startAt dst) dst.stopAt t → tz.offsetAt t = dst.offset) ∧
    (¬ LastIsStart (tz.startAt dst) dst.stopAt t → tz.offsetAt t = tz.stdOffset)

variable {tz dst}

lemma newYear_strictMono : StrictMono tz.newYear := by
  refine strictMono_int_of_lt_succ fun y => ?_
  have h := newYear_lt y
  unfold PosixTz.newYear
  omega

lemma offsetAt_eq (hdst : tz.dst = some dst) (hy : -2 ^ 31 < y ∧ y < 2 ^ 31)
    (hlow : tz.newYear y ≤ t) (hhigh : t < tz.newYear (y + 1)) :
    (InSeason (tz.startAt dst) dst.stopAt y t → tz.offsetAt t = dst.offset) ∧
      (¬ InSeason (tz.startAt dst) dst.stopAt y t → tz.offsetAt t = tz.stdOffset) := by
  have hyear : (civilFromDays (divFloor (t + tz.stdOffset) 86400)).1 = y := by
    unfold PosixTz.newYear at hlow hhigh
    rw [divFloor_day, civilFromDays_year (y := y) (by omega) (by omega), toI32_of_range (by omega)]
  have hseason : InSeason (tz.startAt dst) dst.stopAt y t ↔
      (if tz.startAt dst y ≤ dst.stopAt y
        then decide (tz.startAt dst y ≤ t) && decide (t < dst.stopAt y)
        else decide (tz.startAt dst y ≤ t) || decide (t < dst.stopAt y)) = true := by
    unfold InSeason
    split <;> simp
  simp only [hseason, PosixTz.offsetAt, hdst, hyear]
  exact ⟨fun h => if_pos h, fun h => if_neg h⟩

lemma start_in_year (y : Int) :
    tz.newYear y ≤ tz.startAt dst y ∧ tz.startAt dst y < tz.newYear (y + 1) := by
  have h := transition_in_year dst.start y tz.stdOffset tz.stdOffset
  rwa [Int.sub_self, Int.add_zero] at h

/-- Where two instants around an end are decided right, it is the end of their year. -/
lemma stop_year (hdst : tz.dst = some dst) (halt : Alternate (tz.startAt dst) dst.stopAt)
    (hright : ∀ t, tz.InRange t → tz.Decides dst t) (hz : -2 ^ 31 < z ∧ z < 2 ^ 31)
    (hne : dst.offset ≠ tz.stdOffset) (hlow : tz.newYear z < dst.stopAt y)
    (hhigh : dst.stopAt y < tz.newYear (z + 1)) : y = z := by
  refine year_of_stop halt fun t ht => ?_
  have hyear : tz.newYear z ≤ t ∧ t < tz.newYear (z + 1) := by omega
  have hrange : tz.InRange t :=
    ⟨(newYear_strictMono.monotone (by omega)).trans hyear.1,
      hyear.2.trans_le (newYear_strictMono.monotone (by omega))⟩
  obtain ⟨hin, hout⟩ := offsetAt_eq hdst hz hyear.1 hyear.2
  obtain ⟨hlast, hnot⟩ := hright t hrange
  constructor
  · intro h
    by_contra hl
    exact hne ((hin h).symm.trans (hnot hl))
  · intro h
    by_contra hl
    exact hne ((hlast h).symm.trans (hout hl))

lemma stop_in_year_of_small (hdst : tz.dst = some dst)
    (halt : Alternate (tz.startAt dst) dst.stopAt)
    (hright : ∀ t, tz.InRange t → tz.Decides dst t) (hy : 0 ≤ y ∧ y < 400) :
    tz.newYear y ≤ dst.stopAt y ∧ dst.stopAt y ≤ tz.newYear (y + 1) := by
  have hbounds : tz.newYear y ≤ dst.stopAt y + (dst.offset - tz.stdOffset) ∧
      dst.stopAt y + (dst.offset - tz.stdOffset) < tz.newYear (y + 1) :=
    transition_in_year dst.stop y dst.offset tz.stdOffset
  have hoffset := dst.offset_range
  have hstd := tz.stdOffset.2
  have hlength : ∀ z, tz.newYear z + 365 * 86400 ≤ tz.newYear (z + 1) := by
    intro z
    have := newYear_lt z
    unfold PosixTz.newYear
    omega
  have hlast := hlength (y - 1)
  rw [Int.sub_add_cancel] at hlast
  constructor
  · by_contra hearly
    have heq := stop_year hdst halt hright (y := y) (z := y - 1) (by omega) (by omega) (by omega)
      (by rw [Int.sub_add_cancel]; omega)
    omega
  · by_contra hlate
    have hnext := hlength (y + 1)
    have heq := stop_year hdst halt hright (y := y) (z := y + 1) (by omega) (by omega) (by omega)
    omega

/-- **Daylight saving is decided by the last transition**, at every instant of the
calendar, exactly when every end falls in its own year of standard time, New Year at
its end included. -/
theorem daylight_by_last_transition (hdst : tz.dst = some dst)
    (halt : Alternate (tz.startAt dst) dst.stopAt) :
    (∀ t, tz.InRange t → tz.Decides dst t) ↔
      ∀ y, tz.newYear y ≤ dst.stopAt y ∧ dst.stopAt y ≤ tz.newYear (y + 1) := by
  constructor
  · intro hright y
    have hstop : Function.Periodic (fun y => dst.stopAt y - tz.newYear y) 400 := by
      intro y
      simp only [Dst.stopAt, PosixTz.newYear, transitionInstant_period, daysFromCivil_period]
      ring
    have hyear : Function.Periodic (fun y => tz.newYear (y + 1) - tz.newYear y) 400 := by
      intro y
      simp only [PosixTz.newYear, show y + 400 + 1 = y + 1 + 400 by ring, daysFromCivil_period]
      ring
    have hsmall := stop_in_year_of_small hdst halt hright (y := y % 400) (by omega)
    have hstop' := hstop.int_mul (y / 400) (y % 400)
    have hyear' := hyear.int_mul (y / 400) (y % 400)
    simp only [Int.cast_id, show y % 400 + y / 400 * 400 = y by omega] at hstop' hyear'
    omega
  · rintro hstop t ⟨hlow, hhigh⟩
    obtain ⟨y, hy, hgreatest⟩ := Int.exists_greatest_of_bdd (P := fun y => tz.newYear y ≤ t)
      ⟨2 ^ 31, fun z hz => (newYear_strictMono.lt_iff_lt.mp (hz.trans_lt hhigh)).le⟩ ⟨_, hlow⟩
    have hnext : t < tz.newYear (y + 1) := by
      by_contra hle
      exact absurd (hgreatest (y + 1) (not_lt.mp hle)) (by omega)
    have hrange : -2 ^ 31 < y ∧ y < 2 ^ 31 :=
      ⟨by have := hgreatest _ hlow; omega, newYear_strictMono.lt_iff_lt.mp (hy.trans_lt hhigh)⟩
    have hseason := inSeason_iff newYear_strictMono start_in_year halt hstop hy hnext
    obtain ⟨hin, hout⟩ := offsetAt_eq hdst hrange hy hnext
    exact ⟨fun h => hin (hseason.mpr h), fun h => hout fun h' => h (hseason.mp h')⟩

/-- What a zone's text says, for the samples. -/
def parsed (spec : String) : Option PosixTz :=
  match (PosixTz.parse (lit spec)).run with
  | some (.ok tz) => some tz
  | _ => none

def eetDst : Dst :=
  ⟨10800, ⟨3, 5, 0, 10800, by decide, by decide⟩, ⟨10, 5, 0, 14400, by decide, by decide⟩, by decide⟩

theorem daylight_by_last_transition_eet : ∃ tz,
    parsed "EET-2EEST,M3.5.0/3,M10.5.0/4" = some tz ∧ tz.dst = some eetDst ∧
      ∀ t, tz.InRange t → tz.Decides eetDst t := by
  refine ⟨⟨⟨7200, by decide⟩, some eetDst⟩, by decide +kernel, rfl, ?_⟩
  have hyear : ∀ y, ∃ a b, 0 ≤ a ∧ a ≤ 30 ∧ 0 ≤ b ∧ b ≤ 30 ∧
      transitionInstant eetDst.start y 7200 = (marchStart y + a) * 86400 + 3600 ∧
      eetDst.stopAt y = (marchStart y + 214 + b) * 86400 + 3600 := by
    intro y
    obtain ⟨a, ha, ha', hstart⟩ := transitionInstant_bounds eetDst.start y 7200
    obtain ⟨b, hb, hb', hstop⟩ := transitionInstant_bounds eetDst.stop y 10800
    rw [daysFromCivil_eq] at hstart hstop
    refine ⟨a, b, ha, ha', hb, hb', hstart.trans ?_, hstop.trans ?_⟩ <;> norm_num [eetDst] <;> ring
  refine (daylight_by_last_transition rfl ⟨0, fun y => ?_⟩).mpr fun y => ?_
  · obtain ⟨a, b, ha, ha', hb, hb', hstart, hstop⟩ := hyear y
    obtain ⟨a', -, ha₁, -, -, -, hnext, -⟩ := hyear (y + 1)
    have := marchStart_lt y
    rw [Int.add_zero, PosixTz.startAt, PosixTz.startAt, hstart, hnext, hstop]
    omega
  · obtain ⟨-, b, -, -, hb, hb', -, hstop⟩ := hyear y
    have hlast := marchStart_lt (y - 1)
    rw [Int.sub_add_cancel] at hlast
    rw [PosixTz.newYear, PosixTz.newYear, hstop, daysFromCivil_newYear, daysFromCivil_newYear,
      Int.add_sub_cancel]
    dsimp only
    omega

def newYearDst : Dst :=
  ⟨3600, ⟨10, 1, 0, 7200, by decide, by decide⟩, ⟨1, 1, 0, 0, by decide, by decide⟩, by decide⟩

/-- **Daylight saving around New Year.** The end of 2023 is in the last hour of 2022. -/
theorem daylight_past_stop : ∃ tz,
    parsed "AAA0BBB,M10.1.0,M1.1.0/0" = some tz ∧ tz.dst = some newYearDst ∧
      Alternate (tz.startAt newYearDst) newYearDst.stopAt ∧
      ¬ LastIsStart (tz.startAt newYearDst) newYearDst.stopAt 1672527600 ∧
      tz.offsetAt 1672527600 = 3600 ∧ (tz.stdOffset : Int) = 0 := by
  refine ⟨⟨⟨0, by decide⟩, some newYearDst⟩, by decide +kernel, rfl, ⟨1, fun y => ?_⟩, ?_,
    by decide +kernel, rfl⟩
  · obtain ⟨a, ha, ha', hstart⟩ := transitionInstant_bounds newYearDst.start y 0
    obtain ⟨b, hb, hb', hnext⟩ := transitionInstant_bounds newYearDst.start (y + 1) 0
    obtain ⟨c, hc, hc', hstop⟩ := transitionInstant_bounds newYearDst.stop (y + 1) 3600
    rw [daysFromCivil_eq] at hstart hnext hstop
    norm_num [newYearDst] at hstart hnext hstop
    have := marchStart_lt y
    norm_num [PosixTz.startAt, Dst.stopAt, newYearDst]
    omega
  · rintro ⟨y, hy, hlast⟩
    have hstop : newYearDst.stopAt 2023 = 1672527600 := by decide +kernel
    have := hlast 2023 hstop.le
    omega

end Daylight

/-- It does not panic, and what it reads is as said. -/
def Reads (Q : α → Prop) (x : TzM α) : Prop := ∃ r, x.run = some r ∧ ∀ a, r = .ok a → Q a

lemma Reads.ok (h : Q a) : Reads Q (pure a) :=
  ⟨.ok a, rfl, fun _ heq => Except.ok.inj heq ▸ h⟩

lemma Reads.error (error : TzError) : Reads Q (throw error) :=
  ⟨.error error, rfl, fun _ heq => by cases heq⟩

lemma Reads.bind (hx : Reads Q x) (hf : ∀ a, Q a → Reads Q' (f a)) : Reads Q' (x >>= f) := by
  obtain ⟨r, hr, hQ⟩ := hx
  cases r with
  | error error => exact ⟨.error error, by simp [hr], fun _ heq => by cases heq⟩
  | ok a =>
    obtain ⟨r', hr', hQ'⟩ := hf a (hQ a rfl)
    exact ⟨r', by simp [hr, hr'], hQ'⟩

/-- Sunday is weekday 0. -/
def PosixTz.localTime (tz : PosixTz) (unixSeconds : Int) : Int × Int :=
  let time := unixSeconds + tz.offsetAt unixSeconds
  let days := divFloor time 86400
  let secondsOfDay := time - days * 86400
  ((days + 4) % 7, secondsOfDay / 60)

end FastAdHunter.Config
