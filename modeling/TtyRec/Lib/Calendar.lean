import Mathlib.Data.Int.Notation
import Mathlib.Logic.Function.Basic

/-!
# Calendar time

Seconds since the epoch as a date and a time of the day of the Gregorian calendar, and back.
The days are counted in eras of 400 years, whose years begin in March.

## Main definitions

* `Tm` — the fields.
* `gmtime`, `timegm` — the conversions.
* `Tm.Before` — the order of the fields.

## Main results

* `timegm_gmtime`, `gmtime_injective` — nothing is lost.
* `gmtime_nonneg` — from 1969 on no field is negative.
* `gmtime_before` — the fields of times are in the order of the times.
-/

namespace Calendar

/-- A date and a time of the day; the year counts from 1900, and the month from 0. -/
@[ext]
structure Tm where
  year : ℤ
  mon : ℤ
  mday : ℤ
  hour : ℤ
  min : ℤ
  sec : ℤ
  deriving DecidableEq, Repr

/-- A day of an era: the century, the leap cycle and the year in it, and the day of the year.
The last century and the last year of a cycle are a day longer. -/
structure EraDay where
  century : ℤ
  cycle : ℤ
  year : ℤ
  day : ℤ

def eraDay (doe : ℤ) : EraDay :=
  let century := min (doe / 36524) 3
  let cycle := (doe - century * 36524) / 1461
  let year := min ((doe - century * 36524 - cycle * 1461) / 365) 3
  ⟨century, cycle, year, doe - century * 36524 - cycle * 1461 - year * 365⟩

/-- The month, March being 0. -/
def EraDay.month (d : EraDay) : ℤ := (5 * d.day + 2) / 153

/-- The calendar year. -/
def EraDay.calendarYear (era : ℤ) (d : EraDay) : ℤ :=
  era * 400 + d.century * 100 + d.cycle * 4 + d.year + if d.month < 10 then 0 else 1

/-- The calendar month, January being 0. -/
def EraDay.calendarMonth (d : EraDay) : ℤ := if d.month < 10 then d.month + 2 else d.month - 10

/-- The day of the month. -/
def EraDay.monthDay (d : EraDay) : ℤ := d.day - (153 * d.month + 2) / 5 + 1

/-- The number of a day, from its date. -/
def dayNumber (year mon mday : ℤ) : ℤ :=
  let month := if 2 ≤ mon then mon - 2 else mon + 10
  let year := if 2 ≤ mon then year else year - 1
  year / 400 * 146097 + (year % 400 * 365 + year % 400 / 4 - year % 400 / 100) +
    ((153 * month + 2) / 5 + mday - 1)

/-- The fields of a second, in the Gregorian calendar and without leap seconds. -/
def gmtime (t : ℤ) : Tm :=
  let days := t / 86400 + 719468
  let d := eraDay (days % 146097)
  { year := d.calendarYear (days / 146097) - 1900
    mon := d.calendarMonth
    mday := d.monthDay
    hour := t % 86400 / 3600
    min := t % 3600 / 60
    sec := t % 60 }

/-- The second of the fields. -/
def timegm (tm : Tm) : ℤ :=
  (dayNumber (tm.year + 1900) tm.mon tm.mday - 719468) * 86400 + tm.hour * 3600 + tm.min * 60 +
    tm.sec

theorem eraDay_range {doe : ℤ} (h : 0 ≤ doe) (h' : doe < 146097) :
    (0 ≤ (eraDay doe).century ∧ (eraDay doe).century ≤ 3) ∧
      (0 ≤ (eraDay doe).cycle ∧ (eraDay doe).cycle ≤ 24) ∧
      (0 ≤ (eraDay doe).year ∧ (eraDay doe).year ≤ 3) ∧
      (0 ≤ (eraDay doe).day ∧ (eraDay doe).day ≤ 365) := by
  unfold eraDay
  dsimp only
  omega

/-- The day of an era, from its parts. -/
theorem eraDay_sum (doe : ℤ) :
    (eraDay doe).century * 36524 + (eraDay doe).cycle * 1461 + (eraDay doe).year * 365 +
      (eraDay doe).day = doe := by
  unfold eraDay
  dsimp only
  omega

theorem month_range {d : EraDay} (h : 0 ≤ d.day) (h' : d.day ≤ 365) :
    0 ≤ d.month ∧ d.month ≤ 11 := by
  unfold EraDay.month
  omega

/-- A year that begins in March, from its parts, and the parts from the year. -/
theorem year_parts (era : ℤ) {d : EraDay} (hcentury : 0 ≤ d.century ∧ d.century ≤ 3)
    (hcycle : 0 ≤ d.cycle ∧ d.cycle ≤ 24) (hyear : 0 ≤ d.year ∧ d.year ≤ 3) {year : ℤ}
    (h : year = era * 400 + d.century * 100 + d.cycle * 4 + d.year) :
    year / 400 = era ∧ year % 400 = d.century * 100 + d.cycle * 4 + d.year ∧
      year % 400 / 4 = d.century * 25 + d.cycle ∧ year % 400 / 100 = d.century := by
  have hdiv : year / 400 = era := by omega
  have hmod : year % 400 = d.century * 100 + d.cycle * 4 + d.year := by omega
  exact ⟨hdiv, hmod, by omega, by omega⟩

theorem dayNumber_eraDay (era : ℤ) {doe : ℤ} (h : 0 ≤ doe) (h' : doe < 146097) :
    dayNumber ((eraDay doe).calendarYear era) (eraDay doe).calendarMonth (eraDay doe).monthDay =
      era * 146097 + doe := by
  obtain ⟨hcentury, hcycle, hyear, hday⟩ := eraDay_range h h'
  have hsum := eraDay_sum doe
  have hmonth := month_range hday.1 hday.2
  generalize eraDay doe = d at *
  unfold dayNumber EraDay.calendarYear EraDay.calendarMonth EraDay.monthDay
  generalize d.month = month at *
  by_cases hm : month < 10
  · simp only [if_pos hm, if_pos (show 2 ≤ month + 2 by omega), Int.add_sub_cancel]
    obtain ⟨hdiv, hmod, h4, h100⟩ := year_parts era hcentury hcycle hyear (Int.add_zero _)
    rw [h4, h100, hdiv, hmod]
    omega
  · simp only [if_neg hm, if_neg (show ¬ 2 ≤ month - 10 by omega), Int.sub_add_cancel]
    obtain ⟨hdiv, hmod, h4, h100⟩ := year_parts era hcentury hcycle hyear (Int.add_sub_cancel _ 1)
    rw [h4, h100, hdiv, hmod]
    omega

/-- **Nothing is lost**: the fields of a second give it back. -/
theorem timegm_gmtime (t : ℤ) : timegm (gmtime t) = t := by
  have hdoe := Int.emod_nonneg (t / 86400 + 719468) (show (146097 : ℤ) ≠ 0 by decide)
  have hdoe' := Int.emod_lt_of_pos (t / 86400 + 719468) (show (0 : ℤ) < 146097 by decide)
  have hday := dayNumber_eraDay ((t / 86400 + 719468) / 146097) hdoe hdoe'
  simp only [timegm, gmtime, Int.sub_add_cancel, hday]
  omega

theorem gmtime_injective : Function.Injective gmtime :=
  Function.LeftInverse.injective timegm_gmtime

/-- No field of a time from 1969 on is negative. -/
theorem gmtime_nonneg {t : ℤ} (ht : -86400 ≤ t) :
    0 ≤ (gmtime t).year + 1900 ∧ 0 ≤ (gmtime t).mon ∧ 0 ≤ (gmtime t).mday ∧
      0 ≤ (gmtime t).hour ∧ 0 ≤ (gmtime t).min ∧ 0 ≤ (gmtime t).sec := by
  have hdoe := Int.emod_nonneg (t / 86400 + 719468) (show (146097 : ℤ) ≠ 0 by decide)
  have hdoe' := Int.emod_lt_of_pos (t / 86400 + 719468) (show (0 : ℤ) < 146097 by decide)
  obtain ⟨hcentury, hcycle, hyear, hday⟩ := eraDay_range hdoe hdoe'
  have hmonth := month_range hday.1 hday.2
  unfold gmtime
  dsimp only
  generalize eraDay ((t / 86400 + 719468) % 146097) = d at *
  refine ⟨?_, ?_, ?_, ?_, ?_, ?_⟩
  · unfold EraDay.calendarYear
    split <;> omega
  · unfold EraDay.calendarMonth
    split <;> omega
  · unfold EraDay.monthDay EraDay.month
    omega
  all_goals omega

/-! ### The order of time -/

/-- The first field that differs is smaller. -/
def Tm.Before (tm tm' : Tm) : Prop :=
  tm.year < tm'.year ∨ tm.year = tm'.year ∧ (tm.mon < tm'.mon ∨ tm.mon = tm'.mon ∧
    (tm.mday < tm'.mday ∨ tm.mday = tm'.mday ∧ (tm.hour < tm'.hour ∨ tm.hour = tm'.hour ∧
      (tm.min < tm'.min ∨ tm.min = tm'.min ∧ tm.sec < tm'.sec))))

/-- The parts of the days of an era are in the order of the days. -/
theorem eraDay_lt {doe doe' : ℤ} (h : doe < doe') :
    (eraDay doe).century < (eraDay doe').century ∨
      (eraDay doe).century = (eraDay doe').century ∧ ((eraDay doe).cycle < (eraDay doe').cycle ∨
        (eraDay doe).cycle = (eraDay doe').cycle ∧ ((eraDay doe).year < (eraDay doe').year ∨
          (eraDay doe).year = (eraDay doe').year ∧ (eraDay doe).day < (eraDay doe').day)) := by
  unfold eraDay
  dsimp only
  omega

/-- The dates of days are in the order of the days. -/
theorem date_lt (era era' : ℤ) {doe doe' : ℤ} (hdoe : 0 ≤ doe ∧ doe < 146097)
    (hdoe' : 0 ≤ doe' ∧ doe' < 146097) (h : era < era' ∨ era = era' ∧ doe < doe') :
    (eraDay doe).calendarYear era < (eraDay doe').calendarYear era' ∨
      (eraDay doe).calendarYear era = (eraDay doe').calendarYear era' ∧
        ((eraDay doe).calendarMonth < (eraDay doe').calendarMonth ∨
          (eraDay doe).calendarMonth = (eraDay doe').calendarMonth ∧
            (eraDay doe).monthDay < (eraDay doe').monthDay) := by
  obtain ⟨hcentury, hcycle, hyear, hday⟩ := eraDay_range hdoe.1 hdoe.2
  obtain ⟨hcentury', hcycle', hyear', hday'⟩ := eraDay_range hdoe'.1 hdoe'.2
  have hparts := @eraDay_lt doe doe'
  have hmonth := month_range hday.1 hday.2
  have hmonth' := month_range hday'.1 hday'.2
  generalize eraDay doe = d at *
  generalize eraDay doe' = d' at *
  -- the year that begins in March, and the day of it
  have hmarch : era * 400 + d.century * 100 + d.cycle * 4 + d.year <
        era' * 400 + d'.century * 100 + d'.cycle * 4 + d'.year ∨
      era * 400 + d.century * 100 + d.cycle * 4 + d.year =
        era' * 400 + d'.century * 100 + d'.cycle * 4 + d'.year ∧ d.day < d'.day := by
    rcases h with h | ⟨rfl, h⟩
    · exact .inl (by omega)
    · have := hparts h
      omega
  unfold EraDay.calendarYear EraDay.calendarMonth EraDay.monthDay
  rcases hmarch with hlt | ⟨heq, hlt⟩
  · generalize d.month = m at *
    generalize d'.month = m' at *
    split <;> split <;> omega
  · have hle : d.month ≤ d'.month := by
      unfold EraDay.month
      omega
    generalize d.month = m at *
    generalize d'.month = m' at *
    split <;> split <;> omega

/-- **The fields of times are in the order of the times**: on one day the time of day decides, and
otherwise the date. -/
theorem gmtime_before {t t' : ℤ} (h : t < t') : (gmtime t).Before (gmtime t') := by
  have hpos : (146097 : ℤ) ≠ 0 := by decide
  have hpos' : (0 : ℤ) < 146097 := by decide
  have hdoe := Int.emod_nonneg (t / 86400 + 719468) hpos
  have hdoe₂ := Int.emod_lt_of_pos (t / 86400 + 719468) hpos'
  have hdoe' := Int.emod_nonneg (t' / 86400 + 719468) hpos
  have hdoe₂' := Int.emod_lt_of_pos (t' / 86400 + 719468) hpos'
  unfold Tm.Before gmtime
  dsimp only
  by_cases hday : t / 86400 = t' / 86400
  · rw [hday]
    omega
  · have hdate := date_lt ((t / 86400 + 719468) / 146097) ((t' / 86400 + 719468) / 146097)
      ⟨hdoe, hdoe₂⟩ ⟨hdoe', hdoe₂'⟩ (by omega)
    omega

/-- The range of the fields that have two digits. -/
theorem gmtime_lt (t : ℤ) : (gmtime t).mon + 1 < 100 ∧ (gmtime t).mday < 100 ∧
    (gmtime t).hour < 100 ∧ (gmtime t).min < 100 ∧ (gmtime t).sec < 100 := by
  have hdoe := Int.emod_nonneg (t / 86400 + 719468) (show (146097 : ℤ) ≠ 0 by decide)
  have hdoe' := Int.emod_lt_of_pos (t / 86400 + 719468) (show (0 : ℤ) < 146097 by decide)
  obtain ⟨-, -, -, hday⟩ := eraDay_range hdoe hdoe'
  have hmonth := month_range hday.1 hday.2
  unfold gmtime
  dsimp only
  generalize eraDay ((t / 86400 + 719468) % 146097) = d at *
  refine ⟨?_, ?_, by omega, by omega, by omega⟩
  · unfold EraDay.calendarMonth
    split <;> omega
  · unfold EraDay.monthDay EraDay.month
    omega

/-- The leap day of the year 2000. -/
example : gmtime 951782400 = ⟨100, 1, 29, 0, 0, 0⟩ := by decide

end Calendar
