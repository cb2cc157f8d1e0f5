/-!
# Dates

The proleptic Gregorian calendar. Days are numbered: day 1 is the first of January of year 1, a
Monday. `Date.toDay` gives the number of a date and `Date.ofDay` the date of a number.

* `daysBeforeYear_succ`: a year has 366 days if it is a leap year and 365 otherwise.
* `daysBeforeYear_yearOfDay_lt_le`: a day comes after the days before its year and not after the
  last day of it.
-/

namespace CronSchedule

/-- Whether a year has a 29th of February. -/
def isLeapYear (year : Int) : Bool := year % 4 == 0 && (year % 100 != 0 || year % 400 == 0)

/-- The number of days in a month of a year. -/
def daysInMonth (year month : Int) : Int :=
  if month = 2 then (if isLeapYear year then 29 else 28)
  else if month = 4 ∨ month = 6 ∨ month = 9 ∨ month = 11 then 30
  else 31

/-- The number of days from the first day of year 1 to the first day of a year. -/
def daysBeforeYear (year : Int) : Int :=
  let past := year - 1
  365 * past + past / 4 - past / 100 + past / 400

/-- The number of days from the first day of a year to the first day of a month. -/
def daysBeforeMonth (year month : Int) : Int :=
  let leap := if isLeapYear year then 1 else 0
  if month ≤ 1 then 0
  else if month = 2 then 31
  else if month = 3 then 59 + leap
  else if month = 4 then 90 + leap
  else if month = 5 then 120 + leap
  else if month = 6 then 151 + leap
  else if month = 7 then 181 + leap
  else if month = 8 then 212 + leap
  else if month = 9 then 243 + leap
  else if month = 10 then 273 + leap
  else if month = 11 then 304 + leap
  else 334 + leap

theorem daysBeforeYear_succ (year : Int) :
    daysBeforeYear (year + 1) = daysBeforeYear year + (if isLeapYear year then 366 else 365) := by
  simp only [daysBeforeYear, isLeapYear, Bool.and_eq_true, Bool.or_eq_true, beq_iff_eq, bne_iff_ne]
  split <;> omega

/-- The year in which a day lies. The days of 400 years are a whole number, so the mean length of a
year gives the year up to one. -/
def yearOfDay (day : Int) : Int :=
  let guess := (day - 1) * 400 / 146097 + 1
  if day ≤ daysBeforeYear guess then guess - 1
  else if daysBeforeYear (guess + 1) < day then guess + 1
  else guess

/-- The month in which a day of a year lies. -/
def monthOfYearDay (year yearDay : Int) : Int :=
  if yearDay ≤ daysBeforeMonth year 2 then 1
  else if yearDay ≤ daysBeforeMonth year 3 then 2
  else if yearDay ≤ daysBeforeMonth year 4 then 3
  else if yearDay ≤ daysBeforeMonth year 5 then 4
  else if yearDay ≤ daysBeforeMonth year 6 then 5
  else if yearDay ≤ daysBeforeMonth year 7 then 6
  else if yearDay ≤ daysBeforeMonth year 8 then 7
  else if yearDay ≤ daysBeforeMonth year 9 then 8
  else if yearDay ≤ daysBeforeMonth year 10 then 9
  else if yearDay ≤ daysBeforeMonth year 11 then 10
  else if yearDay ≤ daysBeforeMonth year 12 then 11
  else 12

/-- A date. -/
structure Date where
  year : Int
  month : Int
  day : Int
deriving DecidableEq, Repr

namespace Date

/-- The day of the year, from 1. -/
def yearDay (d : Date) : Int := daysBeforeMonth d.year d.month + d.day

/-- The number of a date. -/
def toDay (d : Date) : Int := daysBeforeYear d.year + d.yearDay

/-- The date with a number. -/
def ofDay (day : Int) : Date :=
  let year := yearOfDay day
  let yearDay := day - daysBeforeYear year
  let month := monthOfYearDay year yearDay
  ⟨year, month, yearDay - daysBeforeMonth year month⟩

/-- The ISO weekday, from 1 for Monday to 7 for Sunday. -/
def weekday (d : Date) : Int := (d.toDay - 1) % 7 + 1

/-- A date of the calendar: a month of the year and a day of that month. -/
def Valid (d : Date) : Prop :=
  (1 ≤ d.month ∧ d.month ≤ 12) ∧ 1 ≤ d.day ∧ d.day ≤ daysInMonth d.year d.month

instance (d : Date) : Decidable d.Valid := inferInstanceAs (Decidable (_ ∧ _))

/-- A day lies in its year. -/
theorem daysBeforeYear_yearOfDay_lt_le (day : Int) :
    daysBeforeYear (yearOfDay day) < day ∧ day ≤ daysBeforeYear (yearOfDay day + 1) := by
  simp only [yearOfDay]
  split
  · next h => simp only [daysBeforeYear] at h ⊢; omega
  · next h =>
    split
    · next h' => simp only [daysBeforeYear] at h h' ⊢; omega
    · next h' => simp only [daysBeforeYear] at h h' ⊢; omega

example : ofDay 719163 = ⟨1970, 1, 1⟩ ∧ (⟨1970, 1, 1⟩ : Date).toDay = 719163 := by decide

end Date

end CronSchedule
