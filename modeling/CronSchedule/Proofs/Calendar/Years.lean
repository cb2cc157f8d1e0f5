import CronSchedule.Calendar.Workday
import CronSchedule.Proofs.Calendar

/-!
# Years with the same calendar

Two years have the same calendar if they start on the same weekday and have the same length. The
fourteen calendars come round in a cycle of 400 years. That of a leap year stays away for forty
years where a century ends without a leap year.

What a date is depends on its month only: how long it is and on which weekday it starts. January is
the same in all years that start on the same weekday.

* `exists_sameCalendar`: **within any forty years there is one with the calendar of a given year.**
* `exists_sameStart`: within twelve years one starts on the same weekday.
* `SameMonth.weekday_eq` and others: what a date is in one year it is in the other.
* `LocalTime.date_inYear`: moved to such a year, a local time keeps its month and its day.
-/

namespace CronSchedule

/-- Years that start on the same weekday and have the same length. -/
def SameCalendar (y y' : Int) : Prop :=
  isLeapYear y = isLeapYear y' ∧ daysBeforeYear y % 7 = daysBeforeYear y' % 7

instance (y y' : Int) : Decidable (SameCalendar y y') := inferInstanceAs (Decidable (_ ∧ _))

variable {y y' y'' month day : Int}

theorem SameCalendar.trans (h : SameCalendar y y') (h' : SameCalendar y' y'') : SameCalendar y y'' :=
  ⟨h.1.trans h'.1, h.2.trans h'.2⟩

/-! ### The cycle of 400 years -/

theorem isLeapYear_add (y k : Int) : isLeapYear (y + 400 * k) = isLeapYear y := by
  unfold isLeapYear
  rw [show (y + 400 * k) % 4 = y % 4 by omega, show (y + 400 * k) % 100 = y % 100 by omega,
    show (y + 400 * k) % 400 = y % 400 by omega]

theorem daysBeforeYear_add (y k : Int) :
    daysBeforeYear (y + 400 * k) = daysBeforeYear y + 146097 * k := by
  simp only [daysBeforeYear]
  omega

/-- The days of 400 years are full weeks. -/
theorem sameCalendar_add (y k : Int) : SameCalendar y (y + 400 * k) := by
  refine ⟨(isLeapYear_add y k).symm, ?_⟩
  rw [daysBeforeYear_add]
  omega

/-- How many years pass until a calendar returns, tried on the years of one cycle. -/
theorem forall_cycle_exists_sameCalendar :
    ∀ r : Fin 400, ∃ gap ∈ [6, 11, 12, 28, 40], SameCalendar (r : Nat) ((r : Nat) + gap) := by
  decide +kernel

/-- A calendar returns within forty years. -/
theorem exists_sameCalendar_after (y : Int) : ∃ y', y < y' ∧ y' ≤ y + 40 ∧ SameCalendar y y' := by
  obtain ⟨gap, hgap, hr⟩ := forall_cycle_exists_sameCalendar ⟨(y % 400).toNat, by omega⟩
  have hy : y = (y % 400).toNat + 400 * (y / 400) := by omega
  refine ⟨y + gap, ?_, ?_, ?_⟩
  · simp only [List.mem_cons, List.not_mem_nil, or_false] at hgap
    omega
  · simp only [List.mem_cons, List.not_mem_nil, or_false] at hgap
    omega
  · have h := sameCalendar_add ((y % 400).toNat + gap) (y / 400)
    rw [show ((y % 400).toNat : Int) + gap + 400 * (y / 400) = y + gap by omega] at h
    have h' := sameCalendar_add (y % 400).toNat (y / 400)
    rw [← hy] at h'
    exact (SameCalendar.trans ⟨h'.1.symm, h'.2.symm⟩ hr).trans h

/-- **Within any forty years there is one with the calendar of a given year.** -/
theorem exists_sameCalendar (y₀ y : Int) : ∃ y', y < y' ∧ y' ≤ y + 40 ∧ SameCalendar y₀ y' := by
  -- from a year of the same calendar up to `y` its returns lead past `y`
  have hfrom : ∀ (n : Nat) (a : Int), a ≤ y → y - a < n → SameCalendar y₀ a →
      ∃ y', y < y' ∧ y' ≤ y + 40 ∧ SameCalendar y₀ y' := by
    intro n
    induction n with
    | zero =>
      intro a _ _
      omega
    | succ n ih =>
      intro a ha hn h
      obtain ⟨b, hab, hb, hlike⟩ := exists_sameCalendar_after a
      by_cases hyb : y < b
      · exact ⟨b, hyb, by omega, h.trans hlike⟩
      · exact ih b (by omega) (by omega) (h.trans hlike)
  refine hfrom 400 (y₀ + 400 * ((y - y₀) / 400)) ?_ ?_ (sameCalendar_add y₀ _)
  · omega
  · omega

/-- How many years pass until a year starts on the same weekday, tried on the years of one cycle. -/
theorem forall_cycle_exists_sameStart :
    ∀ r : Fin 400, ∃ gap ∈ [5, 6, 7, 11, 12],
      daysBeforeYear (r : Nat) % 7 = daysBeforeYear ((r : Nat) + gap) % 7 := by
  decide +kernel

/-- Within twelve years one starts on the same weekday. -/
theorem exists_sameStart (y : Int) :
    ∃ y', y < y' ∧ y' ≤ y + 12 ∧ daysBeforeYear y % 7 = daysBeforeYear y' % 7 := by
  obtain ⟨gap, hgap, hr⟩ := forall_cycle_exists_sameStart ⟨(y % 400).toNat, by omega⟩
  have hy : y = (y % 400).toNat + 400 * (y / 400) := by omega
  have h := daysBeforeYear_add (y % 400).toNat (y / 400)
  have h' := daysBeforeYear_add ((y % 400).toNat + gap) (y / 400)
  rw [← hy] at h
  rw [show ((y % 400).toNat : Int) + gap + 400 * (y / 400) = y + gap by omega] at h'
  simp only [List.mem_cons, List.not_mem_nil, or_false] at hgap
  refine ⟨y + gap, by omega, by omega, ?_⟩
  rw [h, h']
  simp only at hr
  omega

/-! ### Dates in months alike -/

/-- A month that lies alike in two years: it is as long in both, starts on the same day of the year,
and both years start on the same weekday. -/
structure SameMonth (y y' month : Int) : Prop where
  length : daysInMonth y month = daysInMonth y' month
  before : daysBeforeMonth y month = daysBeforeMonth y' month
  start : daysBeforeYear y % 7 = daysBeforeYear y' % 7

/-- In years with the same calendar all months lie alike. -/
theorem SameCalendar.sameMonth (h : SameCalendar y y') (month : Int) : SameMonth y y' month where
  length := by
    unfold daysInMonth
    rw [h.1]
  before := by
    unfold daysBeforeMonth
    rw [h.1]
  start := h.2

/-- January does not depend on the length of the year. -/
theorem sameMonth_january (h : daysBeforeYear y % 7 = daysBeforeYear y' % 7) : SameMonth y y' 1 :=
  ⟨rfl, rfl, h⟩

namespace SameMonth

variable (h : SameMonth y y' month)

include h

theorem yearDay_eq (day : Int) :
    (Date.mk y month day).yearDay = (Date.mk y' month day).yearDay := by
  unfold Date.yearDay
  rw [h.before]

theorem weekday_eq (day : Int) :
    (Date.mk y month day).weekday = (Date.mk y' month day).weekday := by
  have hstart := h.start
  have hday := h.yearDay_eq day
  simp only [Date.weekday, Date.toDay]
  omega

theorem lastWorkday_eq : lastWorkday y month = lastWorkday y' month := by
  unfold lastWorkday
  simp only [h.length, h.weekday_eq]

theorem nearestWorkday_eq (day : Int) :
    nearestWorkday y month day = nearestWorkday y' month day := by
  unfold nearestWorkday
  simp only [h.length, h.weekday_eq]

end SameMonth

/-! ### Local times in months alike -/

namespace LocalTime

/-- The local time as far from the start of another year. -/
def inYear (t year : Int) : Int :=
  t + (daysBeforeYear year - daysBeforeYear (date t).year) * 86400000000

variable {t year : Int}

theorem clock_inYear (t year : Int) :
    hour (inYear t year) = hour t ∧ minute (inYear t year) = minute t ∧
      second (inYear t year) = second t ∧ micros (inYear t year) = micros t := by
  unfold hour minute second micros inYear
  omega

/-- Moved to a year in which its month lies alike, a local time keeps its month and its day. -/
theorem date_inYear (h : SameMonth (date t).year year (date t).month) :
    date (inYear t year) = ⟨year, (date t).month, (date t).day⟩ := by
  have hvalid : Date.Valid ⟨year, (date t).month, (date t).day⟩ := by
    obtain ⟨hmonth, hday, hday'⟩ := valid_date t
    rw [h.length] at hday'
    exact ⟨hmonth, hday, hday'⟩
  have hdays := toDay_date t
  have hday : (Date.mk year (date t).month (date t).day).toDay =
      daysBeforeYear year + (date t).yearDay := by
    rw [Date.toDay, ← h.yearDay_eq]
  rw [Date.toDay] at hdays
  have hn : inYear t year / 86400000000 + epochDay =
      (Date.mk year (date t).month (date t).day).toDay := by
    rw [hday, inYear]
    omega
  rw [date, hn, Date.ofDay_toDay hvalid]

end LocalTime

end CronSchedule
