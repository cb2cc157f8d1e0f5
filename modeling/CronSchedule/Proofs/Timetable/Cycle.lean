import CronSchedule.Proofs.Calendar.Years
import CronSchedule.Proofs.Fields
import CronSchedule.Proofs.Timetable.Sound
import Mathlib.Tactic.ByContra

/-!
# Fire times come round

A field tells apart only the month, the day and the weekday of a date and the number on the clock.
So a schedule that admits every year fires at the same dates in all years in which the month lies
alike.

* `Expr.admitsMonthDay_year`, `Expr.admitsWeekday_year`: a day field asks the same of a date in
  years in which its month lies alike.
* `Timetable.fires_inYear`: a schedule fires at a fire time moved to such a year if it admits the
  year.
* `Timetable.exists_fires_within`: **a schedule that fires at all fires within any forty years that
  it admits.**
-/

namespace CronSchedule

variable {y y' month : Int}

namespace Expr

theorem isNearestWorkday_year (h : SameMonth y y' month) (day n : Int) :
    isNearestWorkday ⟨y, month, day⟩ n = isNearestWorkday ⟨y', month, day⟩ n := by
  unfold isNearestWorkday
  rw [h.length, h.nearestWorkday_eq]

mutual

/-- An expression of the day of the month asks for the length of the month and its working days. -/
theorem admitsMonthDay_year (h : SameMonth y y' month) (r : FieldRule) (day : Int) :
    ∀ e, admitsMonthDay r ⟨y, month, day⟩ e = admitsMonthDay r ⟨y', month, day⟩ e
  | .last none | .lastOffset _ => by rw [admitsMonthDay, admitsMonthDay, h.length]
  | .nearestWeekday none => by rw [admitsMonthDay, admitsMonthDay, h.lastWorkday_eq]
  | .nearestWeekday (some n) => isNearestWorkday_year h day n
  | .list es => by
    rw [admitsMonthDay, admitsMonthDay, anyAdmitsMonthDay_year h r day es]
  | .always | .question | .on _ _ | .between _ _ | .every _ _ | .last (some _) => rfl

theorem anyAdmitsMonthDay_year (h : SameMonth y y' month) (r : FieldRule) (day : Int) :
    ∀ es, anyAdmitsMonthDay r ⟨y, month, day⟩ es = anyAdmitsMonthDay r ⟨y', month, day⟩ es
  | [] => rfl
  | e :: es => by
    rw [anyAdmitsMonthDay, anyAdmitsMonthDay, admitsMonthDay_year h r day e,
      anyAdmitsMonthDay_year h r day es]

end

mutual

/-- An expression of the day of the week asks for the weekday and the length of the month. -/
theorem admitsWeekday_year (h : SameMonth y y' month) (r : FieldRule) (day : Int) :
    ∀ e, admitsWeekday r ⟨y, month, day⟩ e = admitsWeekday r ⟨y', month, day⟩ e
  | .on w (some n) => by rw [admitsWeekday, admitsWeekday, h.weekday_eq]
  | .last none => by rw [admitsWeekday, admitsWeekday, h.weekday_eq]
  | .last (some w) => by rw [admitsWeekday, admitsWeekday, h.weekday_eq, h.length]
  | .list es => by rw [admitsWeekday, admitsWeekday, anyAdmitsWeekday_year h r day es]
  | .always | .question | .on _ none | .between _ _ | .every _ _ | .lastOffset _
  | .nearestWeekday _ => by simp only [admitsWeekday, h.weekday_eq]

theorem anyAdmitsWeekday_year (h : SameMonth y y' month) (r : FieldRule) (day : Int) :
    ∀ es, anyAdmitsWeekday r ⟨y, month, day⟩ es = anyAdmitsWeekday r ⟨y', month, day⟩ es
  | [] => rfl
  | e :: es => by
    rw [anyAdmitsWeekday, anyAdmitsWeekday, admitsWeekday_year h r day e,
      anyAdmitsWeekday_year h r day es]

end

end Expr

namespace Timetable

open LocalTime

variable {t : Timetable} {x : Int}

theorem admitsMonthOrWeekDay_year (h : SameMonth y y' month) (day : Int) :
    t.admitsMonthOrWeekDay ⟨y, month, day⟩ = t.admitsMonthOrWeekDay ⟨y', month, day⟩ := by
  simp only [admitsMonthOrWeekDay, Expr.admitsMonthDay_year h, Expr.admitsWeekday_year h]

theorem admitsDay_year (h : SameMonth y y' month) (day : Int) :
    t.admitsDay ⟨y, month, day⟩ = t.admitsDay ⟨y', month, day⟩ := by
  simp only [admitsDay, admitsMonthOrWeekDay_year h, h.yearDay_eq]

/-- The schedule puts no restriction on the year. -/
def EveryYear (t : Timetable) : Prop := ∀ year, t.admitsYear year = .ok true

/-- A schedule without a year field admits every year. -/
theorem everyYear_of_expr? (h : t.schedule.expr? .year = none) : t.EveryYear := by
  intro year
  rw [admitsYear, Schedule.ruled?, h]

/-- So does one whose year has every value. -/
theorem everyYear_of_unrestricted
    (h : t.schedule.expr? .year = none ∨ t.schedule.expr? .year = some .always) :
    t.EveryYear := by
  rcases h with h | h
  · exact everyYear_of_expr? h
  intro year
  obtain ⟨d, hd⟩ := Schedule.exists_field?_of_mem (Schedule.mem_fieldNames_of_expr? h)
  rw [admitsYear, Schedule.ruled?, h, hd]
  rfl

/-- A schedule of one of the four dialects admits all years before 1970 or none of them. -/
theorem admitsYear_of_lt (hD : t.schedule.definition ∈ Dialect.all)
    (hv : t.schedule.validate = .ok ()) (hy : y < 1970) (hy' : y' < 1970) :
    t.admitsYear y = t.admitsYear y' := by
  rw [admitsYear, admitsYear]
  cases hr : t.schedule.ruled? .year with
  | none => rfl
  | some p =>
    obtain ⟨e, r⟩ := p
    obtain ⟨d, hd, hname, rfl, hc⟩ := Schedule.check_of_ruled? hv hr
    have hbounds := Dialect.rule_bounds _ hD d hd (1970, 2099) (by rw [hname]; rfl)
    simp only at hbounds
    exact Expr.admits_of_lt (Dialect.strict_year _ hD d hd hname) (by omega) (by omega) (by omega) hc

/-- The year of a fire time is one that the schedule admits. -/
theorem admitsYear_of_fires (hf : t.fires x = .ok true) : t.admitsYear (date x).year = .ok true := by
  rw [fires] at hf
  cases hyear : t.admitsYear (date x).year with
  | error e => simp [hyear, bind, Except.bind] at hf
  | ok b =>
    cases b with
    | true => rfl
    | false => simp [hyear, bind, Except.bind, pure, Except.pure] at hf

/-- Moved to an admitted year in which its month lies alike, a fire time stays one. -/
theorem fires_inYear (hy : t.admitsYear y = .ok true)
    (h : SameMonth (date x).year y (date x).month) (hf : t.fires x = .ok true) :
    t.fires (inYear x y) = .ok true := by
  obtain ⟨hhour, hminute, hsecond, -⟩ := clock_inYear x y
  have hday := admitsDay_year (t := t) h (date x).day
  rw [fires, admitsYear_of_fires hf] at hf
  rw [fires, date_inYear h, hhour, hminute, hsecond, ← hday, hy]
  exact hf

/-- **A schedule that fires at all fires within any forty years that it admits.** -/
theorem exists_fires_within {year : Int} (ht : ∀ y, year < y → y ≤ year + 40 →
    t.admitsYear y = .ok true) (hm : micros x = 0) (hf : t.fires x = .ok true) :
    ∃ x', micros x' = 0 ∧ t.fires x' = .ok true ∧
      year < (date x').year ∧ (date x').year ≤ year + 40 := by
  obtain ⟨y, hlt, hle, hlike⟩ := exists_sameCalendar (date x).year year
  have hmonth := hlike.sameMonth (date x).month
  refine ⟨inYear x y, ?_, fires_inYear (ht y hlt hle) hmonth hf, ?_, ?_⟩
  · rw [(clock_inYear x y).2.2.2, hm]
  · rw [date_inYear hmonth]
    exact hlt
  · rw [date_inYear hmonth]
    exact hle

/-- A schedule that admits every year fires within any forty years if it fires at all. -/
theorem exists_fires_after (ht : t.EveryYear) (hm : micros x = 0) (hf : t.fires x = .ok true)
    (year : Int) :
    ∃ x', micros x' = 0 ∧ t.fires x' = .ok true ∧
      year < (date x').year ∧ (date x').year ≤ year + 40 :=
  exists_fires_within (fun y _ _ => ht y) hm hf

/-- So it does after the start of the first of these years. A fire time in January comes round
earlier than one that may depend on the length of the year. -/
theorem exists_fires_after_start (ht : t.EveryYear) (hm : micros x = 0)
    (hf : t.fires x = .ok true) (year : Int) :
    ∃ x', micros x' = 0 ∧ t.fires x' = .ok true ∧
      startOfYear (year + 1) < x' ∧ (date x').year ≤ year + 40 := by
  obtain ⟨x', hm', hf', hlt, hle⟩ := exists_fires_after ht hm hf year
  have hstart : startOfYear (year + 1) ≤ x' := by
    by_contra hbefore
    have hyear := year_lt_iff.2 (Int.not_le.1 hbefore)
    omega
  rcases Int.lt_or_eq_of_le hstart with hafter | heq
  · exact ⟨x', hm', hf', hafter, hle⟩
  have hdate : date x' = ⟨year + 1, 1, 1⟩ := by
    rw [← heq]
    exact date_startOfYear (year + 1)
  obtain ⟨y, hy, hy', hlike⟩ := exists_sameStart (year + 1)
  have hmonth : SameMonth (date x').year y (date x').month := by
    rw [hdate]
    exact sameMonth_january hlike
  have hyear : (date (inYear x' y)).year = y := by
    rw [date_inYear hmonth]
  refine ⟨inYear x' y, ?_, ?_, ?_, by omega⟩
  · rw [(clock_inYear x' y).2.2.2, hm']
  · exact fires_inYear (ht y) hmonth hf'
  · by_contra hnot
    have hmono := year_mono (Int.not_lt.1 hnot)
    rw [heq, hyear, hdate] at hmono
    simp only at hmono
    omega

end Timetable

end CronSchedule
