import CronSchedule.Calendar.LocalTime
import CronSchedule.Expr.Admit
import CronSchedule.Refusal
import CronSchedule.Schedule.Basic

/-!
# Timetables

A `Timetable` is a schedule made ready for questions about its fire times: the seconds, minutes,
hours and months that its fields admit, and how many years a search looks ahead or back.

`Timetable.fires` says which local times the schedule fires at. A field that the schedule does not
have admits every year, month and day, and the first hour, minute and second.
-/

namespace CronSchedule

/-- A schedule made ready for questions about its fire times. -/
structure Timetable where
  /-- The schedule. -/
  schedule : Schedule
  /-- How many years a search looks ahead or back. -/
  maxYears : Int
  /-- The seconds of the minute that the schedule admits. -/
  seconds : List Int
  /-- The minutes of the hour. -/
  minutes : List Int
  /-- The hours of the day. -/
  hours : List Int
  /-- The months of the year. -/
  months : List Int

/-- The numbers of a field that an expression admits. -/
def Expr.admittedValues (r : FieldRule) (e : Expr) : Except TimeError (List Int) :=
  selectM (fun v => e.admitsIn r v) r.values

namespace Schedule

/-- The expression of a field and the rule of the dialect for it. -/
def ruled? (s : Schedule) (name : FieldName) : Option (Expr × FieldRule) :=
  match s.expr? name, s.definition.field? name with
  | some e, some d => some (e, d.rule)
  | _, _ => none

/-- The numbers that a field of the schedule admits, or a default where the field is missing. -/
def admittedValues (s : Schedule) (name : FieldName) (default : List Int) :
    Except TimeError (List Int) :=
  match s.ruled? name with
  | none => .ok default
  | some (e, r) => e.admittedValues r

end Schedule

namespace Timetable

/-- The number of years that a search looks ahead unless it is told otherwise. Every schedule that
can fire at all fires within a few years, one for the 29th of February within eight. -/
def defaultYears : Int := 100

/-- The timetable of a schedule, which has not been checked. -/
def ofUnchecked (s : Schedule) (maxYears : Int) : Except TimeError Timetable := do
  if maxYears < 1 then throw (.horizon maxYears)
  let seconds ← s.admittedValues .second [0]
  let minutes ← s.admittedValues .minute [0]
  let hours ← s.admittedValues .hour [0]
  let months ← s.admittedValues .month [1, 2, 3, 4, 5, 6, 7, 8, 9, 10, 11, 12]
  return ⟨s, maxYears, seconds, minutes, hours, months⟩

/-- The timetable of a schedule that keeps every rule. -/
def of? (s : Schedule) (maxYears : Int) : Except Refusal Timetable := do
  s.validate.mapError .fault
  (ofUnchecked s maxYears).mapError .time

/-- Whether the schedule admits a year. -/
def admitsYear (t : Timetable) (year : Int) : Except TimeError Bool :=
  match t.schedule.ruled? .year with
  | none => .ok true
  | some (e, r) => e.admitsIn r year

/-- The expression of a day field and its rule, if it puts a restriction on the day. -/
def restricted? (t : Timetable) (name : FieldName) : Option (Expr × FieldRule) :=
  (t.schedule.ruled? name).filter fun p => !p.1.isUnspecified

/-- Whether the schedule admits a date by its day of the month and its day of the week: where both
are restricted one of them is enough. -/
def admitsMonthOrWeekDay (t : Timetable) (d : Date) : Except TimeError Bool :=
  match t.restricted? .dayOfMonth, t.restricted? .dayOfWeek with
  | some (dom, domRule), some (dow, dowRule) => do
    if ← dom.admitsMonthDay domRule d then return true else dow.admitsWeekday dowRule d
  | some (dom, domRule), none => dom.admitsMonthDay domRule d
  | none, some (dow, dowRule) => dow.admitsWeekday dowRule d
  | none, none => .ok true

/-- Whether the day fields of the schedule admit a date. -/
def admitsDay (t : Timetable) (d : Date) : Except TimeError Bool :=
  match t.restricted? .dayOfYear with
  | none => t.admitsMonthOrWeekDay d
  | some (e, r) => do
    if ← e.admitsIn r d.yearDay then t.admitsMonthOrWeekDay d else return false

/-- Whether the schedule fires at a local time, whose microseconds do not matter. -/
def fires (t : Timetable) (time : Int) : Except TimeError Bool := do
  let date := LocalTime.date time
  if ← t.admitsYear date.year then
    if date.month ∈ t.months ∧ LocalTime.hour time ∈ t.hours ∧ LocalTime.minute time ∈ t.minutes ∧
        LocalTime.second time ∈ t.seconds then
      t.admitsDay date
    else return false
  else return false

end Timetable

end CronSchedule
