import CronSchedule.Missing
import CronSchedule.Text.Decimal

/-!
# Why a question about fire times has no answer

A validated schedule of one of the four dialects meets none of these except at the ends of the
calendar. The others come from expressions that were not checked, from fields whose range is not
that of the calendar or the clock, and from arguments that cannot be used.
-/

namespace CronSchedule

/-- The numbers of a clock time. -/
inductive ClockUnit where
  | hour
  | minute
  | second
deriving DecidableEq, Repr

/-- The name of a unit. -/
def ClockUnit.text : ClockUnit → String
  | hour => "hour"
  | minute => "minute"
  | second => "second"

/-- The greatest number of a unit. -/
def ClockUnit.max : ClockUnit → Int
  | hour => 23
  | minute => 59
  | second => 59

/-- Why a question about fire times has no answer. -/
inductive TimeError where
  /-- A date or a time lies outside the years 1 to 9999, or there is no such day. -/
  | dateRange
  /-- A number of a clock time, or the count of a range of numbers, is beyond counting. -/
  | overflow
  /-- A step has the period zero. -/
  | zeroPeriod
  /-- There is no month with that number. -/
  | noMonth (month : Int)
  /-- There is no clock time with such a number. -/
  | noClockTime (unit : ClockUnit)
  /-- The search may not look even one year ahead. -/
  | horizon (maxYears : Int)
  /-- A date and time without an offset, in its written form. -/
  | naive (text : String)
  /-- An argument was left out. -/
  | missing (argument : Missing)
deriving DecidableEq, Repr

/-- The wording of an error; the first three have none. -/
def TimeError.message? : TimeError → Option String
  | dateRange | overflow | zeroPeriod => none
  | noMonth month => "bad month number " ++ Text.int month ++ "; must be 1-12"
  | noClockTime unit => unit.text ++ " must be in 0.." ++ Text.int unit.max
  | horizon maxYears => "max_years should be greater than 0 but was " ++ Text.int maxYears
  | naive text => "datetime must be timezone-aware: " ++ text
  | missing argument => argument.message

end CronSchedule
