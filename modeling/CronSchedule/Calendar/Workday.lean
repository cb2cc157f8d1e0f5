import CronSchedule.Calendar.Date

/-!
# Working days of a month

The working day, Monday to Friday, that is nearest to a day of the month without leaving the month,
and the last working day of the month.
-/

namespace CronSchedule

/-- The last working day of a month: its last day, or the Friday before it. -/
def lastWorkday (year month : Int) : Int :=
  let final := daysInMonth year month
  let weekday := (Date.mk year month final).weekday
  if weekday = 6 then final - 1 else if weekday = 7 then final - 2 else final

/-- The working day nearest to a day of the month. From a Saturday that is the Friday before, from a
Sunday the Monday after; on the other side where the month ends in between. -/
def nearestWorkday (year month day : Int) : Int :=
  let weekday := (Date.mk year month day).weekday
  if weekday = 6 then (if day = 1 then day + 2 else day - 1)
  else if weekday = 7 then (if daysInMonth year month ≤ day then day - 2 else day + 1)
  else day

end CronSchedule
