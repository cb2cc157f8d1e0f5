import CronSchedule.Calendar.Date
import CronSchedule.TimeError

/-!
# Local times

What a calendar and a clock show together, without a time zone. A local time is an `Int`, the number
of microseconds since the first of January 1970 at midnight on the same clock. So local times are
ordered and moved like numbers, and the date and the numbers on the clock are read off them.

Local times that can be shown lie in the years 1 to 9999.
-/

namespace CronSchedule.LocalTime

/-- The day number of the first of January 1970. -/
def epochDay : Int := 719163

/-- The local time at midnight of a day and so many seconds. -/
def ofDaySeconds (day seconds : Int) : Int := ((day - epochDay) * 86400 + seconds) * 1000000

/-- The local time on a date at a time of the clock. -/
def ofParts (d : Date) (hour minute second : Int) : Int :=
  ofDaySeconds d.toDay (hour * 3600 + minute * 60 + second)

/-- The local time on a date at a time that a clock can show. -/
def ofClock (d : Date) (hour minute second : Int) : Except TimeError Int :=
  if hour < 0 ∨ 23 < hour then .error (.noClockTime .hour)
  else if minute < 0 ∨ 59 < minute then .error (.noClockTime .minute)
  else if second < 0 ∨ 59 < second then .error (.noClockTime .second)
  else .ok (ofParts d hour minute second)

/-- The number of whole seconds since 1970. -/
def seconds (t : Int) : Int := t / 1000000

/-- The date. -/
def date (t : Int) : Date := Date.ofDay (t / 86400000000 + epochDay)

/-- The hour on the clock. -/
def hour (t : Int) : Int := t / 3600000000 % 24

/-- The minute on the clock. -/
def minute (t : Int) : Int := t / 60000000 % 60

/-- The second on the clock. -/
def second (t : Int) : Int := t / 1000000 % 60

/-- The microseconds past the second. -/
def micros (t : Int) : Int := t % 1000000

/-- The same time without the microseconds past the second. -/
def wholeSecond (t : Int) : Int := t - micros t

/-- The first moment of year 1. -/
def first : Int := ofParts ⟨1, 1, 1⟩ 0 0 0

/-- The last microsecond of year 9999. -/
def last : Int := ofParts ⟨9999, 12, 31⟩ 23 59 59 + 999999

/-- Whether a local time lies in the years 1 to 9999. -/
def InRange (t : Int) : Prop := first ≤ t ∧ t ≤ last

instance (t : Int) : Decidable (InRange t) := inferInstanceAs (Decidable (_ ∧ _))

theorem first_eq : first = -62135596800000000 := by decide

theorem last_eq : last = 253402300799999999 := by decide

/-- The clock is read off a local time as it was set. -/
theorem clock_ofParts (d : Date) {h m s : Int} (hh : 0 ≤ h ∧ h < 24) (hm : 0 ≤ m ∧ m < 60)
    (hs : 0 ≤ s ∧ s < 60) :
    hour (ofParts d h m s) = h ∧ minute (ofParts d h m s) = m ∧ second (ofParts d h m s) = s ∧
      micros (ofParts d h m s) = 0 := by
  simp only [hour, minute, second, micros, ofParts, ofDaySeconds, epochDay]
  omega

end CronSchedule.LocalTime
