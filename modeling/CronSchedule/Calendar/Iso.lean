import CronSchedule.Calendar.LocalTime
import CronSchedule.Text.Decimal
import CronSchedule.Text.Pieces

/-!
# Written times

Local times in the form `2024-03-31T02:30:00`, with six decimals after the second if there are
microseconds, and offsets in the form `+01:00`, with seconds if there are any.
-/

namespace CronSchedule.Iso

open Text (padded pieces cut numeral?)

/-- A date in the form `2024-03-31`. -/
def dateChars (d : Date) : List Char :=
  padded 4 d.year.toNat ++ '-' :: padded 2 d.month.toNat ++ '-' :: padded 2 d.day.toNat

/-- A local time, with its microseconds if there are any. -/
def timeChars (t : Int) : List Char :=
  dateChars (LocalTime.date t) ++ 'T' :: padded 2 (LocalTime.hour t).toNat ++
    ':' :: padded 2 (LocalTime.minute t).toNat ++ ':' :: padded 2 (LocalTime.second t).toNat ++
    (if LocalTime.micros t = 0 then [] else '.' :: padded 6 (LocalTime.micros t).toNat)

/-- An offset from UTC, with its seconds if there are any. -/
def offsetChars (offset : Int) : List Char :=
  let n := offset.natAbs
  (if offset < 0 then '-' else '+') :: padded 2 (n / 3600) ++ ':' :: padded 2 (n / 60 % 60) ++
    (if n % 60 = 0 then [] else ':' :: padded 2 (n % 60))

/-- The local time that a text in this form stands for, unless the calendar has no such date or the
clock no such time. A text in another form stands for none. -/
def readTime? (text : List Char) : Option (Except TimeError Int) := do
  let (day, clock) := cut 'T' text
  let [year, month, day] ← (pieces '-' day).mapM numeral? | none
  let (clock, decimals) := cut '.' clock
  let [hour, minute, second] ← (pieces ':' clock).mapM numeral? | none
  let micros ← numeral? ((decimals ++ List.replicate 6 '0').take 6)
  let date : Date := ⟨year, month, day⟩
  return if 1 ≤ year ∧ year ≤ 9999 ∧ date.Valid then
      (LocalTime.ofClock date hour minute second).map (· + (micros : Int))
    else .error .dateRange

end CronSchedule.Iso
