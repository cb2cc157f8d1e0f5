import CronSchedule.Calendar.Workday
import CronSchedule.Expr.Basic
import CronSchedule.Field.Rule
import CronSchedule.TimeError

/-!
# Which values an expression admits

`Expr.admits` asks whether an expression admits a number of its field; `Expr.admitsMonthDay` and
`Expr.admitsWeekday` ask about a date, for the two day fields that have more to say than numbers.

Steps are counted from the start of their base and not from the time of the question. A range that
ends before it starts runs past the greatest number of the field to its least, and a step over it
counts on across that point.

The questions have no answer for expressions that a field does not allow: a step with period zero
and a weekday nearest to a day below the first.
-/

namespace CronSchedule.Expr

/-- Whether `value` is a whole number of periods away from the start. -/
def onStep (period distance : Int) : Except TimeError Bool :=
  if period = 0 then .error .zeroPeriod else .ok (distance % period == 0)

/-- The range that a step runs over, in a field with numbers from `lo` to `hi`. -/
def stepRange? (lo hi : Int) : Expr → Option (Int × Int)
  | .always => some (lo, hi)
  | .on v _ => some (v, hi)
  | .between s e => some (s, e)
  | _ => none

/-- Whether a step over `base` admits a number, in a field with numbers from `lo` to `hi`. -/
def stepAdmits (lo hi : Int) (base : Expr) (period value : Int) : Except TimeError Bool :=
  match stepRange? lo hi base with
  | none => .ok false
  | some (s, e) =>
    if s ≤ e then
      if s ≤ value ∧ value ≤ e then onStep period (value - s) else .ok false
    else if s ≤ value then onStep period (value - s)
    else if value ≤ e then onStep period (value + (hi - lo + 1) - s)
    else .ok false

mutual

/-- Whether an expression admits a number, in a field with numbers from `lo` to `hi`. -/
def admits (lo hi value : Int) : Expr → Except TimeError Bool
  | .always | .question => .ok true
  | .on v none => .ok (v == value)
  | .between s e =>
    .ok (if s ≤ e then s ≤ value && value ≤ e else s ≤ value || value ≤ e)
  | .every base period => stepAdmits lo hi base period value
  | .list es => anyAdmits lo hi value es
  | .on _ (some _) | .last _ | .lastOffset _ | .nearestWeekday _ => .ok false

/-- Whether one of several expressions admits a number. -/
def anyAdmits (lo hi value : Int) : List Expr → Except TimeError Bool
  | [] => .ok false
  | e :: es => do
    if ← admits lo hi value e then return true else anyAdmits lo hi value es

end

/-- Whether an expression of a field admits a number. -/
def admitsIn (r : FieldRule) (value : Int) (e : Expr) : Except TimeError Bool :=
  admits r.min r.max value e

/-- Whether the working day nearest to a day of the month is the date. -/
def isNearestWorkday (d : Date) (day : Int) : Except TimeError Bool :=
  if daysInMonth d.year d.month < day then .ok false
  else if day < 1 then .error .dateRange
  else .ok (nearestWorkday d.year d.month day == d.day)

mutual

/-- Whether an expression of the day of the month admits a date. -/
def admitsMonthDay (r : FieldRule) (d : Date) : Expr → Except TimeError Bool
  | .last none => .ok (d.day == daysInMonth d.year d.month)
  | .lastOffset n => .ok (d.day == daysInMonth d.year d.month - n)
  | .nearestWeekday none => .ok (d.day == lastWorkday d.year d.month)
  | .nearestWeekday (some day) => isNearestWorkday d day
  | .list es => anyAdmitsMonthDay r d es
  | e => admitsIn r d.day e

/-- Whether one of several expressions of the day of the month admits a date. -/
def anyAdmitsMonthDay (r : FieldRule) (d : Date) : List Expr → Except TimeError Bool
  | [] => .ok false
  | e :: es => do
    if ← admitsMonthDay r d e then return true else anyAdmitsMonthDay r d es

end

mutual

/-- Whether an expression of the day of the week admits a date. A bare `L` is the last day of the
week, Saturday. -/
def admitsWeekday (r : FieldRule) (d : Date) : Expr → Except TimeError Bool
  | .on w (some n) => .ok (r.normalize w == r.ofIso d.weekday && (d.day - 1) / 7 + 1 == n)
  | .last none => .ok (d.weekday == 6)
  | .last (some w) =>
    .ok (r.normalize w == r.ofIso d.weekday && daysInMonth d.year d.month < d.day + 7)
  | .list es => anyAdmitsWeekday r d es
  | e => (r.numerals (r.ofIso d.weekday)).anyM fun v => admitsIn r v e

/-- Whether one of several expressions of the day of the week admits a date. -/
def anyAdmitsWeekday (r : FieldRule) (d : Date) : List Expr → Except TimeError Bool
  | [] => .ok false
  | e :: es => do
    if ← admitsWeekday r d e then return true else anyAdmitsWeekday r d es

end

end CronSchedule.Expr
