import CronSchedule.Timetable.Basic

/-!
# The walk through the fire times

`Timetable.walk` visits the local times at which a schedule fires, one by one, from a start on and
in either direction, within the years that a search looks at. It goes down the calendar level by
level, from the years to the seconds. While all levels above agree with the start, a level visits
only the values that do not come before that of the start.

A visit gets the state that the last one left and may end the walk, so that no more of the walk is
worked out than is looked at.
-/

namespace CronSchedule

/-- The direction of a walk or a search. -/
inductive Direction where
  | forward
  | backward
deriving DecidableEq, Repr

namespace Direction

/-- Whether `a` comes strictly before `b` on the way. -/
def precedes (dir : Direction) (a b : Int) : Bool :=
  match dir with
  | forward => a < b
  | backward => b < a

/-- Values in the order of the way, those left out that come before the bound. -/
def select (dir : Direction) (values : List Int) (bound : Option Int) : List Int :=
  let kept := match bound with
    | none => values
    | some b => values.filter fun v => !dir.precedes v b
  match dir with
  | forward => kept
  | backward => kept.reverse

/-- The years of the calendar up to `count` years from a year, in the order of the way. -/
def years (dir : Direction) (year count : Int) : List Int :=
  match dir with
  | forward => intsBetween year (min (year + count) 9999)
  | backward => (intsBetween (max (year - count) 1) year).reverse

end Direction

/-- What calendar and clock show at a whole second. -/
structure Reading where
  date : Date
  hour : Int
  minute : Int
  second : Int
deriving DecidableEq, Repr

/-- What calendar and clock show at a local time. -/
def Reading.ofLocal (time : Int) : Reading :=
  ⟨LocalTime.date time, LocalTime.hour time, LocalTime.minute time, LocalTime.second time⟩

/-- Whether a number fits in a signed word of 32 bits. -/
def fitsWord (n : Int) : Bool := -2147483648 ≤ n && n ≤ 2147483647

/-- The local time of a reading, if there is such a time of the clock. A number that does not fit in
a word is refused before the clock is asked. -/
def Reading.toLocal (r : Reading) : Except TimeError Int :=
  if !(fitsWord r.hour && fitsWord r.minute && fitsWord r.second) then .error .overflow
  else LocalTime.ofClock r.date r.hour r.minute r.second

namespace Timetable

/-- The days of a month that the schedule admits. -/
def days (t : Timetable) (year month : Int) : Except TimeError (List Int) :=
  if month < 1 ∨ 12 < month then .error (.noMonth month)
  else selectM (fun day => t.admitsDay ⟨year, month, day⟩) (intsBetween 1 (daysInMonth year month))

/-- Why a walk ends before its last local time: a visit ended it with a result, or an error. -/
inductive Halt (ρ : Type) where
  | done (result : ρ)
  | failed (error : TimeError)

variable {σ ρ : Type}

/-- Goes on with a value, or ends the walk with an error. -/
def orFail {α : Type} (r : Except TimeError α) : Except (Halt ρ) α := r.mapError .failed

/-- Visits the seconds of a minute. -/
def walkSeconds (t : Timetable) (dir : Direction) (visit : σ → Int → Except (Halt ρ) σ)
    (pin : Option Reading) (date : Date) (hour minute : Int) (s : σ) : Except (Halt ρ) σ :=
  (dir.select t.seconds (pin.map (·.second))).foldlM (fun s second => do
    visit s (← orFail (Reading.mk date hour minute second).toLocal)) s

/-- Visits the minutes of an hour. -/
def walkMinutes (t : Timetable) (dir : Direction) (visit : σ → Int → Except (Halt ρ) σ)
    (pin : Option Reading) (date : Date) (hour : Int) (s : σ) : Except (Halt ρ) σ :=
  (dir.select t.minutes (pin.map (·.minute))).foldlM (fun s minute =>
    walkSeconds t dir visit (pin.filter (·.minute == minute)) date hour minute s) s

/-- Visits the hours of a day. -/
def walkHours (t : Timetable) (dir : Direction) (visit : σ → Int → Except (Halt ρ) σ)
    (pin : Option Reading) (date : Date) (s : σ) : Except (Halt ρ) σ :=
  (dir.select t.hours (pin.map (·.hour))).foldlM (fun s hour =>
    walkMinutes t dir visit (pin.filter (·.hour == hour)) date hour s) s

/-- Visits the days of a month. -/
def walkDays (t : Timetable) (dir : Direction) (visit : σ → Int → Except (Halt ρ) σ)
    (pin : Option Reading) (year month : Int) (s : σ) : Except (Halt ρ) σ := do
  let days ← orFail (t.days year month)
  (dir.select days (pin.map (·.date.day))).foldlM (fun s day =>
    walkHours t dir visit (pin.filter (·.date.day == day)) ⟨year, month, day⟩ s) s

/-- Visits the months of a year. -/
def walkMonths (t : Timetable) (dir : Direction) (visit : σ → Int → Except (Halt ρ) σ)
    (pin : Option Reading) (year : Int) (s : σ) : Except (Halt ρ) σ :=
  (dir.select t.months (pin.map (·.date.month))).foldlM (fun s month =>
    walkDays t dir visit (pin.filter (·.date.month == month)) year month s) s

/-- Visits the fire times from a local time on, that time included. -/
def walk (t : Timetable) (dir : Direction) (start : Int) (visit : σ → Int → Except (Halt ρ) σ)
    (s : σ) : Except (Halt ρ) σ :=
  let pin := Reading.ofLocal start
  (dir.years pin.date.year t.maxYears).foldlM (fun s year => do
    if ← orFail (t.admitsYear year) then
      walkMonths t dir visit ((some pin).filter (·.date.year == year)) year s
    else pure s) s

end Timetable

end CronSchedule
