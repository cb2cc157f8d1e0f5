import CronSchedule.Timetable.Search

/-!
# Series of fire times

* `Timetable.occurrences` are the first fire times after a moment, one after the other.
* `Timetable.between` are the fire times after one moment and not after another.
* `Schedule.overlap` asks whether two schedules fire together soon after a moment.
-/

namespace CronSchedule

namespace Timetable

/-- The first `n` fire times after a moment; fewer if there are no more. -/
def occurrences (t : Timetable) : Nat → Moment → Except TimeError (List Moment)
  | 0, _ => .ok []
  | n + 1, m => do
    match ← t.next m with
    | none => return []
    | some next => return next :: (← occurrences t n next)

/-- The first `n` fire times after a moment whose UTC time is not after a limit. -/
def occurrencesUntil (t : Timetable) (limit : Int) : Nat → Moment → Except TimeError (List Moment)
  | 0, _ => .ok []
  | n + 1, m => do
    match ← t.next m with
    | none => return []
    | some next =>
      if limit < (← next.utc) then return []
      else return next :: (← occurrencesUntil t limit n next)

/-- The first `n` fire times after a stamp. -/
def occurrencesAfter (t : Timetable) (n : Nat) (start : Option Stamp) :
    Except TimeError (List Moment) :=
  if n = 0 then .ok [] else do t.occurrences n (← Stamp.moment start)

/-- The first `n` fire times after `start` and not after `stop`. -/
def between (t : Timetable) (n : Nat) (start stop : Option Stamp) :
    Except TimeError (List Moment) :=
  if n = 0 then .ok []
  else do
    let limit ← (← Stamp.moment stop).utc
    t.occurrencesUntil limit n (← Stamp.moment start)

/-- Whether another schedule fires at one of the fire times of this one, `n` of them from `m` on. -/
def meets (t other : Timetable) : Nat → Moment → Except TimeError Bool
  | 0, _ => .ok false
  | n + 1, m => do
    if ← other.isMatch m then return true
    match ← t.next m with
    | none => return false
    | some next => meets t other n next

/-- The number of fire times of each schedule that `Schedule.overlap` looks at. -/
def overlapCount : Nat := 10

end Timetable

/-- Whether two schedules fire together soon after a stamp: at one of the next ten fire times of
either. The stamp is not optional here: without one the answer is the error for a missing datetime,
where a caller of the library would have the current time filled in. No clock is modelled. -/
def Schedule.overlap (s other : Schedule) (now : Option Stamp) : Except Refusal Bool := do
  let t ← Timetable.of? s Timetable.defaultYears
  let u ← Timetable.of? other Timetable.defaultYears
  (do
    let m ← Stamp.moment now
    let a ← t.next m
    let b ← u.next m
    match a, b with
    | some a, some b =>
      if ← t.meets u Timetable.overlapCount a then return true
      else u.meets t Timetable.overlapCount b
    | _, _ => return false : Except TimeError Bool).mapError .time

end CronSchedule
