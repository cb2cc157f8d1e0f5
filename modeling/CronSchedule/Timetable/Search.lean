import CronSchedule.Timetable.Walk
import CronSchedule.Zone.Moment

/-!
# The next and the last fire time

A schedule fires at the moments that its local times stand for: a repeated time fires in both
passes, and a skipped time at the moment it is pushed to.

`Timetable.next` and `Timetable.last` search for the fire time nearest to a moment on either side.
They walk through the local times and look at the moments each stands for. The order of local times
is that of their moments except around a change of the offset, so the best moment found is kept
until the walk has passed it, or until it is a plain one that nothing later can beat.

`Timetable.isMatch` says whether a moment is a fire time.
-/

namespace CronSchedule

open Moment

namespace Direction

/-- Whether a POSIX time lies strictly on the searched side of another. -/
def eligible (dir : Direction) (posix reference : Int) : Bool := dir.precedes reference posix

/-- Whether a moment is nearer to the reference than another on the searched side. -/
def closer (dir : Direction) (a b : Moment) : Bool := dir.precedes a.posix b.posix

/-- The moments of a local time in the order in which a search meets them. -/
def arrange (dir : Direction) (moments : List Moment) : List Moment :=
  match dir with
  | forward => moments
  | backward => moments.reverse

/-- Takes a moment if it is nearer than the best so far. Its flag goes with it. -/
def improve (dir : Direction) (best : Option Moment × Bool) (next : Moment × Bool) :
    Option Moment × Bool :=
  match best.1 with
  | none => (some next.1, next.2)
  | some b => if dir.closer next.1 b then (some next.1, next.2) else best

end Direction

namespace Timetable

/-- Marks the first of the moments of a local time. -/
def markFirst : List Moment → List (Moment × Bool)
  | [] => []
  | m :: ms => (m, true) :: ms.map fun m => (m, false)

/-- Looks at a local time of the walk and keeps the best moment so far. The search is over when the
walk has passed the best moment without finding a better one, or when the best moment is the first
that this local time stands for and shows this very time. -/
def consider (dir : Direction) (zone : Zone) (reference : Int) (best : Option Moment) (time : Int) :
    Except (Halt Moment) (Option Moment) := do
  let moments ← orFail (instantsOf zone time)
  let marked := markFirst (dir.arrange moments)
  let candidates := marked.filter fun p => dir.eligible p.1.posix reference
  match best with
  | none => pure ()
  | some b =>
    if !dir.precedes time b.time && !candidates.any (fun p => dir.closer p.1 b) then throw (.done b)
  match candidates.foldl dir.improve (best, false) with
  | (some m, true) => if m.time = time then throw (.done m) else return some m
  | (best, _) => return best

/-- The local time from which a search walks. In a repeated hour the other pass of times on the
wrong side can still lie on the right side, and so can times that a recent jump skipped; the walk
starts early enough to meet them. -/
def searchStart (dir : Direction) (m : Moment) : Except TimeError Int := do
  let start := LocalTime.wholeSecond m.time
  match ← instantsOf m.zone start, dir with
  | [first, second], .forward =>
    if m.posix < second.posix then inRange (start - (first.offset - second.offset) * 1000000)
    else return start
  | [first, second], .backward =>
    if first.posix < m.posix then inRange (start + (first.offset - second.offset) * 1000000)
    else return start
  | _, .forward => do inRange (start - (← m.forwardJump) * 1000000)
  | _, .backward => return start

/-- The fire time nearest to a moment and strictly on the searched side of it. -/
def search (t : Timetable) (dir : Direction) (m : Moment) : Except TimeError (Option Moment) := do
  let start ← searchStart dir m
  match t.walk dir start (consider dir m.zone m.posix) none with
  | .ok best => return best
  | .error (.done best) => return some best
  | .error (.failed e) => throw e

/-- The first fire time after a moment. -/
def next (t : Timetable) (m : Moment) : Except TimeError (Option Moment) := t.search .forward m

/-- The last fire time before a moment. -/
def last (t : Timetable) (m : Moment) : Except TimeError (Option Moment) := t.search .backward m

/-- Whether a moment is a fire time: the schedule fires at its local time, or at a skipped time that
is pushed to it. -/
def isMatch (t : Timetable) (m : Moment) : Except TimeError Bool := do
  if LocalTime.micros m.time ≠ 0 then return false
  if ← t.fires m.time then return true
  match ← m.skipped? with
  | none => return false
  | some origin => t.fires origin

/-- The time from a moment to the next fire time, in microseconds. -/
def untilNext (t : Timetable) (m : Moment) : Except TimeError (Option Int) := do
  match ← t.next m with
  | none => return none
  | some n => return some ((← n.utc) - (← m.utc))

/-- The time from the last fire time to a moment, in microseconds. -/
def sinceLast (t : Timetable) (m : Moment) : Except TimeError (Option Int) := do
  match ← t.last m with
  | none => return none
  | some l => return some ((← m.utc) - (← l.utc))

end Timetable

end CronSchedule
