import CronSchedule.Calendar.Iso
import CronSchedule.TimeError
import CronSchedule.Zone.Basic
import CronSchedule.Zone.Posix

/-!
# Moments

A `Moment` is a local time in a zone, with the fold that tells the two passes of a repeated hour
apart. It stands for one instant.

* `Moment.ofInstant` is the moment at an instant, as the zone's clocks show it.
* `Moment.instantsOf` are the moments that a local time stands for in a zone, earliest first: two in
  a repeated hour, and in a gap the one that the skipped time is pushed to.
* `Moment.skipped?` goes the other way: the skipped time that is pushed to a moment.

Local times and instants are counted in microseconds, but the two differ by whole seconds: moments
at an offset with a fraction of a second are not among these. Instants are compared as POSIX seconds
(`Posix`), which cannot tell all microseconds apart far from 1970. An instant can be shown only if
its UTC time and its local time lie in the years 1 to 9999.
-/

namespace CronSchedule

/-- A local time in a zone. -/
structure Moment where
  /-- The zone. -/
  zone : Zone
  /-- What calendar and clock show. -/
  time : Int
  /-- Whether a repeated time is meant in its second pass. -/
  secondPass : Bool := false
deriving DecidableEq, Repr

namespace Moment

/-- How far back a jump of the clock can lie that pushed a skipped time here: six hours. -/
def probeSeconds : Int := 6 * 3600

/-- The offset from UTC, in seconds. -/
def offset (m : Moment) : Int := m.zone.localOffset (LocalTime.seconds m.time) m.secondPass

/-- The instant, in microseconds since 1970 in UTC. -/
def instant (m : Moment) : Int := m.time - m.offset * 1000000

/-- The instant in POSIX seconds. -/
def posix (m : Moment) : Int := Posix.ofMicros m.instant

/-- A local time, if it can be shown. -/
def inRange (t : Int) : Except TimeError Int :=
  if LocalTime.InRange t then .ok t else .error .dateRange

/-- The moment that the clocks of a zone show at an instant. -/
def ofInstant (z : Zone) (instant : Int) : Except TimeError Moment := do
  let utc ← inRange instant
  let time ← inRange (utc + z.offsetAt (LocalTime.seconds utc) * 1000000)
  return ⟨z, time, z.inSecondPass (LocalTime.seconds utc)⟩

/-- The moment at a POSIX time. -/
def ofPosix (z : Zone) (posix : Int) : Except TimeError Moment := ofInstant z (Posix.toMicros posix)

/-- The moment as the clocks show it: a skipped time becomes the one it is pushed to. -/
def normalize (m : Moment) : Except TimeError Moment := ofPosix m.zone m.posix

/-- The moment so many microseconds later. -/
def advance (m : Moment) (micros : Int) : Except TimeError Moment := do
  let utc ← inRange m.instant
  ofInstant m.zone (utc + micros)

/-- The local time of the moment in UTC. -/
def utc (m : Moment) : Except TimeError Int := inRange m.instant

/-- The moments that a local time stands for, earliest first. -/
def instantsOf (z : Zone) (time : Int) : Except TimeError (List Moment) := do
  let first ← normalize ⟨z, time, false⟩
  if first.time ≠ time then return [first]
  let second ← normalize ⟨z, time, true⟩
  return if second.posix = first.posix then [first] else [first, second]

/-- By how many seconds the clock jumped ahead in the six hours before a moment. -/
def forwardJump (m : Moment) : Except TimeError Int := do
  let earlier ← ofPosix m.zone (Posix.subSeconds m.posix probeSeconds)
  return max (m.offset - earlier.offset) 0

/-- The skipped local time that is pushed to a moment. -/
def skipped? (m : Moment) : Except TimeError (Option Int) := do
  let jump ← m.forwardJump
  if jump = 0 then return none
  let origin ← inRange (m.time - jump * 1000000)
  match ← instantsOf m.zone origin with
  | [] => return none
  | first :: _ => return if first.time ≠ origin && first.posix == m.posix then some origin else none

/-- The written form: the local time and the offset. -/
def chars (m : Moment) : List Char := Iso.timeChars m.time ++ Iso.offsetChars m.offset

/-- The written form as a string. -/
def text (m : Moment) : String := String.ofList m.chars

end Moment

/-- A local time whose zone may be left out. -/
structure Stamp where
  /-- What calendar and clock show. -/
  time : Int
  /-- The zone. -/
  zone : Option Zone
  /-- Whether a repeated time is meant in its second pass. -/
  secondPass : Bool := false
deriving DecidableEq, Repr

/-- The moment that a stamp stands for; without a zone it stands for none. -/
def Stamp.moment : Option Stamp → Except TimeError Moment
  | none => .error (.missing .datetime)
  | some ⟨time, some zone, secondPass⟩ => .ok ⟨zone, time, secondPass⟩
  | some ⟨time, none, _⟩ => .error (.naive (String.ofList (Iso.timeChars time)))

/-- The stamp of a moment. -/
def Moment.stamp (m : Moment) : Stamp := ⟨m.time, some m.zone, m.secondPass⟩

end CronSchedule
