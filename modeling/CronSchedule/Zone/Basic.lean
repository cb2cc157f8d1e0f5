/-!
# Time zones

A `Zone` is an initial offset from UTC and a list of transitions, each with the instant from which a
new offset holds. Offsets and instants are whole seconds, instants counted from 1970 in UTC. The
offsets of named zones always are; a fixed offset with a fraction of a second has no `Zone`.

An instant has one offset. A clock time may have none, in a gap, or two, in a repeated hour; it is
read with a *fold*, which says which of the two offsets around a transition to take. In a repeated
hour the fold picks the pass. In a gap the first fold takes the offset before the jump and the
second the one after it.
-/

namespace CronSchedule

/-- A change of the offset. -/
structure Transition where
  /-- The instant from which the new offset holds. -/
  start : Int
  /-- The new offset. -/
  offset : Int
deriving DecidableEq, Repr

/-- A time zone. -/
structure Zone where
  /-- The offset before the first transition. -/
  initial : Int
  /-- The changes of the offset, in the order of their instants. -/
  transitions : List Transition := []
deriving DecidableEq, Repr

namespace Zone

/-- The zone with one offset for all time. -/
def fixed (offset : Int) : Zone := ⟨offset, []⟩

/-- The offset at an instant, after transitions from an offset `current`. -/
def offsetFrom (instant : Int) : Int → List Transition → Int
  | current, [] => current
  | current, t :: ts => offsetFrom instant (if t.start ≤ instant then t.offset else current) ts

/-- The offset at an instant: that of the last transition up to it. -/
def offsetAt (z : Zone) (instant : Int) : Int := offsetFrom instant z.initial z.transitions

/-- The clock time from which a transition counts when clock times are read with a fold. -/
def Transition.turn (before : Int) (t : Transition) (second : Bool) : Int :=
  t.start + if second then min before t.offset else max before t.offset

/-- The offset of a clock time, where `before` is the offset up to the next transition and `current`
the one found so far. -/
def localOffsetFrom (clock : Int) (second : Bool) : Int → Int → List Transition → Int
  | _, current, [] => current
  | before, current, t :: ts =>
    localOffsetFrom clock second t.offset
      (if Transition.turn before t second ≤ clock then t.offset else current) ts

/-- The offset of a clock time read with a fold: that of the last transition that counts for it. -/
def localOffset (z : Zone) (clock : Int) (second : Bool) : Int :=
  localOffsetFrom clock second z.initial z.initial z.transitions

/-- Whether an instant lies in a second pass, where `found` is the answer for the transitions so
far. -/
def inSecondPassFrom (instant : Int) : Int → Bool → List Transition → Bool
  | _, found, [] => found
  | before, found, t :: ts =>
    inSecondPassFrom instant t.offset
      (if t.start ≤ instant then decide (instant - t.start < before - t.offset) else found) ts

/-- Whether the clock time at an instant has been there before: the last transition moved the clock
back by more than the time since. -/
def inSecondPass (z : Zone) (instant : Int) : Bool :=
  inSecondPassFrom instant z.initial false z.transitions

@[simp] theorem offsetAt_fixed (offset instant : Int) :
    (fixed offset).offsetAt instant = offset := rfl

@[simp] theorem localOffset_fixed (offset clock : Int) (second : Bool) :
    (fixed offset).localOffset clock second = offset := rfl

@[simp] theorem inSecondPass_fixed (offset instant : Int) :
    (fixed offset).inSecondPass instant = false := rfl

end Zone

end CronSchedule
