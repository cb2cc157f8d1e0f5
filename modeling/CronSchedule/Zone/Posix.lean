/-!
# POSIX seconds

The time since 1970 as a binary floating-point number of seconds with 53 significant bits. Such a
number is held exactly, as a whole number of units of 2⁻⁷² seconds: a microsecond is more than 2⁻²⁰
seconds, so no time that is a whole number of microseconds needs a smaller unit.

* `Posix.ofMicros` rounds a number of microseconds to the nearest such number of seconds.
* `Posix.subSeconds` subtracts seconds and rounds again.
* `Posix.toMicros` rounds to the nearest microsecond.

All three send a tie to the even neighbour.
-/

namespace CronSchedule.Posix

/-- The number of units in a second, 2⁷². -/
def unitsPerSecond : Nat := Nat.pow 2 72

/-- The number of microseconds in a second. -/
def microsPerSecond : Int := 1000000

/-- The integer nearest to a quotient, and the even one of two that are equally near. -/
def roundQuotient (num : Int) (den : Nat) : Int :=
  let floor := num / (den : Int)
  let rest := num % (den : Int)
  if 2 * rest < den then floor
  else if (den : Int) < 2 * rest then floor + 1
  else if floor % 2 = 0 then floor
  else floor + 1

/-- The integer with at most 53 significant bits that is nearest to a quotient. Below 2⁵³ that is
any integer, above it the multiples of a power of two. -/
def roundSignificant (num : Int) (den : Nat) : Int :=
  let spacing := Nat.pow 2 (Nat.log2 (num.natAbs / den) - 52)
  roundQuotient num (den * spacing) * spacing

/-- The POSIX time of a number of microseconds since 1970. -/
def ofMicros (micros : Int) : Int := roundSignificant (micros * unitsPerSecond) 1000000

/-- The POSIX time a number of seconds earlier. -/
def subSeconds (time seconds : Int) : Int := roundSignificant (time - seconds * unitsPerSecond) 1

/-- The number of microseconds since 1970: the whole seconds, and the rest rounded on its own. -/
def toMicros (time : Int) : Int :=
  time.tdiv unitsPerSecond * microsPerSecond +
    roundQuotient (roundSignificant (time.tmod unitsPerSecond * microsPerSecond) 1) unitsPerSecond

example : toMicros (ofMicros 1700000000123456) = 1700000000123456 := by decide +kernel

example : ofMicros 253402300739999999 = ofMicros 253402300740000000 := by decide +kernel

end CronSchedule.Posix
