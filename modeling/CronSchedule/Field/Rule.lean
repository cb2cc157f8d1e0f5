import CronSchedule.Field.Name
import CronSchedule.Values

/-!
# Field rules

What a dialect says about one of its fields: the range of its numbers, the names that stand for
numbers, which special signs it allows, and, for the day of the week, how it numbers the days.

Weekdays have two numberings. The ISO number runs from 1 for Monday to 7 for Sunday and is the same
in every dialect; the dialect's own number is what its expressions hold. `FieldRule.toIso` and
`FieldRule.ofIso` go from one to the other.
-/

namespace CronSchedule

/-- A table without repeated keys from pairs in which a key may come again: the last pair for a key
gives its value, the first one its place. -/
def tableOfPairs {α β : Type} [BEq α] (pairs : List (α × β)) : List (α × β) :=
  pairs.foldl (fun table p =>
    if table.any (·.1 == p.1) then table.map fun q => if q.1 == p.1 then (q.1, p.2) else q
    else table ++ [p]) []

/-- Two tables agree when they hold the same pairs, in whatever order. -/
def sameTable {α β : Type} [BEq α] [BEq β] (t u : List (α × β)) : Bool :=
  t.length == u.length && t.all u.contains

/-- What a dialect allows in one field. -/
structure FieldRule where
  /-- The least number of the field. -/
  min : Int
  /-- The greatest number of the field. -/
  max : Int
  /-- Names and the numbers they stand for. No name comes twice. -/
  names : List (String × Int) := []
  /-- Numbers that are another way to write a number, each with the number it means. -/
  alternates : List (Int × Int) := []
  /-- Whether `L` is allowed. -/
  allowsLast : Bool := false
  /-- Whether `W` after a day is allowed. -/
  allowsWeekday : Bool := false
  /-- Whether `LW` is allowed. -/
  allowsLastWeekday : Bool := false
  /-- Whether `#` is allowed. -/
  allowsNth : Bool := false
  /-- Whether `?` is allowed. -/
  allowsQuestion : Bool := false
  /-- Whether a range has to start before it ends. -/
  strict : Bool := false
  /-- The number of Monday. -/
  monday : Int := 1
deriving DecidableEq, Repr

namespace FieldRule

/-- The number that a name stands for. -/
def named? (r : FieldRule) (name : List Char) : Option Int :=
  (r.names.find? fun entry => entry.1.toList == name).map (·.2)

/-- The number meant by a number. -/
def normalize (r : FieldRule) (value : Int) : Int := (r.alternates.lookup value).getD value

/-- The numbers that mean the same as `value`, in ascending order, each once. -/
def numerals (r : FieldRule) (value : Int) : List Int :=
  let others := (r.alternates.filter (·.2 == value)).map (·.1)
  ((value :: others).mergeSort (fun a b => decide (a ≤ b))).eraseDups

/-- The ISO number of a weekday. -/
def toIso (r : FieldRule) (value : Int) : Int := (r.normalize value - r.monday) % 7 + 1

/-- The number for the weekday with an ISO number: the one that is not below the field's least. -/
def ofIso (r : FieldRule) (iso : Int) : Int :=
  let value := (iso - 1 + r.monday) % 7
  if value < r.min then value + 7 else value

/-- Whether a number lies in the field's range. -/
def Contains (r : FieldRule) (value : Int) : Prop := r.min ≤ value ∧ value ≤ r.max

instance (r : FieldRule) (value : Int) : Decidable (r.Contains value) :=
  inferInstanceAs (Decidable (_ ∧ _))

/-- The numbers of the field, in ascending order. -/
def values (r : FieldRule) : List Int := intsBetween r.min r.max

/-- Two rules say the same, with their tables in whatever order. -/
def same (r s : FieldRule) : Bool :=
  { r with names := [], alternates := [] } == { s with names := [], alternates := [] } &&
    sameTable r.names s.names && sameTable r.alternates s.alternates

end FieldRule

end CronSchedule
