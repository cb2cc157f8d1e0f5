/-!
# Field names

The eight fields a cron schedule can have, in canonical order: from the second, the finest, to the
day of the year.
-/

namespace CronSchedule

/-- The fields a schedule can have. -/
inductive FieldName where
  | second
  | minute
  | hour
  | dayOfMonth
  | month
  | dayOfWeek
  | year
  | dayOfYear
deriving DecidableEq, Repr

namespace FieldName

/-- All field names in canonical order. -/
def all : List FieldName :=
  [second, minute, hour, dayOfMonth, month, dayOfWeek, year, dayOfYear]

/-- The place of a name in the canonical order. -/
def order : FieldName → Nat
  | second => 0
  | minute => 1
  | hour => 2
  | dayOfMonth => 3
  | month => 4
  | dayOfWeek => 5
  | year => 6
  | dayOfYear => 7

/-- The written form of a name. -/
def text : FieldName → String
  | second => "second"
  | minute => "minute"
  | hour => "hour"
  | dayOfMonth => "day-of-month"
  | month => "month"
  | dayOfWeek => "day-of-week"
  | year => "year"
  | dayOfYear => "day-of-year"

instance : ToString FieldName where
  toString := text

instance : LE FieldName where
  le a b := a.order ≤ b.order

instance : LT FieldName where
  lt a b := a.order < b.order

instance (a b : FieldName) : Decidable (a ≤ b) := inferInstanceAs (Decidable (a.order ≤ b.order))

instance (a b : FieldName) : Decidable (a < b) := inferInstanceAs (Decidable (a.order < b.order))

/-- The name with a given written form. -/
def ofText? (s : String) : Option FieldName :=
  all.find? fun name => name.text == s

end FieldName

end CronSchedule
