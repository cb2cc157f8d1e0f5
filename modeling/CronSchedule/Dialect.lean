import CronSchedule.Definition

/-!
# The four dialects

Unix cron, Quartz, Spring and Cron4j. Unix and Cron4j start at the minute and want ranges in order;
Quartz and Spring start at the second and let ranges wrap. Quartz numbers the week from 1 for Sunday
and has an optional year; in the others Sunday is 0, and in Unix and Spring also 7.
-/

namespace CronSchedule.Dialect

/-- The names of the months. -/
def monthNames : List (String × Int) :=
  [("JAN", 1), ("FEB", 2), ("MAR", 3), ("APR", 4), ("MAY", 5), ("JUN", 6), ("JUL", 7), ("AUG", 8),
    ("SEP", 9), ("OCT", 10), ("NOV", 11), ("DEC", 12)]

/-- The names of the weekdays, where Sunday has the number `sunday`. -/
def weekdayNames (sunday : Int) : List (String × Int) :=
  [("SUN", sunday), ("MON", sunday + 1), ("TUE", sunday + 2), ("WED", sunday + 3),
    ("THU", sunday + 4), ("FRI", sunday + 5), ("SAT", sunday + 6)]

/-- The nicknames of Unix and Spring. -/
def standardNicknames : List String :=
  ["@yearly", "@annually", "@monthly", "@weekly", "@daily", "@midnight", "@hourly"]

/-- The second of the minute. -/
def second (strict : Bool) : FieldDefinition := ⟨.second, { min := 0, max := 59, strict }, false⟩

/-- The minute of the hour. -/
def minute (strict : Bool) : FieldDefinition := ⟨.minute, { min := 0, max := 59, strict }, false⟩

/-- The hour of the day. -/
def hour (strict : Bool) : FieldDefinition := ⟨.hour, { min := 0, max := 23, strict }, false⟩

/-- The month of the year. -/
def month (strict : Bool) : FieldDefinition :=
  ⟨.month, { min := 1, max := 12, names := monthNames, strict }, false⟩

/-- The day of the month with all its special signs but the question mark. -/
def dayOfMonthRule : FieldRule :=
  { min := 1, max := 31, allowsLast := true, allowsWeekday := true, allowsLastWeekday := true }

/-- The day of the week counted from 0 for Sunday, which is also 7. -/
def sundayZeroRule : FieldRule :=
  { min := 0, max := 7, names := weekdayNames 0, alternates := [(7, 0)], allowsLast := true,
    allowsNth := true, monday := 1 }

/-- The day of the week counted from 0 for Sunday, which has no other number. -/
def sundayZeroOnlyRule : FieldRule :=
  { sundayZeroRule with max := 6, alternates := [] }

/-- The day of the week counted from 1 for Sunday. -/
def sundayOneRule : FieldRule :=
  { min := 1, max := 7, names := weekdayNames 1, allowsLast := true, allowsNth := true,
    monday := 2 }

/-- Unix cron. -/
def unix : Definition where
  fields := [minute true, hour true, ⟨.dayOfMonth, { dayOfMonthRule with strict := true }, false⟩,
    month true, ⟨.dayOfWeek, { sundayZeroRule with strict := true }, false⟩]
  nicknames := standardNicknames
  standard := true
  nodup := by decide
  optional_last := by decide

/-- Cron4j. -/
def cron4j : Definition where
  fields := [minute true, hour true,
    ⟨.dayOfMonth, { min := 1, max := 31, allowsLast := true, strict := true }, false⟩, month true,
    ⟨.dayOfWeek, { sundayZeroOnlyRule with strict := true }, false⟩]
  constraints := [.oneDayField]
  standard := true
  nodup := by decide
  optional_last := by decide

/-- Quartz. -/
def quartz : Definition where
  fields := [second false, minute false, hour false,
    ⟨.dayOfMonth, { dayOfMonthRule with allowsQuestion := true }, false⟩, month false,
    ⟨.dayOfWeek, { sundayOneRule with allowsQuestion := true }, false⟩,
    ⟨.year, { min := 1970, max := 2099, strict := true }, true⟩]
  constraints := [.questionMark]
  standard := true
  nodup := by decide
  optional_last := by decide

/-- Spring. -/
def spring : Definition where
  fields := [second false, minute false, hour false,
    ⟨.dayOfMonth, { dayOfMonthRule with allowsQuestion := true }, false⟩, month false,
    ⟨.dayOfWeek, { sundayZeroRule with allowsQuestion := true }, false⟩]
  nicknames := standardNicknames
  standard := true
  nodup := by decide
  optional_last := by decide

end CronSchedule.Dialect
