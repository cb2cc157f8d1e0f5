/-!
# Arguments left out

A caller that has no value for a required argument gets the name of that argument back.
-/

namespace CronSchedule

/-- A required argument that was left out. -/
inductive Missing where
  | dialect
  | definition
  | sourceDefinition
  | targetDefinition
  | text
  | token
  | fields
  | fieldName
  | schedule
  | datetime
  | period
deriving DecidableEq, Repr

namespace Missing

/-- What is said of the missing argument. -/
def message : Missing → String
  | dialect => "CronType must not be None"
  | definition => "CronDefinition must not be None"
  | sourceDefinition => "source CronDefinition must not be None"
  | targetDefinition => "target CronDefinition must not be None"
  | text => "cron expression must not be None"
  | token => "field token must not be None"
  | fields => "fields must not be None"
  | fieldName => "CronFieldName must not be None"
  | schedule => "Schedule must not be None"
  | datetime => "datetime must not be None"
  | period => "period must be given when a base expression is passed"

/-- The argument, if there is one. -/
def require {α : Type} (m : Missing) : Option α → Except Missing α
  | some a => .ok a
  | none => .error m

end Missing

end CronSchedule
