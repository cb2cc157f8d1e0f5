import CronSchedule.Fault
import CronSchedule.TimeError

/-!
# Refusals

Work with a whole schedule fails for one of two reasons: the schedule breaks a rule of its dialect,
or its values cannot be worked out because an expression was not checked.
-/

namespace CronSchedule

/-- Why a schedule is refused. -/
inductive Refusal where
  /-- The schedule breaks a rule. -/
  | fault (fault : Fault)
  /-- Its values or its fire times cannot be worked out. -/
  | time (error : TimeError)
deriving DecidableEq, Repr

end CronSchedule
