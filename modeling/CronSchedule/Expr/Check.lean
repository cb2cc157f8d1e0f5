import CronSchedule.Fault

/-!
# Which expressions a field allows

`Expr.check` goes through an expression and reports the first rule of the field that it breaks.
-/

namespace CronSchedule.Expr

/-- Fails unless the field allows the sign. -/
def requireSign (allowed : Bool) (sign : Sign) (d : FieldDefinition) : Except Fault Unit :=
  if allowed then .ok () else .error (.unsupported sign d.name)

/-- Fails unless the number lies in the range of the field. -/
def requireInRange (value : Int) (d : FieldDefinition) : Except Fault Unit :=
  if d.rule.Contains value then .ok () else .error (.outOfRange value d.rule.min d.rule.max d.name)

/-- Fails with a fault unless a condition holds. -/
def require (holds : Bool) (fault : Fault) : Except Fault Unit :=
  if holds then .ok () else .error fault

theorem requireSign_eq_ok_iff {allowed : Bool} {sign : Sign} {d : FieldDefinition} :
    requireSign allowed sign d = .ok () ↔ allowed = true := by
  simp only [requireSign]
  split <;> simp_all

theorem requireInRange_eq_ok_iff {value : Int} {d : FieldDefinition} :
    requireInRange value d = .ok () ↔ d.rule.Contains value := by
  simp only [requireInRange]
  split <;> simp_all

theorem require_eq_ok_iff {holds : Bool} {fault : Fault} :
    require holds fault = .ok () ↔ holds = true := by
  simp only [require]
  split <;> simp_all

/-- Whether an expression may stand in a list. -/
def isMember : Expr → Bool
  | .list _ | .question => false
  | _ => true

mutual

/-- Fails with the first rule of the field that the expression breaks. -/
def check (d : FieldDefinition) : Expr → Except Fault Unit
  | .always => .ok ()
  | .question => requireSign d.rule.allowsQuestion .question d
  | .on v none => requireInRange v d
  | .on v (some n) => do
    requireInRange v d
    requireSign d.rule.allowsNth .nth d
    require (1 ≤ n && n ≤ 5) (.expr (.on v (some n)) .nth)
  | .between s e => do
    requireInRange s d
    requireInRange e d
    require (!d.rule.strict || s ≤ e) (.reversed s e)
  | .every base p => do
    require base.isStepBase (.expr (.every base p) .stepBase)
    require (1 ≤ p) (.period p)
    check d base
  | .list es => do
    require (!es.isEmpty) (.emptyList d.name)
    checkMembers d (.list es) es
  | .last none => requireSign d.rule.allowsLast .last d
  | .last (some w) => do
    requireSign d.rule.allowsLast .last d
    require (d.name == .dayOfWeek) (.expr (.last (some w)) (.only .dayOfWeek))
    requireInRange w d
  | .lastOffset n => do
    requireSign d.rule.allowsLast .last d
    require (d.name == .dayOfMonth) (.expr (.lastOffset n) (.only .dayOfMonth))
    let bound := d.rule.max - d.rule.min
    require (0 ≤ n && n ≤ bound) (.expr (.lastOffset n) (.offset bound))
  | .nearestWeekday none => requireSign d.rule.allowsLastWeekday .lastWeekday d
  | .nearestWeekday (some day) => do
    requireSign d.rule.allowsWeekday .weekday d
    requireInRange day d

/-- Fails with the first rule that a member of the list `whole` breaks. -/
def checkMembers (d : FieldDefinition) (whole : Expr) : List Expr → Except Fault Unit
  | [] => .ok ()
  | e :: es => do
    require e.isMember (.expr whole .combined)
    check d e
    checkMembers d whole es

end

end CronSchedule.Expr
