import CronSchedule.Refusal
import CronSchedule.Schedule.Basic
import CronSchedule.Translation.Weekday

/-!
# Schedules in another dialect

`Schedule.translate` carries a schedule from one dialect to another. Each field of the target gets
its expression from the field of the same name, weekdays with the target's numbers. A field that
the source does not have gets a default: the first second, minute or hour, and every value of the
coarser fields. Then the two day fields are reconciled: where both know the question mark one of
them gets it, and where a field does not know it, it gives way to every value.
-/

namespace CronSchedule

/-- Ways to fill a field of the target that do not look into expressions. -/
inductive FieldPolicy where
  /-- Keep the field as it is. -/
  | keep
  /-- The field with the number zero. -/
  | zero (name : FieldName)
  /-- The field with every value. -/
  | always (name : FieldName)
  /-- The field with the question mark. -/
  | question (name : FieldName)
deriving DecidableEq, Repr

/-- The field that a policy makes of the source's field. -/
def FieldPolicy.apply : FieldPolicy → Option Field → Option Field
  | keep, f => f
  | zero name, _ => some ⟨name, .value 0⟩
  | always name, _ => some ⟨name, .always⟩
  | question name, _ => some ⟨name, .question⟩

/-- The policy for a field that the source does not give. -/
def FieldDefinition.defaultPolicy (d : FieldDefinition) : FieldPolicy :=
  match d.name with
  | .second | .minute | .hour => .zero d.name
  | .dayOfYear => if d.rule.allowsQuestion then .question d.name else .always d.name
  | _ => .always d.name

namespace Schedule

/-- The target's field, from the field of the same name. A field that the source has and the
schedule leaves out is left out again if the target allows it. -/
def translateField (source : Definition) (s : Schedule) (d : FieldDefinition) :
    Except TimeError (Option Field) :=
  match source.field? d.name with
  | none => .ok (d.defaultPolicy.apply none)
  | some sd =>
    match s.field? d.name with
    | none => .ok (if d.optional then none else d.defaultPolicy.apply none)
    | some f =>
      if d.name = .dayOfWeek then do
        return some ⟨d.name, ← f.expr.renumber sd.rule d.rule⟩
      else .ok (FieldPolicy.keep.apply (some f))

/-- The fields of the target, before the day fields are reconciled. -/
def translateFields (source : Definition) (s : Schedule) :
    List FieldDefinition → Except TimeError (List Field)
  | [] => .ok []
  | d :: ds => do
    let f ← translateField source s d
    let fs ← translateFields source s ds
    return f.toList ++ fs

/-- Whether a field of the target knows the question mark. -/
def knowsQuestion (target : Definition) (name : FieldName) : Bool :=
  match target.field? name with
  | none => false
  | some d => d.rule.allowsQuestion

/-- A question mark where the field knows it, and every value in its place elsewhere. -/
def settleQuestion (target : Definition) (name : FieldName) (e : Expr) : Expr :=
  if e = .question && !knowsQuestion target name then .always else e

/-- The expressions of day of month and day of week that go together in the target. Where both know
the question mark and the source has none, the day of the month gets it if only the day of the week
is restricted, and the day of the week otherwise. -/
def reconcileDays (target : Definition) (s : Schedule) (dom dow : Expr) : Expr × Expr :=
  let (dom, dow) :=
    if knowsQuestion target .dayOfMonth && knowsQuestion target .dayOfWeek &&
        !(s.expr? .dayOfMonth == some .question || s.expr? .dayOfWeek == some .question) then
      if dom.isUnspecified && !dow.isUnspecified then (.question, dow) else (dom, .question)
    else (dom, dow)
  (settleQuestion target .dayOfMonth dom, settleQuestion target .dayOfWeek dow)

/-- The expression of each field once the day fields are reconciled, if there are both. -/
def reconciled (target : Definition) (s : Schedule) (fields : List Field) (name : FieldName) :
    Option Expr :=
  match exprIn fields .dayOfMonth, exprIn fields .dayOfWeek with
  | some dom, some dow =>
    let (dom, dow) := reconcileDays target s dom dow
    if name = .dayOfMonth then some dom
    else if name = .dayOfWeek then some dow
    else exprIn fields name
  | _, _ => exprIn fields name

/-- The schedule that says the same in another dialect. -/
def translate (source target : Definition) (s : Schedule) : Except Refusal Schedule := do
  let fields ← (translateFields source s target.fields).mapError .time
  let t := ofAssignment target (reconciled target s fields)
  t.validate.mapError .fault
  return t

/-- Whether two schedules are written the same. -/
def writtenAlike (s t : Schedule) : Bool := s.chars == t.chars

end Schedule

end CronSchedule
