import CronSchedule.Expr.Check
import CronSchedule.Text.Blank

/-!
# Schedules

A `Schedule` is a dialect and an expression for some of its fields. The fields stand in the
dialect's order, which is part of the type; a field may be missing, even a required one.

* `Schedule.ofAssignment` takes the expression of each field from a function.
* `Schedule.of?` takes a list of fields in any order and refuses unknown and repeated ones.
* `Schedule.validate` checks every field and then the rules that tie fields together.
* `Schedule.chars` is the written form: the fields in order with a space between them.
-/

namespace CronSchedule

/-- A dialect and an expression for some of its fields. -/
structure Schedule where
  /-- The dialect. -/
  definition : Definition
  /-- The fields that have an expression. -/
  fields : List Field
  /-- The fields are fields of the dialect, in its order. -/
  ordered : (fields.map (·.name)).Sublist definition.fieldNames

namespace Schedule

theorem map_name_filterMap_sublist (f : FieldName → Option Expr) (ds : List FieldDefinition) :
    ((ds.filterMap fun d => (f d.name).map (Field.mk d.name)).map (·.name)).Sublist
      (ds.map (·.name)) := by
  induction ds with
  | nil => simp
  | cons d ds ih =>
    cases h : f d.name with
    | none => simpa [List.filterMap_cons, h] using ih.cons d.name
    | some e => simpa [List.filterMap_cons, h] using ih

/-- The schedule in which each field of the dialect has the expression that `f` gives it. -/
def ofAssignment (d : Definition) (f : FieldName → Option Expr) : Schedule :=
  ⟨d, d.fields.filterMap fun fd => (f fd.name).map (Field.mk fd.name),
    map_name_filterMap_sublist f d.fields⟩

/-- The expression of a field in a list of fields. -/
def exprIn (fields : List Field) (name : FieldName) : Option Expr :=
  (fields.find? (·.name == name)).map (·.expr)

/-- The first field that the dialect does not have or that has come before. -/
def firstRefused? (d : Definition) (seen : List FieldName) : List Field → Option FieldError
  | [] => none
  | f :: fs =>
    if !d.hasField f.name then some (.undefined f.name)
    else if f.name ∈ seen then some (.duplicate f.name)
    else firstRefused? d (f.name :: seen) fs

/-- The schedule with the given fields, or the first field that cannot be part of it. -/
def of? (d : Definition) (fields : List Field) : Except FieldError Schedule :=
  match firstRefused? d [] fields with
  | some e => .error e
  | none => .ok (ofAssignment d (exprIn fields))

/-- A field of the schedule. -/
def field? (s : Schedule) (name : FieldName) : Option Field :=
  s.fields.find? (·.name == name)

/-- The expression of a field. -/
def expr? (s : Schedule) (name : FieldName) : Option Expr := exprIn s.fields name

theorem exprIn_filterMap (f : FieldName → Option Expr) (ds : List FieldDefinition)
    (name : FieldName) :
    exprIn (ds.filterMap fun d => (f d.name).map (Field.mk d.name)) name =
      if name ∈ ds.map (·.name) then f name else none := by
  induction ds with
  | nil => simp [exprIn]
  | cons d ds ih =>
    cases hf : f d.name with
    | none =>
      rw [List.filterMap_cons_none (by simp [hf]), ih]
      by_cases hn : name = d.name
      · subst hn; simp [hf]
      · simp [hn]
    | some e =>
      rw [List.filterMap_cons_some (by simp [hf]; rfl)]
      by_cases hn : name = d.name
      · subst hn; simp [exprIn, hf]
      · have hd : (d.name == name) = false := by simpa using fun h : d.name = name => hn h.symm
        simp only [exprIn, List.find?_cons, hd] at ih ⊢
        rw [ih]
        simp [hn]

/-- A schedule made from an assignment has the assigned expression in each field of the dialect. -/
theorem expr?_ofAssignment (d : Definition) (f : FieldName → Option Expr) (name : FieldName) :
    (ofAssignment d f).expr? name = if name ∈ d.fieldNames then f name else none :=
  exprIn_filterMap f d.fields name

/-- The written form of the schedule. -/
def chars (s : Schedule) : List Char :=
  Text.trim ([' '].intercalate (s.fields.map fun f => f.expr.chars))

/-- The written form of the schedule as a string. -/
def text (s : Schedule) : String := String.ofList s.chars

/-- The written form of the schedule with its type around it. -/
def quotedText (s : Schedule) : String := "Schedule('" ++ s.text ++ "')"

/-- Whether a field is absent or puts no restriction on the day. -/
def isUnspecified (s : Schedule) (name : FieldName) : Bool :=
  match s.expr? name with
  | none => true
  | some e => e.isUnspecified

/-- Whether the fields of a schedule go together as a constraint wants it. -/
def satisfies (s : Schedule) : Constraint → Bool
  | .dayOfYearAlone =>
    s.isUnspecified .dayOfYear || (s.isUnspecified .dayOfWeek && s.isUnspecified .dayOfMonth)
  | .oneDayField =>
    !s.isUnspecified .dayOfYear || s.isUnspecified .dayOfMonth || s.isUnspecified .dayOfWeek
  | .questionMark => s.expr? .dayOfMonth == some .question || s.expr? .dayOfWeek == some .question
  | .custom _ holds => holds s.fields

/-- Fails with the first rule that a field breaks. -/
def checkFields (s : Schedule) : List FieldDefinition → Except Fault Unit
  | [] => .ok ()
  | d :: ds => do
    match s.expr? d.name with
    | none => pure ()
    | some e => e.check d
    checkFields s ds

/-- Fails with the first constraint that the schedule violates. -/
def checkConstraints (s : Schedule) : List Constraint → Except Fault Unit
  | [] => .ok ()
  | c :: cs =>
    if s.satisfies c then checkConstraints s cs else .error (.violated s.chars c.description)

/-- Checks every field, in the dialect's order, and then every constraint. -/
def validate (s : Schedule) : Except Fault Unit := do
  s.checkFields s.definition.fields
  s.checkConstraints s.definition.constraints

/-- Two schedules are the same when their dialects are and each field has the same expression. -/
def same (s t : Schedule) : Bool := s.definition.same t.definition && s.fields == t.fields

end Schedule

end CronSchedule
