import CronSchedule.Field.Rule
import CronSchedule.Diagnostic
import CronSchedule.Expr.Basic

/-!
# Dialect definitions

A `Definition` says how a dialect of cron writes its schedules: which fields there are and in which
order, what each allows, which fields may be left out at the end, which rules tie fields together
and which nicknames are known.

Two things hold of every definition and are fields of the structure: no field is defined twice, and
no required field follows an optional one. `Definition.of?` checks them and says what is wrong.
-/

namespace CronSchedule

/-- The rules that tie the fields of a schedule together. -/
inductive Constraint where
  /-- A restricted day of the year leaves the other day fields unrestricted. -/
  | dayOfYearAlone
  /-- At most one of day of month and day of week is restricted. -/
  | oneDayField
  /-- One of day of month and day of week is a question mark. -/
  | questionMark
  /-- Any other rule: what it says when it is violated, and which fields keep it. -/
  | custom (description : String) (holds : List Field → Bool)

/-- What a constraint says when it is violated. -/
def Constraint.description : Constraint → String
  | .dayOfYearAlone => "Both, a day-of-year AND a day-of-month or day-of-week, are not supported."
  | .oneDayField => "Both, a day-of-week AND a day-of-month parameter, are not supported."
  | .questionMark =>
    "Invalid cron expression: Both, a day-of-week AND a day-of-month parameter, " ++
      "must have at least one with a '?' character."
  | .custom description _ => description

/-- A field of a dialect. -/
structure FieldDefinition where
  /-- Which field it is. -/
  name : FieldName
  /-- What it allows. -/
  rule : FieldRule
  /-- Whether a schedule may leave it out. -/
  optional : Bool := false
deriving DecidableEq, Repr

/-- Two fields are defined alike. -/
def FieldDefinition.same (a b : FieldDefinition) : Bool :=
  a.name == b.name && a.optional == b.optional && a.rule.same b.rule

/-- A dialect of cron. -/
structure Definition where
  /-- The fields, in the order in which they are written. -/
  fields : List FieldDefinition
  /-- The rules that tie fields together, in the order in which they are checked. -/
  constraints : List Constraint := []
  /-- The nicknames that the dialect knows. -/
  nicknames : List String := []
  /-- Whether it is one of the four standard dialects. -/
  standard : Bool := false
  /-- No field is defined twice. -/
  nodup : (fields.map (·.name)).Nodup
  /-- After an optional field there are only optional ones. -/
  optional_last : fields.Pairwise fun a b => a.optional = true → b.optional = true

/-- Why a list of fields is no dialect. -/
inductive DefinitionError where
  /-- A field is defined twice. -/
  | duplicate (name : FieldName)
  /-- A required field stands after an optional one. -/
  | requiredAfterOptional (name : FieldName)
deriving DecidableEq, Repr

/-- The wording of a definition error. -/
def DefinitionError.message : DefinitionError → String
  | .duplicate name => s!"duplicate field definition: {name}"
  | .requiredAfterOptional name => s!"required field {name} follows an optional field"

/-- The first name of a list that has come before, or is among those seen earlier. -/
def firstRepeated? (seen : List FieldName) : List FieldName → Option FieldName
  | [] => none
  | n :: ns => if n ∈ seen then some n else firstRepeated? (n :: seen) ns

/-- The first required field after an optional one. -/
def firstMisplaced? : List FieldDefinition → Option FieldName
  | [] => none
  | d :: ds => if d.optional then (ds.find? (!·.optional)).map (·.name) else firstMisplaced? ds

theorem firstRepeated?_eq_none_iff {seen names : List FieldName} :
    firstRepeated? seen names = none ↔ names.Nodup ∧ ∀ n ∈ names, n ∉ seen := by
  induction names generalizing seen with
  | nil => simp [firstRepeated?]
  | cons n ns ih =>
    simp only [firstRepeated?]
    split
    · next h => simp [h]
    · next h =>
      rw [ih]
      simp only [List.nodup_cons, List.mem_cons, not_or]
      constructor
      · rintro ⟨hn, hs⟩
        refine ⟨⟨fun hm => (hs n hm).1 rfl, hn⟩, ?_⟩
        rintro m (rfl | hm)
        · exact h
        · exact (hs m hm).2
      · rintro ⟨⟨hm, hn⟩, hs⟩
        exact ⟨hn, fun m hm' => ⟨fun he => hm (he ▸ hm'), hs m (Or.inr hm')⟩⟩

theorem firstMisplaced?_eq_none_iff {ds : List FieldDefinition} :
    firstMisplaced? ds = none ↔
      ds.Pairwise fun a b => a.optional = true → b.optional = true := by
  induction ds with
  | nil => simp [firstMisplaced?]
  | cons d ds ih =>
    simp only [firstMisplaced?, List.pairwise_cons]
    split
    · next h =>
      simp only [Option.map_eq_none_iff, List.find?_eq_none, h, true_implies]
      constructor
      · intro ho
        refine ⟨fun b hb => by simpa using ho b hb, ?_⟩
        exact List.pairwise_of_forall_mem_list fun a _ b hb _ => by simpa using ho b hb
      · rintro ⟨ho, -⟩ b hb
        simpa using ho b hb
    · next h => simp [ih, h]

namespace Definition

/-- The dialect with the given fields, or what is wrong with them. A field that is defined twice is
reported before one that stands in the wrong place. -/
def of? (fields : List FieldDefinition) (constraints : List Constraint) (nicknames : List String) :
    Except DefinitionError Definition :=
  match hr : firstRepeated? [] (fields.map (·.name)) with
  | some name => .error (.duplicate name)
  | none =>
    match hm : firstMisplaced? fields with
    | some name => .error (.requiredAfterOptional name)
    | none =>
      .ok ⟨fields, constraints, nicknames, false, (firstRepeated?_eq_none_iff.1 hr).1,
        firstMisplaced?_eq_none_iff.1 hm⟩

/-- The names of the fields, in the order in which they are written. -/
def fieldNames (d : Definition) : List FieldName := d.fields.map (·.name)

/-- The definition of a field, if the dialect has it. -/
def field? (d : Definition) (name : FieldName) : Option FieldDefinition :=
  d.fields.find? (·.name == name)

/-- Whether the dialect has a field. -/
def hasField (d : Definition) (name : FieldName) : Bool := (d.field? name).isSome

/-- The place of a field among those of the dialect. -/
def position? (d : Definition) (name : FieldName) : Option Nat := d.fieldNames.idxOf? name

/-- The number of fields that every schedule has. -/
def requiredCount (d : Definition) : Nat := d.fields.countP (!·.optional)

/-- The numbers of fields that a written schedule may have. -/
def acceptedLengths (d : Definition) : List Nat :=
  (List.range (d.fields.length + 1 - d.requiredCount)).map (d.requiredCount + ·)

/-- The nicknames of the dialect in alphabetical order, each once. -/
def sortedNicknames (d : Definition) : List String :=
  (d.nicknames.mergeSort (fun a b => decide (a ≤ b))).eraseDups

/-- Two definitions describe the same dialect. Constraints are told apart by their wording. Those of
a standard dialect are its own: a definition made elsewhere with constraints of the same wording
describes another dialect. -/
def same (d e : Definition) : Bool :=
  d.fields.length == e.fields.length &&
    (d.fields.zip e.fields).all (fun p => p.1.same p.2) &&
    d.constraints.map (·.description) == e.constraints.map (·.description) &&
    (d.constraints.isEmpty || d.standard == e.standard) &&
    d.nicknames.all e.nicknames.contains && e.nicknames.all d.nicknames.contains

end Definition

/-- Why a field cannot be looked up or added. -/
inductive FieldError where
  /-- The dialect has no such field. -/
  | undefined (name : FieldName)
  /-- The field is given twice. -/
  | duplicate (name : FieldName)
deriving DecidableEq, Repr

/-- The wording of a field error. -/
def FieldError.message : FieldError → String
  | .undefined name => s!"{name} is not defined for this cron definition"
  | .duplicate name => s!"duplicate field {name}"

/-- The place of a field among those of the dialect, or the error that it has no such field. -/
def Definition.position (d : Definition) (name : FieldName) : Except FieldError Nat :=
  match d.position? name with
  | some i => .ok i
  | none => .error (.undefined name)

end CronSchedule
