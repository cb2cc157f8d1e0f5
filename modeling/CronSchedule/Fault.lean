import CronSchedule.Definition
import CronSchedule.Expr.Display

/-!
# Faults

Everything that can be wrong with a written schedule or with the expression of a field, one
constructor for each cause, and the wording of each in one place, `Fault.message`.

A fault is of one of three kinds: the text cannot be read, a numeral in it denotes no number, or the
expression it stands for breaks a rule of the dialect. `TextFault` adds the place in the text.
-/

namespace CronSchedule

open Text (int)

/-- The signs that a field may or may not allow. -/
inductive Sign where
  | question
  | nth
  | last
  | weekday
  | lastWeekday
deriving DecidableEq, Repr

/-- The written form of a sign. -/
def Sign.text : Sign → String
  | .question => "?"
  | .nth => "#"
  | .last => "L"
  | .weekday => "W"
  | .lastWeekday => "LW"

/-- What is wrong with a part of a field. -/
inductive PartFault where
  /-- What follows `L-` is no number. -/
  | offset
  /-- What follows `#` is no number. -/
  | nth
  /-- What follows `/` is no number. -/
  | step
  /-- What stands before `/` cannot carry a step. -/
  | stepBase
  /-- It starts with a minus sign. -/
  | negative
  /-- It has a minus sign in it and is not two values around one. -/
  | range
  /-- A number or a name was expected in place of `text`. -/
  | value (text : List Char)
deriving DecidableEq, Repr

/-- The wording of what is wrong with a part, to follow the part itself. -/
def PartFault.reason : PartFault → String
  | .offset => "has an invalid offset"
  | .nth => "has an invalid nth value"
  | .step => "has an invalid step"
  | .stepBase => "has an invalid step base"
  | .negative => "does not describe a range. Negative numbers are not allowed."
  | .range => "does not describe a range."
  | .value text => "contains an invalid value: " ++ String.ofList text

/-- What is wrong with an expression as a whole. -/
inductive ExprFault where
  /-- Months have at most five of each weekday. -/
  | nth
  /-- The base cannot carry a step. -/
  | stepBase
  /-- A list or a question mark stands in a list. -/
  | combined
  /-- The form belongs to one field only. -/
  | only (home : FieldName)
  /-- The number of days before the last day is negative or greater than `bound`. -/
  | offset (bound : Int)
deriving DecidableEq, Repr

/-- The wording of what is wrong with an expression, to follow the expression itself. -/
def ExprFault.reason : ExprFault → String
  | .nth => "nth weekday must be between 1 and 5"
  | .stepBase => "has an invalid step base"
  | .combined => "can not be combined with other values"
  | .only home => "is only supported for " ++ home.text
  | .offset bound => "offset must be between 0 and " ++ int bound

/-- What is wrong with a written schedule or an expression. -/
inductive Fault where
  /-- There is nothing but white space. -/
  | emptyText
  /-- Something follows a nickname. -/
  | afterNickname (nickname : List Char)
  /-- The dialect has no such nickname. -/
  | nickname (token : List Char)
  /-- The number of fields is none of those accepted. -/
  | fieldCount (found : Nat) (accepted : List Nat)
  /-- A field is nothing but white space. -/
  | emptyField (name : FieldName)
  /-- A field holds characters that have no meaning in it. -/
  | foreignChars (token found : List Char)
  /-- A list has an empty member. -/
  | emptyMember (token : List Char)
  /-- A step has no period. -/
  | missingStep (part : List Char)
  /-- A part cannot be read. -/
  | part (part : List Char) (fault : PartFault)
  /-- Not all digits of a numeral are decimal. -/
  | numeral (text : List Char)
  /-- The field does not allow the sign. -/
  | unsupported (sign : Sign) (name : FieldName)
  /-- A number lies outside the field's range. -/
  | outOfRange (value min max : Int) (name : FieldName)
  /-- An expression breaks a rule. -/
  | expr (e : Expr) (fault : ExprFault)
  /-- A range starts after it ends. -/
  | reversed (first last : Int)
  /-- A period is not positive. -/
  | period (period : Int)
  /-- A list has no members. -/
  | emptyList (name : FieldName)
  /-- The fields of the schedule with this text violate the constraint that says this. -/
  | violated (schedule : List Char) (description : String)
deriving DecidableEq, Repr

namespace Fault

/-- The kind of a fault. -/
def kind : Fault → ErrorKind
  | emptyText | afterNickname _ | nickname _ | fieldCount _ _ | emptyField _ | foreignChars _ _
  | emptyMember _ | missingStep _ | part _ _ => .parse
  | numeral _ => .numeral
  | unsupported _ _ | outOfRange _ _ _ _ | expr _ _ | reversed _ _ | period _ | emptyList _
  | violated _ _ => .validation

/-- A text in quotes, cut off after so many characters. -/
def quoted (text : List Char) (width : Nat) : String :=
  String.ofList (("'".toList ++ text ++ "'".toList).take width)

/-- The wording of a fault. -/
def message : Fault → String
  | emptyText => "Empty expression!"
  | afterNickname token => "Nickname " ++ String.ofList token ++ " takes no other fields"
  | nickname token => "Nickname " ++ String.ofList token ++ " is not supported"
  | fieldCount found accepted =>
    "Cron expression contains " ++ int found ++ " parts but we expect one of [" ++
      ", ".intercalate (accepted.map fun n : Nat => int n) ++ "]"
  | emptyField name => "Empty expression for " ++ name.text
  | foreignChars token found =>
    "Invalid chars in expression! Expression: " ++ String.ofList token ++ " Invalid chars: " ++
      String.ofList found
  | emptyMember token => "Invalid expression! Expression: " ++ String.ofList token
  | missingStep token => "Missing steps for expression: " ++ String.ofList token
  | part token fault =>
    "Invalid expression! Expression: " ++ String.ofList token ++ " " ++ fault.reason
  | numeral text => "invalid literal for int() with base 10: " ++ quoted text 200
  | unsupported sign name =>
    "Special character " ++ sign.text ++ " is not supported for " ++ name.text
  | outOfRange value min max name =>
    "Value " ++ int value ++ " not in range [" ++ int min ++ ", " ++ int max ++ "] for " ++
      name.text
  | expr e fault => "Invalid expression! Expression: " ++ e.text ++ " " ++ fault.reason
  | reversed first last => "Invalid range! [" ++ int first ++ "," ++ int last ++ "]"
  | period p => "Period should be greater than 0 but was " ++ int p
  | emptyList name => "Empty list expression for " ++ name.text
  | violated schedule description =>
    "Invalid cron expression: " ++ String.ofList schedule ++ ". " ++ description

/-- The fault as an error that belongs to no place in a text. -/
def diagnostic (f : Fault) : Diagnostic := ⟨f.kind, f.message, none, none⟩

end Fault

/-- A fault, and the part of the text it is about where there is one. -/
structure TextFault where
  /-- What is wrong. -/
  fault : Fault
  /-- The part of the text and the text. -/
  place : Option (Span × List Char) := none
deriving DecidableEq, Repr

/-- The fault as an error for a reader. -/
def TextFault.diagnostic (f : TextFault) : Diagnostic :=
  ⟨f.fault.kind, f.fault.message, f.place.map (·.1), f.place.map fun p => String.ofList p.2⟩

end CronSchedule
