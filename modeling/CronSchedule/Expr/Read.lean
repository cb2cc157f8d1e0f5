import CronSchedule.Fault
import CronSchedule.Text.Blank
import CronSchedule.Text.Pieces
import CronSchedule.Text.UpperCase

/-!
# Reading the text of a field

A field is one part or several parts between commas. It is read in upper case and without the white
space around it. A part is

* `*`, `?`, a value, or a range of two values with a minus sign between them,
* one of `*`, a value, a range or nothing, followed by `/` and a period,
* `L`, `LW`, `L-` and an offset, a value and `W`, a value and `L`,
* a value, `#` and a number,

where a value is a number or one of the names of the field. Before the parts are read, every
character that is left after the names are struck out has to be one of those the field allows. So
digits beyond ASCII come through only as part of a name; where they do, they count as digits.
-/

namespace CronSchedule.Expr

open Text

/-- The characters that have a meaning in a field: digits and `,-*/` in every field, and the special
signs that it allows. -/
def isAllowedChar (r : FieldRule) (c : Char) : Bool :=
  c.isDigit || c == ',' || c == '-' || c == '*' || c == '/' || (r.allowsQuestion && c == '?') ||
    ((r.allowsLast || r.allowsLastWeekday) && c == 'L') ||
    ((r.allowsWeekday || r.allowsLastWeekday) && c == 'W') || (r.allowsNth && c == '#')

/-- The names of a field, longer ones first. -/
def namesByLength (r : FieldRule) : List (List Char) :=
  (r.names.map fun entry => entry.1.toList).mergeSort fun a b => decide (b.length ≤ a.length)

/-- The characters of a text that have no meaning in the field, in order, each once. -/
def foreignChars (r : FieldRule) (text : List Char) : List Char :=
  (((namesByLength r).foldl (fun rest name => strike name rest) text).filter
    fun c => !isAllowedChar r c).eraseDups

/-- Whether a text has the form of a value: a name or a numeral. -/
def isValue (r : FieldRule) (text : List Char) : Bool := (r.named? text).isSome || isNumeral text

/-- The number that a numeral denotes. -/
def readNumeral (text : List Char) : Except Fault Int :=
  match digitsValue? text with
  | some n => .ok n
  | none => .error (.numeral text)

/-- The number that a value in a part stands for. -/
def readValue (r : FieldRule) (part text : List Char) : Except Fault Int :=
  match r.named? text with
  | some v => .ok v
  | none => if isNumeral text then readNumeral text else .error (.part part (.value text))

/-- Fails with a fault of the part unless the text is a numeral. -/
def requireNumeral (part text : List Char) (fault : PartFault) : Except Fault Unit :=
  if isNumeral text then .ok () else .error (.part part fault)

/-- The text of the value in front of a final sign. -/
def valueBefore? (r : FieldRule) (sign : Char) (part : List Char) : Option (List Char) :=
  if part.getLast? = some sign && isValue r part.dropLast then some part.dropLast else none

/-- The parts that are one word: every value, no statement, or a name. -/
def readWord? (r : FieldRule) (part : List Char) : Option Expr :=
  if part = ['*'] then some .always
  else if part = ['?'] then some .question
  else (r.named? part).map value

/-- A range, or a single value. -/
def readRange (r : FieldRule) (part : List Char) : Except Fault Expr :=
  if part.head? = some '-' then .error (.part part .negative)
  else if part.contains '-' then
    let (front, back) := cut '-' part
    if front.isEmpty || back.isEmpty || back.contains '-' then .error (.part part .range)
    else do
      let s ← readValue r part front
      let e ← readValue r part back
      return .between s e
  else do
    return value (← readValue r part part)

/-- A part without a step that is not one word. -/
def readSigned (r : FieldRule) (part : List Char) : Except Fault Expr :=
  if part = ['L'] then .ok (.last none)
  else if part = ['L', 'W'] then .ok (.nearestWeekday none)
  else if part.take 2 = ['L', '-'] then do
    requireNumeral part (part.drop 2) .offset
    return .lastOffset (← readNumeral (part.drop 2))
  else match valueBefore? r 'W' part with
    | some day => do return .nearestWeekday (some (← readValue r part day))
    | none =>
      match valueBefore? r 'L' part with
      | some weekday => do return .last (some (← readValue r part weekday))
      | none =>
        if part.contains '#' then do
          let (front, back) := cut '#' part
          requireNumeral part back .nth
          let weekday ← readValue r part front
          let n ← readNumeral back
          return .on weekday (some n)
        else readRange r part

/-- A part without a step. -/
def readPlain (r : FieldRule) (part : List Char) : Except Fault Expr :=
  match readWord? r part with
  | some e => .ok e
  | none => readSigned r part

/-- A part with a step. Nothing in front of the step stands for every value. -/
def readStep (r : FieldRule) (part : List Char) : Except Fault Expr := do
  let (front, step) := cut '/' part
  if step.isEmpty then throw (.missingStep part)
  requireNumeral part step .step
  let base ← if front.isEmpty then .ok .always else readPlain r front
  if base.isStepBase then return .every base (← readNumeral step)
  else throw (.part part .stepBase)

/-- One part of a field. -/
def readPart (r : FieldRule) (part : List Char) : Except Fault Expr :=
  match readWord? r part with
  | some e => .ok e
  | none => if part.contains '/' then readStep r part else readSigned r part

/-- The expression of a field. -/
def read (d : FieldDefinition) (token : List Char) : Except Fault Expr :=
  let text := upper (trim token)
  if text.isEmpty then .error (.emptyField d.name)
  else if !(foreignChars d.rule text).isEmpty then
    .error (.foreignChars token (foreignChars d.rule text))
  else match pieces ',' text with
    | [part] => readPart d.rule part
    | parts =>
      if parts.any (·.isEmpty) then .error (.emptyMember token)
      else do return .list (← parts.mapM (readPart d.rule))

end CronSchedule.Expr
