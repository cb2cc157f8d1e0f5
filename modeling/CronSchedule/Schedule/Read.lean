import CronSchedule.Schedule.Basic
import CronSchedule.Expr.Read

/-!
# Reading a written schedule

The words of the text are the fields of the schedule in the dialect's order; optional fields at the
end may be left out. In place of fields a text may hold a nickname, a word that starts with `@`.

A fault in a field carries the place of the field's word. A fault about a nickname carries a place
as well; a wrong number of fields and a violated constraint belong to the text as a whole and carry
none.
-/

namespace CronSchedule

open Text

/-- The nicknames and the fields that each of them sets. -/
def nicknameFields : List (String × List (FieldName × String)) :=
  let yearly := [(.minute, "0"), (.hour, "0"), (.dayOfMonth, "1"), (.month, "1")]
  let daily := [(.minute, "0"), (.hour, "0")]
  [("@yearly", yearly), ("@annually", yearly),
    ("@monthly", [(.minute, "0"), (.hour, "0"), (.dayOfMonth, "1")]),
    ("@weekly", [(.minute, "0"), (.hour, "0"), (.dayOfWeek, "SUN")]),
    ("@daily", daily), ("@midnight", daily), ("@hourly", [(.minute, "0")])]

/-- The lower-case letter of an ASCII capital and of the Kelvin sign; any other character stays. No
other character has a lower-case form in ASCII, so this is all that a nickname can tell apart. -/
def lowerChar (c : Char) : Char := if c.toNat = 0x212A then 'k' else c.toLower

namespace Schedule

/-- The text of a field in a schedule given by a nickname: what the nickname sets, the first second
of the minute, and every value elsewhere. -/
def nicknameToken (settings : List (FieldName × String)) (name : FieldName) : List Char :=
  match settings.lookup name with
  | some text => text.toList
  | none => if name = .second then ['0'] else ['*']

/-- The required fields of a schedule given by a nickname. -/
def nicknameExprs (settings : List (FieldName × String)) :
    List FieldDefinition → Except Fault (List Field)
  | [] => .ok []
  | d :: ds =>
    if d.optional then nicknameExprs settings ds
    else do
      let e ← Expr.read d (nicknameToken settings d.name)
      return ⟨d.name, e⟩ :: (← nicknameExprs settings ds)

/-- What a nickname sets, if the dialect knows it. -/
def nickname? (d : Definition) (token : List Char) : Option (List (FieldName × String)) :=
  let name := String.ofList (token.map lowerChar)
  if d.nicknames.contains name then nicknameFields.lookup name else none

/-- Reads and checks the fields of a text, each from its word. A fault carries the word's place.

So does `Fault.numeral` here. The failed conversion that it stands for is no cron error, and reaches
a caller without a place; only a definition whose names are not spelled in letters can lead to it. -/
def readFields (text : List Char) : List Word → List FieldDefinition → Except TextFault (List Field)
  | w :: ws, d :: ds => do
    let e ← (do
      let e ← Expr.read d w.chars
      e.check d
      return e).mapError fun f => ⟨f, some (⟨w.start, w.stop⟩, text)⟩
    return ⟨d.name, e⟩ :: (← readFields text ws ds)
  | _, _ => .ok []

/-- The schedule with the given fields, if it keeps every rule. -/
def validated (d : Definition) (fields : List Field) : Except TextFault Schedule := do
  let s := ofAssignment d (exprIn fields)
  s.validate.mapError fun f => ⟨f, none⟩
  return s

/-- Reads a schedule given by a nickname. -/
def readNickname (d : Definition) (text token : List Char) : Except TextFault Schedule :=
  match nickname? d token with
  | none => .error ⟨.nickname token, some (⟨0, (trimRight text).length⟩, text)⟩
  | some settings => do
    validated d (← (nicknameExprs settings d.fields).mapError fun f => ⟨f, none⟩)

/-- Reads a written schedule of a dialect. -/
def read (d : Definition) (text : List Char) : Except TextFault Schedule :=
  match words text with
  | [] => .error ⟨.emptyText, none⟩
  | w :: ws =>
    if w.chars.head? = some '@' then
      match ws.head?, ws.getLast? with
      | some second, some final =>
        .error ⟨.afterNickname w.chars, some (⟨second.start, final.stop⟩, text)⟩
      | _, _ => readNickname d text w.chars
    else if (ws.length + 1) ∈ d.acceptedLengths then do
      validated d (← readFields text (w :: ws) d.fields)
    else .error ⟨.fieldCount (ws.length + 1) d.acceptedLengths, none⟩

end Schedule

end CronSchedule
