/-!
# Diagnostics

An error about a cron text as it is shown to a reader: its kind, its message, and, where the error
belongs to a part of the text, the text with that part underlined.
-/

namespace CronSchedule

/-- The kinds of error. -/
inductive ErrorKind where
  /-- A text that cannot be read. -/
  | parse
  /-- An expression that breaks a rule. -/
  | validation
  /-- A numeral that denotes no number. -/
  | numeral
deriving DecidableEq, Repr

/-- A part of a text, from the character at `start` up to the one before `stop`. -/
structure Span where
  /-- The offset of the first character. -/
  start : Int
  /-- The offset just past the last character. -/
  stop : Int
deriving DecidableEq, Repr

/-- An error with its message and, where it is known, the place in the text. -/
structure Diagnostic where
  /-- What kind of error it is. -/
  kind : ErrorKind
  /-- What is wrong. -/
  message : String
  /-- The part of the text that is wrong. -/
  span : Option Span := none
  /-- The text. -/
  input : Option String := none
deriving DecidableEq, Repr

namespace Diagnostic

/-- An error that belongs to no place in a text. -/
def ofRule (message : String) : Diagnostic := ⟨.validation, message, none, none⟩

/-- So many copies of a character; none for a negative count. -/
def repeated (n : Int) (c : Char) : String := String.ofList (List.replicate n.toNat c)

/-- The message, followed by the text and a line of carets under the part that is wrong, at least
one caret long. Text and carets stand two columns in. An empty text is not shown. -/
def rich (d : Diagnostic) : String :=
  match d.span, d.input with
  | some span, some input =>
    if input.isEmpty then "error: " ++ d.message
    else "error: " ++ d.message ++ "\n  " ++ input ++ "\n" ++
      repeated (span.start + 2) ' ' ++ repeated (max (span.stop - span.start) 1) '^'
  | _, _ => "error: " ++ d.message

end Diagnostic

end CronSchedule
