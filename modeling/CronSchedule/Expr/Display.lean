import CronSchedule.Expr.Basic
import CronSchedule.Text.Decimal

/-!
# The written form of an expression

`Expr.chars` writes an expression the way it is read: `5-9/2`, `3#1`, `L-3`, `LW`, members of a list
after commas. Numbers are decimal, without leading zeros; names are never written.
-/

namespace CronSchedule.Expr

open Text (decimal)

mutual

/-- The written form of an expression. -/
def chars : Expr → List Char
  | .always => ['*']
  | .question => ['?']
  | .on v none => decimal v
  | .on v (some n) => decimal v ++ '#' :: decimal n
  | .between s e => decimal s ++ '-' :: decimal e
  | .every base p => chars base ++ '/' :: decimal p
  | .list es => charsAll es
  | .last none => ['L']
  | .last (some w) => decimal w ++ ['L']
  | .lastOffset n => 'L' :: '-' :: decimal n
  | .nearestWeekday none => ['L', 'W']
  | .nearestWeekday (some d) => decimal d ++ ['W']

/-- The written forms of several expressions, with commas between them. -/
def charsAll : List Expr → List Char
  | [] => []
  | [e] => chars e
  | e :: e' :: es => chars e ++ ',' :: charsAll (e' :: es)

end

/-- The written form of an expression as a string. -/
def text (e : Expr) : String := String.ofList e.chars

end CronSchedule.Expr
