import CronSchedule.Expr.Admit

/-!
# Weekdays in another dialect

`Expr.renumber` writes an expression of the day of the week with the numbers of another dialect.
Each number becomes the one that the other dialect has for the same day. A range may have to change
its form with its numbers: one that covers the whole week becomes the whole week of the other
dialect, and one that would start after it ends, where that is not allowed, ends on an alternate
number of its last day or is split in two.
-/

namespace CronSchedule.Expr

/-- The number that another dialect has for a weekday. -/
def renumberDay (source target : FieldRule) (value : Int) : Int := target.ofIso (source.toIso value)

/-- The integers of a range, unless there are too many to be counted in a signed word of 64 bits. -/
def listed (first last : Int) : Except TimeError (List Int) :=
  if last - first < 9223372036854775807 then .ok (intsBetween first last) else .error .overflow

/-- The numbers of a range, past the greatest number of the field if the range wraps. -/
def rangeValues (r : FieldRule) (first last : Int) : Except TimeError (List Int) :=
  if first ≤ last then listed first last
  else do return (← listed first r.max) ++ (← listed r.min last)

/-- Whether a range of weekdays covers all seven. -/
def coversWeek (r : FieldRule) (first last : Int) : Except TimeError Bool := do
  let days := (← rangeValues r first last).map r.toIso
  return [1, 2, 3, 4, 5, 6, 7].all days.contains

/-- A range, or a single value where the ends are the same. -/
def rangeOrValue (first last : Int) : Expr :=
  if first = last then value first else .between first last

/-- The range between two weekdays in a form that the field allows. -/
def weekdayRange (r : FieldRule) (first last : Int) : Expr :=
  if first ≤ last ∨ !r.strict then .between first last
  else
    match ((r.numerals last).filter fun raw => decide (first < raw)).getLast? with
    | some raw => .between first raw
    | none => .list [rangeOrValue first (r.min + 6), rangeOrValue r.min last]

/-- The weekdays that an expression admits, one by one in the order of their new numbers. -/
def weekdayList (source target : FieldRule) (e : Expr) : Except TimeError Expr := do
  let days ← selectM (fun v => admitsIn source v e) source.values
  let renumbered := days.map (renumberDay source target)
  match (renumbered.mergeSort fun a b => decide (a ≤ b)).eraseDups with
  | [v] => return value v
  | vs => return .list (vs.map value)

/-- Whether an expression is a list. -/
def isList : Expr → Bool
  | .list _ => true
  | _ => false

mutual

/-- An expression of the day of the week in the numbers of another dialect. Where the base of a step
is split in two, no step can run over it, and the days are listed. -/
def renumber (source target : FieldRule) : Expr → Except TimeError Expr
  | .on v n => .ok (.on (renumberDay source target v) n)
  | .between s e => do
    if ← coversWeek source s e then return .between target.min (target.min + 6)
    else return weekdayRange target (renumberDay source target s) (renumberDay source target e)
  | .every base p => do
    let renumbered ← renumber source target base
    if renumbered.isList then weekdayList source target (.every base p)
    else return .every renumbered p
  | .list es => do return .list (← renumberAll source target es)
  | .last (some w) => .ok (.last (some (renumberDay source target w)))
  | .always => .ok .always
  | .question => .ok .question
  | .last none => .ok (.last none)
  | .lastOffset n => .ok (.lastOffset n)
  | .nearestWeekday d => .ok (.nearestWeekday d)

/-- Several expressions of the day of the week in the numbers of another dialect. -/
def renumberAll (source target : FieldRule) : List Expr → Except TimeError (List Expr)
  | [] => .ok []
  | e :: es => do
    let e ← renumber source target e
    return e :: (← renumberAll source target es)

end

end CronSchedule.Expr
