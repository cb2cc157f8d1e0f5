import CronSchedule.Field.Name

/-!
# Field expressions

`Expr` is the expression of one field of a schedule: which values of the field it selects. This file
holds the type, its equality, and the ways to build an expression.

Expressions are plain data: nothing here asks whether an expression makes sense for a field. That is
`Expr.check`, in `CronSchedule.Expr.Check`.
-/

namespace CronSchedule

/-- The expression of one field. -/
inductive Expr where
  /-- Every value. -/
  | always
  /-- No statement about the day; another field decides. -/
  | question
  /-- One value, or the `nth` weekday of the month with that number. -/
  | on (value : Int) (nth : Option Int)
  /-- A range, which wraps past the end of the field if it starts after it ends. -/
  | between (first last : Int)
  /-- Every `period`-th value of a base, counted from the start of the base. -/
  | every (base : Expr) (period : Int)
  /-- Any of several expressions. -/
  | list (members : List Expr)
  /-- The last day of the month or week, or the last day of the month on a weekday. -/
  | last (weekday : Option Int)
  /-- A number of days before the last day of the month. -/
  | lastOffset (offset : Int)
  /-- The weekday nearest to a day of the month, or to its last day. -/
  | nearestWeekday (day : Option Int)
deriving Repr, Inhabited

namespace Expr

/-! ### Equality -/

mutual

/-- Structural equality of expressions. -/
def same : Expr → Expr → Bool
  | .always, .always => true
  | .question, .question => true
  | .on v n, .on v' n' => v == v' && n == n'
  | .between s e, .between s' e' => s == s' && e == e'
  | .every b p, .every b' p' => same b b' && p == p'
  | .list es, .list es' => sameAll es es'
  | .last w, .last w' => w == w'
  | .lastOffset n, .lastOffset n' => n == n'
  | .nearestWeekday d, .nearestWeekday d' => d == d'
  | _, _ => false

/-- Structural equality of lists of expressions. -/
def sameAll : List Expr → List Expr → Bool
  | [], [] => true
  | e :: es, e' :: es' => same e e' && sameAll es es'
  | _, _ => false

end

mutual

theorem same_self : ∀ e : Expr, same e e = true
  | .always | .question => by simp [same]
  | .on _ _ | .between _ _ | .last _ | .lastOffset _ | .nearestWeekday _ => by simp [same]
  | .every b _ => by simp [same, same_self b]
  | .list es => by simp [same, sameAll_self es]

theorem sameAll_self : ∀ es : List Expr, sameAll es es = true
  | [] => by simp [sameAll]
  | e :: es => by simp [sameAll, same_self e, sameAll_self es]

end

mutual

theorem eq_of_same : ∀ {a b : Expr}, same a b = true → a = b
  | .every b p, y, h => by
    cases y with
    | every b' p' =>
      simp only [same, Bool.and_eq_true, beq_iff_eq] at h
      rw [eq_of_same h.1, h.2]
    | _ => simp [same] at h
  | .list es, y, h => by
    cases y with
    | list es' =>
      simp only [same] at h
      rw [eq_of_sameAll h]
    | _ => simp [same] at h
  | .always, y, h => by cases y <;> simp_all [same]
  | .question, y, h => by cases y <;> simp_all [same]
  | .on v n, y, h => by cases y <;> simp_all [same]
  | .between s e, y, h => by cases y <;> simp_all [same]
  | .last w, y, h => by cases y <;> simp_all [same]
  | .lastOffset n, y, h => by cases y <;> simp_all [same]
  | .nearestWeekday d, y, h => by cases y <;> simp_all [same]

theorem eq_of_sameAll : ∀ {as bs : List Expr}, sameAll as bs = true → as = bs
  | [], [], _ => rfl
  | [], _ :: _, h => by simp [sameAll] at h
  | _ :: _, [], h => by simp [sameAll] at h
  | a :: as, b :: bs, h => by
    simp only [sameAll, Bool.and_eq_true] at h
    rw [eq_of_same h.1, eq_of_sameAll h.2]

end

instance : DecidableEq Expr := fun a b =>
  if h : same a b = true then isTrue (eq_of_same h)
  else isFalse fun hab => h (hab ▸ same_self a)

/-! ### Building expressions -/

/-- One value. -/
def value (v : Int) : Expr := .on v none

/-- The members of a list, and the expression itself if it is no list. -/
def members : Expr → List Expr
  | .list es => es
  | e => [e]

/-- The list of several expressions, in which a member that is a list gives its members. -/
def anyOf (es : List Expr) : Expr := .list (es.flatMap members)

/-- What a step can be built on: a number or an expression. -/
inductive StepBase where
  | number (n : Int)
  | expr (e : Expr)
deriving DecidableEq, Repr

/-- The step over a base. A number without a period is itself the period, over every value; a number
with one is the first value. An expression needs a period, and there is no step without it. -/
def step? : StepBase → Option Int → Option Expr
  | .number p, none => some (.every .always p)
  | .number v, some p => some (.every (value v) p)
  | .expr e, some p => some (.every e p)
  | .expr _, none => none

/-- Whether an expression can carry a step: every value, one value or a range. -/
def isStepBase : Expr → Bool
  | .always | .between _ _ | .on _ none => true
  | _ => false

/-- Whether an expression puts no restriction on the day. -/
def isUnspecified : Expr → Bool
  | .always | .question => true
  | _ => false

end Expr

/-- A field of a schedule: its name and its expression. -/
structure Field where
  /-- Which field it is. -/
  name : FieldName
  /-- The values it selects. -/
  expr : Expr
deriving DecidableEq, Repr

/-- The fields in canonical order; fields of one name keep their order. -/
def Field.sort (fields : List Field) : List Field :=
  fields.mergeSort fun a b => decide (a.name ≤ b.name)

end CronSchedule
