import CronSchedule.Proofs.Calendar
import CronSchedule.Proofs.Fields
import CronSchedule.Proofs.Timetable.Sound

/-!
# What a timetable reads of its schedule

A missing field stands for an expression: the first second, minute or hour, and every value of a
coarser field. `Schedule.effective` is the expression of a field or the one that it stands for.

* `Timetable.fires_congr`: **the fire times depend on nothing but the effective expressions** and,
  for the day of the week, the days that the expression means.
-/

namespace CronSchedule

open CronSchedule.Expr

namespace Schedule

variable {s : Schedule} {name : FieldName}

/-- What a missing field stands for. -/
def absentExpr : FieldName → Expr
  | .second | .minute | .hour => .value 0
  | _ => .always

/-- The expression of a field, or the one that a missing field stands for. -/
def effective (s : Schedule) (name : FieldName) : Expr := (s.expr? name).getD (absentExpr name)

/-- No dialect knows the day of the year. -/
theorem expr?_dayOfYear (hD : s.definition ∈ Dialect.all) : s.expr? .dayOfYear = none := by
  have hno : ∀ D ∈ Dialect.all, FieldName.dayOfYear ∉ D.fieldNames := by decide
  cases he : s.expr? .dayOfYear with
  | none => rfl
  | some e => exact absurd (mem_fieldNames_of_expr? he) (hno _ hD)

theorem isUnspecified_eq (s : Schedule) (ha : absentExpr name = .always) :
    s.isUnspecified name = (s.effective name).isUnspecified := by
  rw [isUnspecified, effective, ha]
  cases s.expr? name with
  | none => rfl
  | some e => rfl

/-- What a missing field does not stand for is the expression of a field. -/
theorem expr?_eq_some_iff {e : Expr} (h : e ≠ absentExpr name) :
    s.expr? name = some e ↔ s.effective name = e := by
  rw [effective]
  cases s.expr? name with
  | none => exact iff_of_false nofun h.symm
  | some e' => exact Option.some_inj

theorem expr?_eq_question_iff (ha : absentExpr name = .always) :
    s.expr? name = some .question ↔ s.effective name = .question := by
  refine expr?_eq_some_iff ?_
  rw [ha]
  exact nofun

theorem effective_of_expr? {e : Expr} (h : s.expr? name = some e) : s.effective name = e := by
  rw [effective, h]
  rfl

theorem expr?_of_effective {e : Expr} (h : s.effective name = e) :
    s.expr? name = none ∨ s.expr? name = some e := by
  cases he : s.expr? name with
  | none => exact .inl rfl
  | some e' =>
    rw [effective_of_expr? he] at h
    exact .inr (congrArg some h)

theorem effective_of_not_hasField (h : s.definition.hasField name = false) :
    s.effective name = absentExpr name := by
  rw [effective]
  cases he : s.expr? name with
  | none => rfl
  | some e =>
    rw [hasField_iff.2 (mem_fieldNames_of_expr? he)] at h
    cases h

/-- A field has an expression and a rule, or it is missing. -/
theorem ruled?_cases (s : Schedule) (name : FieldName) :
    (s.ruled? name = none ∧ s.expr? name = none) ∨
      ∃ e d, s.ruled? name = some (e, d.rule) ∧ s.expr? name = some e ∧
        s.definition.field? name = some d := by
  cases he : s.expr? name with
  | none =>
    left
    rw [ruled?, he]
    exact ⟨rfl, rfl⟩
  | some e =>
    right
    obtain ⟨d, hd⟩ := exists_field?_of_mem (mem_fieldNames_of_expr? he)
    rw [ruled?, he, hd]
    exact ⟨e, d, rfl, rfl, rfl⟩

/-- The numbers of a field are those that its effective expression admits. -/
theorem admittedValues_eq (hD : s.definition ∈ Dialect.all) {lo hi : Int}
    (hb : Dialect.bounds? name = some (lo, hi)) {default : List Int}
    (hd : selectM (fun v => admits lo hi v (absentExpr name)) (intsBetween lo hi) = .ok default) :
    s.admittedValues name default =
      selectM (fun v => admits lo hi v (s.effective name)) (intsBetween lo hi) := by
  rw [admittedValues, effective]
  rcases ruled?_cases s name with ⟨hr, he⟩ | ⟨e, d, hr, he, hf⟩
  · rw [hr, he]
    exact hd.symm
  · obtain ⟨hm, hn⟩ := Definition.mem_of_field? hf
    obtain ⟨hmin, hmax⟩ := Dialect.rule_bounds _ hD d hm (lo, hi) (hn ▸ hb)
    simp only at hmin hmax
    rw [hr, he, ← hmin, ← hmax]
    rfl

end Schedule

namespace Timetable

variable {s : Schedule} {t t' : Timetable} {maxYears : Int}

/-- The timetable of a schedule holds the numbers of its fields. -/
theorem of?_eq_ok (h : of? s maxYears = .ok t) :
    t.schedule = s ∧ s.admittedValues .second [0] = .ok t.seconds ∧
      s.admittedValues .minute [0] = .ok t.minutes ∧ s.admittedValues .hour [0] = .ok t.hours ∧
      s.admittedValues .month [1, 2, 3, 4, 5, 6, 7, 8, 9, 10, 11, 12] = .ok t.months := by
  rw [of?, seq_eq_ok_iff, mapError_eq_ok_iff, mapError_eq_ok_iff, ofUnchecked] at h
  have h := h.2
  split at h
  · cases h
  · obtain ⟨seconds, hs, h⟩ := bind_eq_ok_iff.1 h
    obtain ⟨minutes, hm, h⟩ := bind_eq_ok_iff.1 h
    obtain ⟨hours, hh, h⟩ := bind_eq_ok_iff.1 h
    obtain ⟨months, ho, h⟩ := bind_eq_ok_iff.1 h
    cases h
    exact ⟨rfl, hs, hm, hh, ho⟩

theorem admitsYear_eq (hD : t.schedule.definition ∈ Dialect.all) (year : Int) :
    t.admitsYear year = admits 1970 2099 year (t.schedule.effective .year) := by
  rw [admitsYear, Schedule.effective]
  rcases t.schedule.ruled?_cases .year with ⟨hr, he⟩ | ⟨e, d, hr, he, hf⟩
  · rw [hr, he]
    rfl
  · obtain ⟨hm, hn⟩ := Definition.mem_of_field? hf
    obtain ⟨hmin, hmax⟩ := Dialect.rule_bounds _ hD d hm (1970, 2099) (by rw [hn]; rfl)
    simp only at hmin hmax
    rw [hr, he, ← hmin, ← hmax]
    rfl

/-- A field restricts the day if its effective expression does. -/
theorem restricted?_eq {name : FieldName} (ha : Schedule.absentExpr name = .always)
    {d : FieldDefinition} (hd : t.schedule.definition.field? name = some d) :
    t.restricted? name =
      if (t.schedule.effective name).isUnspecified then none
      else some (t.schedule.effective name, d.rule) := by
  rw [restricted?, Schedule.effective]
  rcases t.schedule.ruled?_cases name with ⟨hr, he⟩ | ⟨e, d', hr, he, hf⟩
  · rw [hr, he, ha]
    rfl
  · rw [hd] at hf
    cases hf
    rw [hr, he, Option.getD_some]
    cases hu : e.isUnspecified with
    | true => simp [hu]
    | false => simp [hu]

theorem restricted?_dayOfYear (hD : t.schedule.definition ∈ Dialect.all) :
    t.restricted? .dayOfYear = none := by
  rw [restricted?, Schedule.ruled?, Schedule.expr?_dayOfYear hD]
  rfl

/-- **Schedules whose effective expressions agree fire at the same times**, if their day fields
admit the same days. -/
theorem fires_congr {s s' : Schedule} (hD : s.definition ∈ Dialect.all)
    (hD' : s'.definition ∈ Dialect.all) (ht : of? s maxYears = .ok t) {maxYears' : Int}
    (ht' : of? s' maxYears' = .ok t')
    (he : ∀ name ∈ [FieldName.second, .minute, .hour, .month, .year],
      s'.effective name = s.effective name)
    (hday : ∀ date : Date, date.Valid → t'.admitsDay date = t.admitsDay date) (time : Int) :
    t'.fires time = t.fires time := by
  obtain ⟨rfl, hs, hm, hh, ho⟩ := of?_eq_ok ht
  obtain ⟨rfl, hs', hm', hh', ho'⟩ := of?_eq_ok ht'
  -- the numbers of each field of the clock and of the month agree
  have hsame : ∀ {name : FieldName} {lo hi : Int} {default l l' : List Int},
      name ∈ [FieldName.second, .minute, .hour, .month, .year] →
      Dialect.bounds? name = some (lo, hi) →
      selectM (fun v => admits lo hi v (Schedule.absentExpr name)) (intsBetween lo hi) =
        .ok default →
      t.schedule.admittedValues name default = .ok l →
      t'.schedule.admittedValues name default = .ok l' → l' = l := by
    intro name lo hi default l l' hn hb hd hl hl'
    rw [Schedule.admittedValues_eq hD hb hd] at hl
    rw [Schedule.admittedValues_eq hD' hb hd, he name hn, hl] at hl'
    cases hl'
    rfl
  have hseconds := hsame (by decide) rfl rfl hs hs'
  have hminutes := hsame (by decide) rfl rfl hm hm'
  have hhours := hsame (by decide) rfl rfl hh hh'
  have hmonths := hsame (by decide) rfl rfl ho ho'
  have hyear : ∀ year, t'.admitsYear year = t.admitsYear year := by
    intro year
    rw [admitsYear_eq hD, admitsYear_eq hD', he .year (by decide)]
  simp only [fires, hyear, hday _ (LocalTime.valid_date time), hseconds, hminutes, hhours, hmonths]

end Timetable

end CronSchedule
