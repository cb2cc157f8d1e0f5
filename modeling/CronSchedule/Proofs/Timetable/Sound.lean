import CronSchedule.Proofs.Accepted
import CronSchedule.Proofs.Fields
import CronSchedule.Timetable.Basic

/-!
# Timetables of validated schedules

* `Schedule.validate_eq_ok_iff`: what a validated schedule keeps.
* `Timetable.exists_of_validate`: **a validated schedule of one of the four dialects has
  a timetable, and the timetable is sound**: its clock numbers are those of a clock, in
  order, and every question about a year or a date has an answer.
-/

namespace CronSchedule

open CronSchedule.Expr

/-- Strictly ascending numbers within bounds. -/
def Ascending (lo hi : Int) (l : List Int) : Prop :=
  l.Pairwise (· < ·) ∧ ∀ v ∈ l, lo ≤ v ∧ v ≤ hi

namespace Schedule

variable {s : Schedule}

theorem checkFields_eq_ok_iff {ds : List FieldDefinition} :
    s.checkFields ds = .ok () ↔ ∀ d ∈ ds, ∀ e, s.expr? d.name = some e → e.check d = .ok () := by
  induction ds with
  | nil => simp [checkFields]
  | cons d ds ih =>
    cases he : s.expr? d.name with
    | none => simpa [checkFields, he] using ih
    | some e => simp [checkFields, he, ih, seq_eq_ok_iff]

theorem checkConstraints_eq_ok_iff {cs : List Constraint} :
    s.checkConstraints cs = .ok () ↔ ∀ c ∈ cs, s.satisfies c = true := by
  induction cs with
  | nil => simp [checkConstraints]
  | cons c cs ih =>
    rw [checkConstraints]
    split
    · next h => simp [ih, h]
    · next h => simp [h]

/-- A schedule is valid if and only if each field allows its expression and the fields go
together. -/
theorem validate_eq_ok_iff :
    s.validate = .ok () ↔
      (∀ d ∈ s.definition.fields, ∀ e, s.expr? d.name = some e → e.check d = .ok ()) ∧
        ∀ c ∈ s.definition.constraints, s.satisfies c = true := by
  rw [validate, seq_eq_ok_iff, checkFields_eq_ok_iff, checkConstraints_eq_ok_iff]

/-- The expression of a field of a valid schedule is one that the field allows. -/
theorem check_of_ruled? (hv : s.validate = .ok ()) {name : FieldName} {e : Expr} {r : FieldRule}
    (h : s.ruled? name = some (e, r)) :
    ∃ d ∈ s.definition.fields, d.name = name ∧ d.rule = r ∧ e.check d = .ok () := by
  unfold ruled? at h
  split at h
  · rename_i e' d he hd
    obtain ⟨rfl, rfl⟩ : e' = e ∧ d.rule = r := by simpa using h
    obtain ⟨hm, hn⟩ := Definition.mem_of_field? hd
    exact ⟨d, hm, hn, rfl, (validate_eq_ok_iff.1 hv).1 d hm e' (hn ▸ he)⟩
  · simp at h

/-- The numbers of a field are worked out, in ascending order and within the field. -/
theorem admittedValues_of_validate (hD : s.definition ∈ Dialect.all) (hv : s.validate = .ok ())
    (name : FieldName) (default : List Int) {lo hi : Int}
    (hb : Dialect.bounds? name = some (lo, hi)) (hd : Ascending lo hi default) :
    ∃ l, s.admittedValues name default = .ok l ∧ Ascending lo hi l := by
  unfold admittedValues
  cases hr : s.ruled? name with
  | none => exact ⟨default, rfl, hd⟩
  | some p =>
    obtain ⟨e, r⟩ := p
    obtain ⟨d, hm, rfl, rfl, hc⟩ := check_of_ruled? hv hr
    obtain ⟨hmin, hmax⟩ := Dialect.rule_bounds _ hD d hm (lo, hi) hb
    refine ⟨_, selectM_eq_ok_filter fun v _ => eq_ok_isYes (admits_total _ _ v hc), ?_, ?_⟩
    · exact (pairwise_intsBetween _ _).filter _
    · intro v hv'
      have := (List.mem_filter.1 hv').1
      rw [FieldRule.values, mem_intsBetween] at this
      simp only at hmin hmax
      omega

end Schedule

namespace Timetable

/-- A timetable whose lists are those of a clock and a calendar and whose questions have
answers. -/
structure Sound (t : Timetable) : Prop where
  maxYears : 1 ≤ t.maxYears
  seconds : Ascending 0 59 t.seconds
  minutes : Ascending 0 59 t.minutes
  hours : Ascending 0 23 t.hours
  months : Ascending 1 12 t.months
  year : ∀ year, ∃ b, t.admitsYear year = .ok b
  day : ∀ date, ∃ b, t.admitsDay date = .ok b

variable {s : Schedule} {t : Timetable}

/-- A field that restricts the day has an expression that the field allows. -/
theorem check_of_restricted? (hv : t.schedule.validate = .ok ()) {name : FieldName} {e : Expr}
    {r : FieldRule} (h : t.restricted? name = some (e, r)) :
    ∃ d ∈ t.schedule.definition.fields, d.name = name ∧ d.rule = r ∧ e.check d = .ok () :=
  Schedule.check_of_ruled? hv (Option.filter_eq_some_iff.1 h).1

theorem admitsYear_total (hv : t.schedule.validate = .ok ()) (year : Int) :
    ∃ b, t.admitsYear year = .ok b := by
  unfold admitsYear
  cases hr : t.schedule.ruled? .year with
  | none => exact ⟨true, rfl⟩
  | some p =>
    obtain ⟨d, -, -, -, hc⟩ := Schedule.check_of_ruled? hv hr
    exact admits_total _ _ year hc

theorem admitsMonthOrWeekDay_total (hD : t.schedule.definition ∈ Dialect.all)
    (hv : t.schedule.validate = .ok ()) (date : Date) :
    ∃ b, t.admitsMonthOrWeekDay date = .ok b := by
  have hdom : ∀ e r, t.restricted? .dayOfMonth = some (e, r) →
      ∃ b, e.admitsMonthDay r date = .ok b := by
    intro e r h
    obtain ⟨d, hm, hn, -, hc⟩ := check_of_restricted? hv h
    have := Dialect.rule_bounds _ hD d hm (1, 31) (by rw [hn]; rfl)
    exact admitsMonthDay_total (by omega) date hc
  have hdow : ∀ e r, t.restricted? .dayOfWeek = some (e, r) →
      ∃ b, e.admitsWeekday r date = .ok b := by
    intro e r h
    obtain ⟨d, -, -, -, hc⟩ := check_of_restricted? hv h
    exact admitsWeekday_total r date hc
  unfold admitsMonthOrWeekDay
  cases hm : t.restricted? .dayOfMonth with
  | none =>
    cases hw : t.restricted? .dayOfWeek with
    | none => exact ⟨true, rfl⟩
    | some w => exact hdow _ _ hw
  | some m =>
    cases hw : t.restricted? .dayOfWeek with
    | none => exact hdom _ _ hm
    | some w =>
      obtain ⟨b, hb⟩ := hdom _ _ hm
      obtain ⟨b', hb'⟩ := hdow _ _ hw
      cases b with
      | true => exact ⟨true, by simp [hb, bind, Except.bind, pure, Except.pure]⟩
      | false => exact ⟨b', by simp [hb, hb', bind, Except.bind]⟩

theorem admitsDay_total (hD : t.schedule.definition ∈ Dialect.all)
    (hv : t.schedule.validate = .ok ()) (date : Date) : ∃ b, t.admitsDay date = .ok b := by
  have hd := admitsMonthOrWeekDay_total hD hv date
  unfold admitsDay
  cases hy : t.restricted? .dayOfYear with
  | none => exact hd
  | some p =>
    obtain ⟨d, -, -, -, hc⟩ := check_of_restricted? hv hy
    obtain ⟨b, hb⟩ := admits_total p.2.min p.2.max date.yearDay hc
    cases b with
    | true => simpa [admitsIn, hb, bind, Except.bind] using hd
    | false => exact ⟨false, by simp [admitsIn, hb, bind, Except.bind, pure, Except.pure]⟩

/-- **A validated schedule has a sound timetable.** -/
theorem exists_of_validate (hD : s.definition ∈ Dialect.all) (hv : s.validate = .ok ()) {n : Int}
    (hn : 1 ≤ n) :
    ∃ t, Timetable.of? s n = .ok t ∧ t.schedule = s ∧ t.maxYears = n ∧ t.Sound := by
  have hzero : ∀ hi : Int, 0 ≤ hi → Ascending 0 hi [0] := by
    intro hi h
    simp [Ascending, h]
  obtain ⟨seconds, hs, hs'⟩ := Schedule.admittedValues_of_validate hD hv .second [0] rfl
    (hzero 59 (by decide))
  obtain ⟨minutes, hm, hm'⟩ := Schedule.admittedValues_of_validate hD hv .minute [0] rfl
    (hzero 59 (by decide))
  obtain ⟨hours, hh, hh'⟩ := Schedule.admittedValues_of_validate hD hv .hour [0] rfl
    (hzero 23 (by decide))
  obtain ⟨months, ho, ho'⟩ := Schedule.admittedValues_of_validate hD hv .month
    [1, 2, 3, 4, 5, 6, 7, 8, 9, 10, 11, 12] rfl ⟨by decide, by decide⟩
  refine ⟨⟨s, n, seconds, minutes, hours, months⟩, ?_, rfl, rfl, ?_⟩
  · rw [of?, seq_eq_ok_iff, mapError_eq_ok_iff, mapError_eq_ok_iff]
    refine ⟨hv, ?_⟩
    rw [ofUnchecked, if_neg (by omega), hs, hm, hh, ho]
    rfl
  · exact ⟨hn, hs', hm', hh', ho', fun y => admitsYear_total hv y, fun d => admitsDay_total hD hv d⟩

theorem sound_of_validate (hD : s.definition ∈ Dialect.all) (hv : s.validate = .ok ()) {n : Int}
    (hn : 1 ≤ n) (ht : of? s n = .ok t) : t.maxYears = n ∧ t.Sound := by
  obtain ⟨t', ht', -, hmax, hsound⟩ := exists_of_validate hD hv hn
  obtain rfl := Except.ok.inj (ht'.symm.trans ht)
  exact ⟨hmax, hsound⟩

end Timetable

end CronSchedule
