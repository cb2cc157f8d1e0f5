import CronSchedule.Proofs.Days.Special
import CronSchedule.Proofs.Timetable.Effective
import CronSchedule.Proofs.Timetable.Walk

/-!
# Evaluating validated schedules

Whatever a validated schedule is asked has an answer. The numbers of the clock and of the months are
worked out beforehand, and there is one at least of each: a field without signs for days admits some
number with every expression that it allows, be it a wrapping range or a step over one.

* `Expr.exists_admits`: **an expression that such a field allows admits some number of it.**
* `Timetable.exists_numbers`: the numbers that are worked out.
* `Timetable.valid_nearestWorkday`: the working days that a schedule asks for are in the calendar.
* `Timetable.exists_evaluation`: **every question to a validated schedule has an answer.**
-/

namespace CronSchedule

open CronSchedule.Expr

/-- A field with numbers and nothing else: it knows no sign that stands for a day. -/
structure FieldDefinition.IsPlain (d : FieldDefinition) : Prop where
  nonempty : d.rule.min ≤ d.rule.max
  last : d.rule.allowsLast = false
  nth : d.rule.allowsNth = false
  workday : d.rule.allowsWeekday = false
  lastWorkday : d.rule.allowsLastWeekday = false

/-- The fields whose numbers are worked out before anything is asked. -/
def FieldName.plain : List FieldName := [second, minute, hour, month]

theorem Dialect.isPlain {D : Definition} {d : FieldDefinition} (hD : D ∈ all) (hd : d ∈ D.fields)
    (hname : d.name ∈ FieldName.plain) : d.IsPlain := by
  have h : ∀ D ∈ all, ∀ d ∈ D.fields, d.name ∈ FieldName.plain →
      d.rule.min ≤ d.rule.max ∧ d.rule.allowsLast = false ∧ d.rule.allowsNth = false ∧
        d.rule.allowsWeekday = false ∧ d.rule.allowsLastWeekday = false := by decide
  obtain ⟨hle, hlast, hnth, hworkday, hlastWorkday⟩ := h D hD d hd hname
  exact ⟨hle, hlast, hnth, hworkday, hlastWorkday⟩

namespace Expr

variable {d : FieldDefinition} {e : Expr} {lo hi p : Int}

/-! ### Some number is admitted -/

/-- A step admits the first number of its base. -/
theorem stepAdmits_first {base : Expr} {first final : Int} (hp : 1 ≤ p)
    (h : stepRange? lo hi base = some (first, final)) :
    stepAdmits lo hi base p first = .ok true := by
  have hstart : onStep p (first - first) = .ok true := by
    rw [onStep_of_pos hp, Int.sub_self, Int.zero_emod]
    rfl
  rw [stepAdmits, h]
  simp only
  split
  · next hle => rw [if_pos ⟨Int.le_refl first, hle⟩, hstart]
  · rw [if_pos (Int.le_refl first), hstart]

-- a step of zero, which no field allows, has no answer
example : stepAdmits 0 59 .always 0 0 = .error .zeroPeriod := rfl

theorem exists_admits_of_isMember (hd : d.IsPlain) (hm : e.isMember = true)
    (hc : check d e = .ok ()) :
    ∃ v, d.rule.Contains v ∧ admits d.rule.min d.rule.max v e = .ok true := by
  cases e with
  | always => exact ⟨d.rule.min, ⟨Int.le_refl _, hd.nonempty⟩, rfl⟩
  | on v n =>
    cases n with
    | none =>
      refine ⟨v, check_value_iff.1 hc, ?_⟩
      rw [admits, beq_self_eq_true]
    | some n =>
      have hnth := (check_nth_iff.1 hc).2.1
      rw [hd.nth] at hnth
      cases hnth
  | between first final =>
    refine ⟨first, (check_between_iff.1 hc).1, ?_⟩
    rw [admits]
    split
    · next hle => simp [hle]
    · simp
  | every base p =>
    obtain ⟨hbase, hp, hcb⟩ := check_every_iff.1 hc
    obtain ⟨first, final, hrange, hin⟩ := exists_stepRange hd.nonempty hbase hcb
    exact ⟨first, hin, stepAdmits_first hp hrange⟩
  | last w =>
    have hlast : d.rule.allowsLast = true := by
      cases w with
      | none => exact check_last_iff.1 hc
      | some w => exact (check_lastDay_iff.1 hc).1
    rw [hd.last] at hlast
    cases hlast
  | lastOffset n =>
    have hlast := (check_lastOffset_iff.1 hc).1
    rw [hd.last] at hlast
    cases hlast
  | nearestWeekday day =>
    cases day with
    | none =>
      rw [check_lastWorkday_iff, hd.lastWorkday] at hc
      cases hc
    | some day =>
      rw [check_workday_iff, hd.workday] at hc
      cases hc.1
  | question | list => cases hm

/-- **What a field without signs for days allows admits some number of the field.** -/
theorem exists_admits (hd : d.IsPlain) (hc : check d e = .ok ()) :
    ∃ v, d.rule.Contains v ∧ admits d.rule.min d.rule.max v e = .ok true := by
  by_cases hm : e.isMember = true
  · exact exists_admits_of_isMember hd hm hc
  cases e with
  | question => exact ⟨d.rule.min, ⟨Int.le_refl _, hd.nonempty⟩, rfl⟩
  | list es =>
    obtain ⟨hne, hall⟩ := check_list_iff.1 hc
    cases es with
    | nil => exact absurd rfl hne
    | cons e es =>
      -- the first member is enough
      obtain ⟨hme, hce⟩ := hall e List.mem_cons_self
      obtain ⟨v, hv, hadmits⟩ := exists_admits_of_isMember hd hme hce
      refine ⟨v, hv, ?_⟩
      rw [admits, anyAdmits, hadmits]
      rfl
  | _ => exact absurd rfl hm

end Expr

/-- The numbers of a field without signs for days are some at least. -/
theorem Schedule.admittedValues_ne_nil {s : Schedule} {name : FieldName} {default l : List Int}
    (hD : s.definition ∈ Dialect.all) (hv : s.validate = .ok ()) (hname : name ∈ FieldName.plain)
    (hdefault : default ≠ []) (hl : s.admittedValues name default = .ok l) : l ≠ [] := by
  rw [admittedValues] at hl
  cases hr : s.ruled? name with
  | none =>
    rw [hr] at hl
    cases hl
    exact hdefault
  | some q =>
    obtain ⟨e, r⟩ := q
    obtain ⟨d, hm, rfl, rfl, hc⟩ := check_of_ruled? hv hr
    obtain ⟨v, hin, hadmits⟩ := exists_admits (Dialect.isPlain hD hm hname) hc
    have hvalues : e.admittedValues d.rule = .ok _ :=
      selectM_eq_ok_filter fun u _ => eq_ok_isYes (admits_total d.rule.min d.rule.max u hc)
    rw [hr] at hl
    simp only [hvalues] at hl
    cases hl
    apply List.ne_nil_of_mem (a := v)
    rw [List.mem_filter, FieldRule.values, mem_intsBetween, admitsIn, hadmits]
    exact ⟨hin, rfl⟩

namespace Timetable

variable {s : Schedule} {t : Timetable} {D : Definition} {name : FieldName} {l : List Int}
  {maxYears year month day : Int}

/-! ### The numbers that are worked out -/

/-- The numbers of a field that are worked out before anything is asked. -/
def numbers? (t : Timetable) : FieldName → Option (List Int)
  | .second => some t.seconds
  | .minute => some t.minutes
  | .hour => some t.hours
  | .month => some t.months
  | _ => none

/-- The numbers come from the field, or from a default that is not empty. -/
theorem admittedValues_of_numbers? (ht : of? s maxYears = .ok t)
    (hl : t.numbers? name = some l) :
    name ∈ FieldName.plain ∧ ∃ default, default ≠ [] ∧ s.admittedValues name default = .ok l := by
  obtain ⟨-, hseconds, hminutes, hhours, hmonths⟩ := of?_eq_ok ht
  cases name with
  | second =>
    cases hl
    exact ⟨by decide, _, List.cons_ne_nil _ _, hseconds⟩
  | minute =>
    cases hl
    exact ⟨by decide, _, List.cons_ne_nil _ _, hminutes⟩
  | hour =>
    cases hl
    exact ⟨by decide, _, List.cons_ne_nil _ _, hhours⟩
  | month =>
    cases hl
    exact ⟨by decide, _, List.cons_ne_nil _ _, hmonths⟩
  | _ => cases hl

theorem Sound.ascending_of_numbers? (hsound : t.Sound) (hl : t.numbers? name = some l) :
    ∃ lo hi, Dialect.bounds? name = some (lo, hi) ∧ Ascending lo hi l := by
  cases name with
  | second =>
    cases hl
    exact ⟨0, 59, rfl, hsound.seconds⟩
  | minute =>
    cases hl
    exact ⟨0, 59, rfl, hsound.minutes⟩
  | hour =>
    cases hl
    exact ⟨0, 23, rfl, hsound.hours⟩
  | month =>
    cases hl
    exact ⟨1, 12, rfl, hsound.months⟩
  | _ => cases hl

/-- **The numbers of the clock and of the months are some at least**, in ascending order, and numbers
of their field where the dialect has it. -/
theorem exists_numbers (hD : s.definition ∈ Dialect.all) (hv : s.validate = .ok ())
    (ht : of? s maxYears = .ok t) (hsound : t.Sound) (hl : t.numbers? name = some l) :
    l ≠ [] ∧ l.Pairwise (· < ·) ∧
      ∀ d, s.definition.field? name = some d → ∀ v ∈ l, d.rule.Contains v := by
  obtain ⟨hname, default, hdefault, hvalues⟩ := admittedValues_of_numbers? ht hl
  obtain ⟨lo, hi, hb, hpairs, hin⟩ := hsound.ascending_of_numbers? hl
  refine ⟨Schedule.admittedValues_ne_nil hD hv hname hdefault hvalues, hpairs, ?_⟩
  intro d hd v hmem
  obtain ⟨hm, rfl⟩ := Definition.mem_of_field? hd
  obtain ⟨hmin, hmax⟩ := Dialect.rule_bounds _ hD d hm (lo, hi) hb
  have hv' := hin v hmem
  unfold FieldRule.Contains
  simp only at hmin hmax
  omega

/-! ### The dates that are looked up -/

/-- The last working day of a month is in the calendar. -/
theorem valid_lastWorkday (hmonth : 1 ≤ month ∧ month ≤ 12) (year : Int) :
    (Date.mk year month (lastWorkday year month)).Valid := by
  have hlong := daysInMonth_bounds year month
  rw [lastWorkday_eq_nearestWorkday]
  exact ⟨hmonth, (isClosestWorkday_nearestWorkday (by omega)).1.1⟩

/-- A day to which a valid schedule wants the nearest working day is in the calendar, unless the
month is too short for it, and so is the working day. -/
theorem valid_nearestWorkday (hD : s.definition ∈ Dialect.all) (hv : s.validate = .ok ()) {e : Expr}
    (he : s.expr? .dayOfMonth = some e) (hday : .nearestWeekday (some day) ∈ e.members)
    (hmonth : 1 ≤ month ∧ month ≤ 12) (hshort : day ≤ daysInMonth year month) :
    (Date.mk year month day).Valid ∧
      (Date.mk year month (nearestWorkday year month day)).Valid := by
  obtain ⟨d, hd⟩ := Schedule.exists_field?_of_mem (Schedule.mem_fieldNames_of_expr? he)
  obtain ⟨hm, hn⟩ := Definition.mem_of_field? hd
  have hc := (Schedule.validate_eq_ok_iff.1 hv).1 d hm e (hn ▸ he)
  have hin := (check_workday_iff.1 (check_of_mem_members hc hday)).2
  have hmin := (Dialect.rule_bounds _ hD d hm (1, 31) (by rw [hn]; rfl)).1
  have hfirst : 1 ≤ day := Int.le_trans (Int.le_of_eq hmin.symm) hin.1
  exact ⟨⟨hmonth, hfirst, hshort⟩,
    hmonth, (isClosestWorkday_nearestWorkday ⟨hfirst, hshort⟩).1.1⟩

/-! ### Every question has an answer -/

/-- **Every question to a validated schedule of one of the four dialects has an answer.** There is a
second, a minute, an hour and a month at least, in order and within the field; whether a year, a
date or a local time is admitted is decided without a failure, and the working days that are looked
up on the way are dates of the calendar. -/
theorem exists_evaluation (hD : D ∈ Dialect.all) (hs : s.definition = D) (hv : s.validate = .ok ())
    (hn : 1 ≤ maxYears) :
    ∃ t, of? s maxYears = .ok t ∧
      (∀ name l, t.numbers? name = some l → l ≠ [] ∧ l.Pairwise (· < ·) ∧
        ∀ d, D.field? name = some d → ∀ v ∈ l, d.rule.Contains v) ∧
      (∀ year, ∃ b, t.admitsYear year = .ok b) ∧ (∀ date, ∃ b, t.admitsDay date = .ok b) ∧
      (∀ time, ∃ b, t.fires time = .ok b) ∧
      ∀ year month, 1 ≤ month ∧ month ≤ 12 →
        (Date.mk year month (lastWorkday year month)).Valid ∧
        ∀ e, s.expr? .dayOfMonth = some e → ∀ day, .nearestWeekday (some day) ∈ e.members →
          day ≤ daysInMonth year month →
            (Date.mk year month day).Valid ∧
              (Date.mk year month (nearestWorkday year month day)).Valid := by
  subst hs
  obtain ⟨t, ht, -, -, hsound⟩ := exists_of_validate hD hv hn
  refine ⟨t, ht, ?_, hsound.year, hsound.day, fun time => ⟨_, fires_eq hsound time⟩, ?_⟩
  · intro name l hl
    exact exists_numbers hD hv ht hsound hl
  · intro year month hmonth
    refine ⟨valid_lastWorkday hmonth year, ?_⟩
    intro e he day hday hshort
    exact valid_nearestWorkday hD hv he hday hmonth hshort

/-- At seven seconds apart across the turn of the minute, in hours that wrap with a step past the
end of the day, on the working day nearest to the 31st and on the last one of the month. -/
def aroundTheTurn : Schedule :=
  .ofAssignment Dialect.quartz fun
    | .second => some (.every (.between 50 10) 7)
    | .minute => some (.between 59 0)
    | .hour => some (.list [.value 12, .every (.between 22 2) 30])
    | .dayOfMonth => some (.list [.nearestWeekday (some 31), .nearestWeekday none])
    | .month => some (.every .always 11)
    | .dayOfWeek => some .question
    | _ => none

theorem exists_evaluation_aroundTheTurn :
    aroundTheTurn.validate = .ok () ∧
      ∃ t, of? aroundTheTurn defaultYears = .ok t ∧ t.seconds = [4, 50, 57] ∧
        t.hours = [12, 22] ∧ t.months = [1, 12] ∧ (∀ time, ∃ b, t.fires time = .ok b) ∧
          (Date.mk 2023 12 (nearestWorkday 2023 12 31)).Valid := by
  have hv : aroundTheTurn.validate = .ok () := by rfl
  obtain ⟨t, ht, -, -, -, hfires, hdates⟩ :=
    exists_evaluation Dialect.quartz_mem_all rfl hv (by decide : 1 ≤ defaultYears)
  obtain ⟨-, hnearest⟩ := hdates 2023 12 (by decide)
  have hlast := hnearest _ rfl 31 List.mem_cons_self (by decide)
  have hof : of? aroundTheTurn defaultYears =
      .ok ⟨aroundTheTurn, defaultYears, [4, 50, 57], [0, 59], [12, 22], [1, 12]⟩ := by rfl
  rw [hof] at ht
  cases ht
  exact ⟨hv, _, hof, rfl, rfl, rfl, hfires, hlast.2⟩

end Timetable

end CronSchedule
