import CronSchedule.Proofs.Translation.Draft

/-!
# Translation into the same dialect

Within one dialect a schedule is written anew: a weekday loses its other number, a range over the
whole week starts at the start of the week, and the day fields are reconciled. A range keeps its
form, so a valid schedule is always translated to a valid one. Where both day fields are restricted
and the dialect knows the question mark for both, the day of the week gets it, and the schedule
fires on the days of the month only.

* `Expr.exists_check_renumber_self`: renumbering succeeds, with an expression that the field allows.
* `Schedule.exists_translate`: the translation succeeds, with a valid schedule.
* `Schedule.days_translate_self`: the day fields are those of `Schedule.daysSettled`.
* `Timetable.isMatch_translate_self`: **the translated schedule fires with the settled one** if the
  days of its steps are kept.
* `Timetable.isMatch_fridayMidnight`: a schedule that loses fire times.
-/

namespace CronSchedule

namespace Expr

variable {r : FieldRule} {d : FieldDefinition} {x : Expr} {s e v : Int}

/-! ### Numbers of the same week -/

/-- In its own week a number becomes the one that it is another way to write. -/
theorem renumberDay_self (hr : r.Consecutive) (hv : r.Contains v) :
    renumberDay r r v = r.normalize v :=
  ((hr.normalize_eq_ofIso_iff hv (hr.toIso_bounds v)).2 rfl).symm

/-- In its own week no range is split. -/
theorem isList_weekdayRange_self (hr : r.Consecutive) (hs : r.Contains s) (he : r.Contains e)
    (hord : r.strict = false ∨ s ≤ e) :
    (weekdayRange r (renumberDay r r s) (renumberDay r r e)).isList = false := by
  obtain ⟨hs1, hs2, -⟩ := renumberDay_spec hr hr s
  obtain ⟨he1, he2, heday⟩ := renumberDay_spec hr hr e
  rw [Bool.eq_false_iff, Ne, isList_weekdayRange_iff hr ⟨hs1, hs2⟩ ⟨he1, he2⟩]
  rintro ⟨hstrict, hwrap, hlast⟩
  -- the last number itself is one that does not come before the first
  have hle := hlast e he heday.symm
  have hse : s ≤ e := by
    rcases hord with h | h
    · rw [hstrict] at h
      cases h
    · exact h
  rw [renumberDay_self hr hs, renumberDay_self hr he] at hwrap
  rw [renumberDay_self hr hs] at hle
  unfold FieldRule.Contains at hs he
  have hs' := hr.normalize_eq s
  have he' := hr.normalize_eq e
  have heq : s = e := by omega
  rw [heq] at hwrap
  omega

/-- In its own week the base of a step stays one. -/
theorem isList_renumber_base (hr : d.rule.Consecutive) (hx : x.isStepBase = true)
    (hc : check d x = .ok ()) {y : Expr} (h : renumber d.rule d.rule x = .ok y) :
    y.isList = false := by
  cases x with
  | between s e =>
    obtain ⟨hs, he, hord⟩ := check_between_iff.1 hc
    rw [renumber_between d.rule hr hs he] at h
    split at h
    · cases h
      rfl
    · cases h
      exact isList_weekdayRange_self hr hs he hord
  | always | on =>
    cases h
    rfl
  | _ => cases hx

/-- In its own week no member of a list becomes a list. -/
theorem staysFlat_self (hd : d.IsWeekday) (hc : check d x = .ok ()) :
    StaysFlat d.rule d.rule x := by
  apply staysFlat_of_base hd hd hc
  intro z y hz hcz hy
  exact isList_renumber_base hd.consecutive hz hcz hy

/-- **In the same dialect renumbering succeeds**, with an expression that the field allows. -/
theorem exists_check_renumber_self (hd : d.IsWeekday) (hc : check d x = .ok ()) :
    ∃ y, renumber d.rule d.rule x = .ok y ∧ check d y = .ok () := by
  obtain ⟨y, hy⟩ := exists_renumber hd hd hc
  refine ⟨y, hy, (check_renumber_iff hd hd hc hy).2 ⟨?_, staysFlat_self hd hc⟩⟩
  rintro rfl
  exact check_question_iff.1 hc

end Expr

open CronSchedule.Expr

namespace Schedule

variable {s : Schedule} {D : Definition} {d : FieldDefinition} {name : FieldName} {fs : List Field}
  {dom dow e : Expr}

/-! ### The translation succeeds -/

theorem settleQuestion_of_check (hd : D.field? name = some d) (hc : check d e = .ok ()) :
    settleQuestion D name e = e := by
  rw [settleQuestion]
  split
  · next h =>
    simp only [Bool.and_eq_true, decide_eq_true_eq, Bool.not_eq_true'] at h
    rw [h.1, check_question_iff, allowsQuestion_of_knowsQuestion hd, h.2] at hc
    cases hc
  · rfl

/-- A schedule that has a question mark among its day fields keeps both. -/
theorem reconcileDays_of_question {md wd : FieldDefinition} (hmd : D.field? .dayOfMonth = some md)
    (hwd : D.field? .dayOfWeek = some wd) (hdom : check md dom = .ok ())
    (hdow : check wd dow = .ok ())
    (hq : s.effective .dayOfMonth = .question ∨ s.effective .dayOfWeek = .question) :
    reconcileDays D s dom dow = (dom, dow) := by
  rw [← expr?_eq_question_iff rfl, ← expr?_eq_question_iff rfl] at hq
  have hmark : (s.expr? .dayOfMonth == some .question || s.expr? .dayOfWeek == some .question) =
      true := by
    rw [Bool.or_eq_true, beq_iff_eq, beq_iff_eq]
    exact hq
  rw [reconcileDays, hmark]
  simp only [Bool.not_true, Bool.and_false, Bool.false_eq_true, if_false,
    settleQuestion_of_check hmd hdom, settleQuestion_of_check hwd hdow]

theorem isUnspecified_dayOfYear (hD : s.definition ∈ Dialect.all) :
    s.isUnspecified .dayOfYear = true := by
  rw [isUnspecified, expr?_dayOfYear hD]

/-- Reconciling the day fields violates no constraint that they kept. -/
theorem satisfies_reconciled {t : Schedule} (hD : s.definition ∈ Dialect.all)
    (hD' : t.definition ∈ Dialect.all) {md wd : FieldDefinition}
    (hmd : D.field? .dayOfMonth = some md) (hwd : D.field? .dayOfWeek = some wd)
    (hcm : check md (s.effective .dayOfMonth) = .ok ()) (hcw : check wd e = .ok ())
    (hren : renumber wd.rule wd.rule (s.effective .dayOfWeek) = .ok e)
    (hdom : t.effective .dayOfMonth = (reconcileDays D s (s.effective .dayOfMonth) e).1)
    (hdow : t.effective .dayOfWeek = (reconcileDays D s (s.effective .dayOfMonth) e).2)
    {c : Constraint} (hc : c = .oneDayField ∨ c = .questionMark) (hs : s.satisfies c = true) :
    t.satisfies c = true := by
  rcases hc with rfl | rfl
  · rw [satisfies, isUnspecified_dayOfYear hD] at hs
    rw [satisfies, isUnspecified_dayOfYear hD']
    simp only [Bool.not_true, Bool.false_or, Bool.or_eq_true] at hs ⊢
    rw [isUnspecified_eq s rfl, isUnspecified_eq s rfl, ← isUnspecified_renumber hren] at hs
    rw [isUnspecified_eq t rfl, isUnspecified_eq t rfl]
    obtain ⟨ham, haw⟩ := reconcileDays_alike D s fun _ _ => hs
    rw [hdom, hdow, ham.isUnspecified_eq, haw.isUnspecified_eq]
    exact hs
  · rw [satisfies, Bool.or_eq_true, beq_iff_eq, beq_iff_eq, expr?_eq_question_iff rfl,
      expr?_eq_question_iff rfl] at hs ⊢
    rw [reconcileDays_of_question hmd hwd hcm hcw hs] at hdom hdow
    rw [hdom, hdow]
    rcases hs with hs | hs
    · exact .inl hs
    · rw [hs] at hren
      cases hren
      exact .inr rfl

/-- **A valid schedule is translated into its own dialect**, and the result is valid. -/
theorem exists_translate (hD : s.definition ∈ Dialect.all) (hv : s.validate = .ok ()) :
    ∃ t, translate s.definition s.definition s = .ok t := by
  obtain ⟨t, ht⟩ := exists_draft hD hD hv
  obtain ⟨wd, wd', e, hwd, hwd', hren, hdom, hdow⟩ := ht.effective_days hD hD
  rw [hwd] at hwd'
  cases hwd'
  obtain ⟨md, hmd, -⟩ := Dialect.exists_required_field _ hD .dayOfMonth (by decide)
  have hcm := check_effective hD hv hmd
  obtain ⟨e', hren', hce⟩ :=
    exists_check_renumber_self (Dialect.isWeekday hD hwd) (check_effective hD hv hwd)
  rw [hren] at hren'
  cases hren'
  have hcm' : check md (t.effective .dayOfMonth) = .ok () := by
    rw [hdom]
    exact check_reconcileDays_fst hmd (check_settleQuestion hcm)
  have hcw' : check wd (t.effective .dayOfWeek) = .ok () := by
    rw [hdow]
    exact check_reconcileDays_snd hwd (check_settleQuestion hce)
  have hdef := ht.definition_eq
  have hD' := hdef.symm ▸ hD
  have hvt : t.validate = .ok () := by
    rw [validate_iff_effective hD', hdef]
    constructor
    · intro d hd
      have hfield := Definition.field?_of_mem hd
      by_cases hm : d.name = .dayOfMonth
      · rw [hm, hmd] at hfield
        cases hfield
        rw [hm]
        exact hcm'
      by_cases hw : d.name = .dayOfWeek
      · rw [hw, hwd] at hfield
        cases hfield
        rw [hw]
        exact hcw'
      rw [ht.effective_eq hD hm hw (hasField_iff.2 (List.mem_map_of_mem hd))]
      exact check_effective hD hv hfield
    · intro c hc
      exact satisfies_reconciled hD hD' hmd hwd hcm hce hren hdom hdow
        (Dialect.mem_constraints _ hD c hc) ((validate_eq_ok_iff.1 hv).2 c hc)
  exact ⟨t, ht.translate_eq_ok_iff.2 ⟨rfl, hvt⟩⟩

/-! ### The day fields -/

/-- Whether both day fields are restricted in a dialect that knows the question mark for both. -/
def daysCompete (s : Schedule) : Bool :=
  knowsQuestion s.definition .dayOfMonth && knowsQuestion s.definition .dayOfWeek &&
    !s.isUnspecified .dayOfMonth && !s.isUnspecified .dayOfWeek

/-- The schedule with a question mark for the day of the week. -/
def byMonthDay (s : Schedule) : Schedule :=
  ofAssignment s.definition fun name =>
    if name = .dayOfWeek then some .question else s.expr? name

/-- The schedule with the question mark where it belongs: the day of the week gives way to the day
of the month if they compete. -/
def daysSettled (s : Schedule) : Schedule := if s.daysCompete then s.byMonthDay else s

/-- Every step over weekdays in a schedule means the same days in the numbers that it gets within
its own dialect. -/
def StepsKept (s : Schedule) : Prop :=
  ∀ d, s.definition.field? .dayOfWeek = some d → ∀ base p,
    .every base p ∈ (s.effective .dayOfWeek).members → StepKept d.rule d.rule p base

theorem daysSettled_definition (s : Schedule) : s.daysSettled.definition = s.definition := by
  rw [daysSettled]
  split
  · rfl
  · rfl

theorem byMonthDay_expr?_of_ne (hname : name ≠ .dayOfWeek) :
    s.byMonthDay.expr? name = s.expr? name := by
  rw [byMonthDay, expr?_ofAssignment, if_neg hname]
  split
  · rfl
  · next hno =>
    cases he : s.expr? name with
    | none => rfl
    | some e => exact absurd (mem_fieldNames_of_expr? he) hno

theorem byMonthDay_expr?_dayOfWeek (hD : s.definition ∈ Dialect.all) :
    s.byMonthDay.expr? .dayOfWeek = some .question := by
  obtain ⟨d, hd, -⟩ := Dialect.exists_required_field _ hD .dayOfWeek (by decide)
  obtain ⟨hm, hn⟩ := Definition.mem_of_field? hd
  have hmem : FieldName.dayOfWeek ∈ s.definition.fieldNames := hn ▸ List.mem_map_of_mem hm
  rw [byMonthDay, expr?_ofAssignment, if_pos hmem, if_pos rfl]

theorem daysSettled_effective_of_ne (hname : name ≠ .dayOfWeek) :
    s.daysSettled.effective name = s.effective name := by
  rw [daysSettled]
  split
  · rw [effective, effective, byMonthDay_expr?_of_ne hname]
  · rfl

theorem validate_byMonthDay (hD : s.definition ∈ Dialect.all) (hv : s.validate = .ok ())
    (hq : knowsQuestion s.definition .dayOfWeek = true) : s.byMonthDay.validate = .ok () := by
  obtain ⟨hfields, -⟩ := validate_eq_ok_iff.1 hv
  rw [validate_eq_ok_iff]
  constructor
  · intro d hd e he
    by_cases hw : d.name = .dayOfWeek
    · have hfield := Definition.field?_of_mem hd
      rw [hw] at hfield
      rw [hw, byMonthDay_expr?_dayOfWeek hD] at he
      cases he
      exact check_question_iff.2 ((allowsQuestion_of_knowsQuestion hfield).trans hq)
    · rw [byMonthDay_expr?_of_ne hw] at he
      exact hfields d hd e he
  · intro c hc
    rcases Dialect.mem_constraints _ hD c hc with rfl | rfl
    · have hw : s.byMonthDay.isUnspecified .dayOfWeek = true := by
        rw [isUnspecified, byMonthDay_expr?_dayOfWeek hD]
        rfl
      rw [satisfies, hw, Bool.or_true]
    · rw [satisfies, byMonthDay_expr?_dayOfWeek hD, beq_self_eq_true, Bool.or_true]

theorem validate_daysSettled (hD : s.definition ∈ Dialect.all) (hv : s.validate = .ok ()) :
    s.daysSettled.validate = .ok () := by
  rw [daysSettled]
  split
  · next h =>
    simp only [daysCompete, Bool.and_eq_true] at h
    exact validate_byMonthDay hD hv h.1.1.2
  · exact hv

/-- Where the day fields compete, the day of the week gets the question mark. -/
theorem reconcileDays_of_compete (hc : s.daysCompete = true) :
    reconcileDays s.definition s (s.effective .dayOfMonth) e =
      (settleQuestion s.definition .dayOfMonth (s.effective .dayOfMonth),
        settleQuestion s.definition .dayOfWeek .question) := by
  simp only [daysCompete, Bool.and_eq_true, Bool.not_eq_true'] at hc
  obtain ⟨⟨⟨hm, hw⟩, hum⟩, huw⟩ := hc
  rw [isUnspecified_eq s rfl] at hum huw
  have hno : (s.expr? .dayOfMonth == some .question || s.expr? .dayOfWeek == some .question) =
      false := by
    rw [Bool.or_eq_false_iff, beq_eq_false_iff_ne, beq_eq_false_iff_ne]
    constructor
    · intro hq
      rw [(expr?_eq_question_iff rfl).1 hq] at hum
      cases hum
    · intro hq
      rw [(expr?_eq_question_iff rfl).1 hq] at huw
      cases huw
  rw [reconcileDays, hm, hw, hno, hum]
  rfl

/-- **Within one dialect the day fields put the restrictions of the settled schedule.** -/
theorem days_translate_self (hD : s.definition ∈ Dialect.all) {t : Schedule}
    (h : translate s.definition s.definition s = .ok t) :
    Alike (t.effective .dayOfMonth) (s.daysSettled.effective .dayOfMonth) ∧
      ∃ d e, s.definition.field? .dayOfWeek = some d ∧
        renumber d.rule d.rule (s.daysSettled.effective .dayOfWeek) = .ok e ∧
        Alike (t.effective .dayOfWeek) e := by
  obtain ⟨fs, hfs, ht, -⟩ := translate_eq_ok h
  obtain ⟨d, d', e, hd, hd', hren, hdom, hdow⟩ := effective_reconciled_days hD hD hfs ht
  rw [hd] at hd'
  cases hd'
  rw [daysSettled_effective_of_ne (by decide), hdom, hdow]
  cases hc : s.daysCompete with
  | false =>
    have hone : knowsQuestion s.definition .dayOfMonth = true →
        knowsQuestion s.definition .dayOfWeek = true →
        (s.effective .dayOfMonth).isUnspecified = true ∨ e.isUnspecified = true := by
      intro hm hw
      rw [isUnspecified_renumber hren, ← isUnspecified_eq s rfl, ← isUnspecified_eq s rfl]
      rw [daysCompete, hm, hw] at hc
      cases hum : s.isUnspecified .dayOfMonth with
      | true => exact .inl rfl
      | false => exact .inr (by simpa [hum] using hc)
    obtain ⟨ham, haw⟩ := reconcileDays_alike s.definition s hone
    refine ⟨ham, d, e, hd, ?_, haw⟩
    rw [daysSettled, hc]
    exact hren
  | true =>
    -- the day of the week gets the question mark, as in the settled schedule
    have hsettled : s.daysSettled.effective .dayOfWeek = .question := by
      rw [daysSettled, hc, if_pos rfl, effective, byMonthDay_expr?_dayOfWeek hD]
      rfl
    rw [reconcileDays_of_compete hc, hsettled]
    exact ⟨settleQuestion_alike _ _ _, d, .question, hd, rfl, settleQuestion_alike _ _ _⟩

/-- Steps that are kept admit the dates that they admitted. -/
theorem StepsKept.keepsSteps (hD : s.definition ∈ Dialect.all) (hv : s.validate = .ok ())
    (h : s.StepsKept) (hd : s.definition.field? .dayOfWeek = some d) {date : Date}
    (hdate : date.Valid) :
    KeepsSteps d.rule d.rule date (s.effective .dayOfWeek).members := by
  intro base p hmem y hy
  have hr := Dialect.weekly hD hd
  obtain ⟨y', hy', hkept⟩ := renumber_every_weekly hr hr rfl
    (check_of_mem_members (check_effective hD hv hd) hmem)
  rw [hy] at hy'
  cases hy'
  exact hkept.2 (h d hd base p hmem) date hdate

end Schedule

namespace Timetable

open Schedule LocalTime

/-- **Translation into the same dialect keeps the fire times** of the settled schedule, if it keeps
the days of its steps. It always succeeds on a valid schedule. -/
theorem isMatch_translate_self {s : Schedule} {D : Definition} (hD : D ∈ Dialect.all)
    (hs : s.definition = D) (hv : s.validate = .ok ()) {maxYears : Int} (hn : 1 ≤ maxYears) :
    ∃ s', translate D D s = .ok s' ∧
      ∃ t t', of? s.daysSettled maxYears = .ok t ∧ of? s' maxYears = .ok t' ∧
        (s.daysSettled.StepsKept →
          ∀ m : Moment, ∀ offset, m.zone = Zone.fixed offset → WithinDay offset →
            2 ≤ (date m.time).year → (date m.time).year ≤ 9998 →
            ∃ b, t.isMatch m = .ok b ∧ t'.isMatch m = .ok b) := by
  subst hs
  obtain ⟨s', h⟩ := exists_translate hD hv
  obtain ⟨fs, -, hs', hv'⟩ := translate_eq_ok h
  have hdef : s'.definition = s.definition := by
    rw [hs']
    rfl
  have hdef' := s.daysSettled_definition
  obtain ⟨t, ht, hts, -, hsound⟩ := exists_of_validate (hdef'.symm ▸ hD)
    (validate_daysSettled hD hv) hn
  obtain ⟨t', ht', hts', -, -⟩ := exists_of_validate (hdef.symm ▸ hD) hv' hn
  refine ⟨s', h, t, t', ht, ht', ?_⟩
  intro hkept
  have heff : ∀ name ∈ [FieldName.second, .minute, .hour, .month, .year],
      s'.effective name = s.daysSettled.effective name := by
    intro name hname
    have hm : name ≠ .dayOfMonth := by
      rintro rfl
      revert hname
      decide
    have hw : name ≠ .dayOfWeek := by
      rintro rfl
      revert hname
      decide
    rw [daysSettled_effective_of_ne hw]
    exact effective_translate hD h hm hw effective_of_not_hasField
  have hday : ∀ date : Date, date.Valid → t'.admitsDay date = t.admitsDay date := by
    intro date hdate
    obtain ⟨hdom, d, e, hd, hren, hdow⟩ := days_translate_self hD h
    rw [← hdef'] at hd
    have hkeeps := hkept.keepsSteps (hdef'.symm ▸ hD) (validate_daysSettled hD hv) hd hdate
    have hweek := s.daysSettled.admitsWeekday_effective (hdef'.symm ▸ hD) (hdef'.symm ▸ hD)
      (validate_daysSettled hD hv) hd hd hkeeps hren
    have hdt : t.schedule.definition = s.definition := by rw [hts, hdef']
    have hdt' : t'.schedule.definition = s.definition := by rw [hts', hdef]
    rw [hdef'] at hd
    rw [← hts, ← hts'] at hdom
    rw [← hts] at hren hweek
    rw [← hts'] at hdow
    exact admitsDay_congr (hdt.symm ▸ hD) (hdt'.symm ▸ hD) (hdt.symm ▸ hd) (hdt'.symm ▸ hd) hdom
      hdow (isUnspecified_renumber hren) hweek
  exact isMatch_congr (hdef'.symm ▸ hD) (hdef.symm ▸ hD) ht ht' hsound heff hday

/-- At midnight on the 13th of each month and on every Friday. -/
def thirteenthOrFriday : Schedule :=
  .ofAssignment Dialect.spring fun
    | .second | .minute | .hour => some (.value 0)
    | .dayOfMonth => some (.value 13)
    | .month => some .always
    | .dayOfWeek => some (.value 5)
    | _ => none

/-- The first midnight of a Friday that is no 13th, in UTC. -/
def fridayMidnight : Moment := ⟨Zone.fixed 0, 1704412800000000, false⟩

/-- At midnight on the 13th of each month. -/
def thirteenth : Schedule :=
  .ofAssignment Dialect.spring fun
    | .second | .minute | .hour => some (.value 0)
    | .dayOfMonth => some (.value 13)
    | .month => some .always
    | .dayOfWeek => some .question
    | _ => none

/-- **The Fridays are lost**: the translated schedule fires on the 13th only. -/
theorem isMatch_fridayMidnight :
    thirteenthOrFriday.validate = .ok () ∧
      translate Dialect.spring Dialect.spring thirteenthOrFriday = .ok thirteenth ∧
        ∃ t t', of? thirteenthOrFriday defaultYears = .ok t ∧
          of? thirteenth defaultYears = .ok t' ∧
            t.isMatch fridayMidnight = .ok true ∧ t'.isMatch fridayMidnight = .ok false := by
  refine ⟨by rfl, by rfl, ⟨thirteenthOrFriday, defaultYears, [0], [0], [0], intsBetween 1 12⟩,
    ⟨thirteenth, defaultYears, [0], [0], [0], intsBetween 1 12⟩, by rfl, by rfl, ?_, ?_⟩
  · decide +kernel
  · decide +kernel

/-- A 13th at midnight in UTC. -/
def thirteenthMidnight : Moment := ⟨Zone.fixed 0, 1705104000000000, false⟩

/-- What `thirteenthOrFriday` fires at when its days are settled. -/
def thirteenthTable : Timetable :=
  ⟨thirteenthOrFriday.daysSettled, defaultYears, [0], [0], [0], intsBetween 1 12⟩

theorem of?_thirteenthOrFriday :
    of? thirteenthOrFriday.daysSettled defaultYears = .ok thirteenthTable := by rfl

/-- The settled schedule has a question mark and no step. -/
theorem stepsKept_thirteenthOrFriday : thirteenthOrFriday.daysSettled.StepsKept := by
  intro d _ base p hm
  have hweek : thirteenthOrFriday.daysSettled.effective .dayOfWeek = .question := by rfl
  rw [hweek] at hm
  cases List.mem_singleton.1 hm

/-- At six on Monday, Wednesday and Friday. -/
def everyOtherWorkday : Schedule :=
  .ofAssignment Dialect.unix fun
    | .minute => some (.value 0)
    | .hour => some (.value 6)
    | .dayOfMonth | .month => some .always
    | .dayOfWeek => some (.every (.between 1 5) 2)
    | _ => none

/-- What `everyOtherWorkday` fires at. -/
def workdayTable : Timetable :=
  ⟨everyOtherWorkday.daysSettled, defaultYears, [0], [0], [6], intsBetween 1 12⟩

theorem of?_everyOtherWorkday :
    of? everyOtherWorkday.daysSettled defaultYears = .ok workdayTable := by rfl

theorem members_everyOtherWorkday :
    (everyOtherWorkday.daysSettled.effective .dayOfWeek).members = [.every (.between 1 5) 2] := by
  rfl

/-- Neither the range nor what it becomes runs through both numbers of Sunday. -/
theorem stepsKept_everyOtherWorkday : everyOtherWorkday.daysSettled.StepsKept := by
  intro d hd base p hm
  cases hd
  rw [members_everyOtherWorkday] at hm
  cases List.mem_singleton.1 hm
  right
  rw [if_neg (by decide)]
  exact .inl (by decide)

/-- A Wednesday at six in UTC. -/
def wednesdaySix : Moment := ⟨Zone.fixed 0, 1700632800000000, false⟩

/-- The settled schedule is the one that fires on the 13th, and the translated one fires with it. A
step over workdays is kept, and what comes of it fires on Wednesdays like the step. -/
theorem isMatch_translate_thirteenth :
    (thirteenthOrFriday.validate = .ok () ∧ thirteenthOrFriday.daysSettled.StepsKept ∧
      ∃ s', translate Dialect.spring Dialect.spring thirteenthOrFriday = .ok s' ∧
        ∃ t t', of? thirteenthOrFriday.daysSettled defaultYears = .ok t ∧
          of? s' defaultYears = .ok t' ∧
            (t.isMatch fridayMidnight = .ok false ∧ t'.isMatch fridayMidnight = .ok false) ∧
            t.isMatch thirteenthMidnight = .ok true ∧ t'.isMatch thirteenthMidnight = .ok true) ∧
    (everyOtherWorkday.validate = .ok () ∧ everyOtherWorkday.daysSettled.StepsKept ∧
      .every (.between 1 5) 2 ∈ (everyOtherWorkday.daysSettled.effective .dayOfWeek).members ∧
      ∃ s', translate Dialect.unix Dialect.unix everyOtherWorkday = .ok s' ∧
        ∃ t t', of? everyOtherWorkday.daysSettled defaultYears = .ok t ∧
          of? s' defaultYears = .ok t' ∧
            t.isMatch wednesdaySix = .ok true ∧ t'.isMatch wednesdaySix = .ok true) := by
  constructor
  · have hv : thirteenthOrFriday.validate = .ok () := by rfl
    obtain ⟨s', h, t, t', ht, ht', hmatch⟩ := isMatch_translate_self Dialect.spring_mem_all rfl hv
      (by decide : 1 ≤ defaultYears)
    obtain rfl := Except.ok.inj (of?_thirteenthOrFriday.symm.trans ht)
    have hkept := stepsKept_thirteenthOrFriday
    have hno : thirteenthTable.isMatch fridayMidnight = .ok false := by decide +kernel
    have hyes : thirteenthTable.isMatch thirteenthMidnight = .ok true := by decide +kernel
    have hfriday := hmatch hkept fridayMidnight 0 rfl (by decide) (by decide) (by decide)
    have hthirteenth := hmatch hkept thirteenthMidnight 0 rfl (by decide) (by decide) (by decide)
    exact ⟨hv, hkept, s', h, thirteenthTable, t', ht, ht', ⟨hno, eq_ok_of_same hfriday hno⟩, hyes,
      eq_ok_of_same hthirteenth hyes⟩
  · have hv : everyOtherWorkday.validate = .ok () := by rfl
    obtain ⟨s', h, t, t', ht, ht', hmatch⟩ := isMatch_translate_self Dialect.unix_mem_all rfl hv
      (by decide : 1 ≤ defaultYears)
    obtain rfl := Except.ok.inj (of?_everyOtherWorkday.symm.trans ht)
    have hkept := stepsKept_everyOtherWorkday
    have hmem : .every (.between 1 5) 2 ∈
        (everyOtherWorkday.daysSettled.effective .dayOfWeek).members := by
      rw [members_everyOtherWorkday]
      exact List.mem_singleton_self _
    have hyes : workdayTable.isMatch wednesdaySix = .ok true := by decide +kernel
    have hwednesday := hmatch hkept wednesdaySix 0 rfl (by decide) (by decide) (by decide)
    exact ⟨hv, hkept, hmem, s', h, workdayTable, t', ht, ht', hyes,
      eq_ok_of_same hwednesday hyes⟩

end Timetable

end CronSchedule
