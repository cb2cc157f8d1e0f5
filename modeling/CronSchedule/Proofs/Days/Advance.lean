import CronSchedule.Proofs.Translation.Step

/-!
# Stepped weekday ranges advance by real days

A step of `p` over a range of weekdays should come to every `p`-th day from the first one to the
last. It counts numbers, though, and not days. A range that runs past the end of the field, where
the first day of the week is counted at the end as well as at the start, has one number more than it
has days.

* `Expr.AdvancesTo`: the weekdays that are a whole number of steps after the first one.
* `Expr.keepsPhase_iff`: when the days of a step are exactly these.
* `Expr.admitsWeekday_every_between`: **a stepped range admits the weekdays that its numbers come
  to, and these are every `p`-th day exactly if the step keeps its phase**.
-/

namespace CronSchedule.Expr

variable {r : FieldRule} {d : FieldDefinition} {D : Definition} {s e p w : Int}

/-- How many days a range goes on after its first one: as many as there are numbers, or the days
from its first weekday forward to its last one, where the range runs past the end of the field. -/
def daysAhead (r : FieldRule) (s e : Int) : Int :=
  if s ≤ e then e - s else (r.toIso e - r.toIso s) % 7

/-- Whether a weekday is that of the range's first number, advanced by a whole number of steps that
do not go beyond the range. -/
def AdvancesTo (r : FieldRule) (s e p w : Int) : Prop :=
  ∃ k, 0 ≤ k ∧ k * p ≤ daysAhead r s e ∧ w = (r.toIso s - 1 + k * p) % 7 + 1

/-- Whether the numbers that a step comes to follow one another by `p` days: the range does not
count a day twice, or the step has every day, or no number of it comes after the day that is counted
twice. -/
def KeepsPhase (r : FieldRule) (s e p : Int) : Prop :=
  CountsTwice r s e → p = 1 ∨ ∀ k, r.max - s < k → k ≤ span s e + 1 → ¬ p ∣ k

theorem daysAhead_eq_span (hr : r.Consecutive) (hs : r.Contains s) (he : r.Contains e) :
    daysAhead r s e = span s e := by
  have hmax := hr.span
  unfold FieldRule.Contains at hs he
  rw [daysAhead, span, hr.toIso_eq, hr.toIso_eq]
  split <;> omega

/-- Told in days from the first one of the range, an advance is a multiple of the step. -/
theorem advancesTo_iff (hr : r.Consecutive) (hs : r.Contains s) (he : r.Contains e) (hp : 1 ≤ p)
    (hw : 1 ≤ w ∧ w ≤ 7) :
    AdvancesTo r s e p w ↔ p ∣ (w - r.toIso s) % 7 ∧ (w - r.toIso s) % 7 ≤ span s e := by
  have hiso := hr.toIso_bounds s
  have hmax := hr.span
  have hlong : span s e ≤ 7 := by
    unfold FieldRule.Contains at hs he
    unfold span
    split <;> omega
  rw [AdvancesTo, daysAhead_eq_span hr hs he]
  constructor
  · rintro ⟨k, hk, hle, rfl⟩
    have hpos : 0 ≤ k * p := Int.mul_nonneg hk (by omega)
    by_cases hseven : k * p = 7
    -- a week later it is the first day again
    · have hzero : ((r.toIso s - 1 + k * p) % 7 + 1 - r.toIso s) % 7 = 0 := by omega
      rw [hzero]
      exact ⟨Int.dvd_zero p, by omega⟩
    · have hmod : ((r.toIso s - 1 + k * p) % 7 + 1 - r.toIso s) % 7 = k * p := by omega
      rw [hmod]
      exact ⟨Int.dvd_mul_left k p, hle⟩
  · rintro ⟨⟨k, hk⟩, hle⟩
    rw [Int.mul_comm] at hk
    have hpos : 0 ≤ k * p := by omega
    exact ⟨k, Int.nonneg_of_mul_nonneg_left hpos (by omega), by omega, by omega⟩

/-- The step comes to the days of its advances exactly if it keeps its phase. -/
theorem keepsPhase_iff (hr : r.Consecutive) (hs : r.Contains s) (he : r.Contains e) (hp : 1 ≤ p) :
    (∀ k, 0 ≤ k → k ≤ 6 → (StepsOn r s e p k ↔ p ∣ k ∧ k ≤ span s e)) ↔ KeepsPhase r s e p := by
  by_cases htwice : CountsTwice r s e
  · obtain ⟨-, hpos, hle⟩ := htwice.untilEnd hr hs he
    have hsix : span s e ≤ 6 := by
      have hwraps := htwice.2
      rw [span, if_neg (by omega)]
      omega
    simp only [KeepsPhase, htwice, forall_const, StepsOn, if_true]
    exact late_iff hpos hle hsix hp
  · simp [KeepsPhase, StepsOn, htwice]

/-- Only in Spring does a range count a day twice: elsewhere Sunday has one number, or a range has
to start before it ends. -/
theorem keepsPhase_of_ne_spring (hD : D ∈ Dialect.all) (hne : D ≠ Dialect.spring)
    (hd : D.field? .dayOfWeek = some d) (hc : check d (.between s e) = .ok ()) :
    KeepsPhase d.rule s e p := by
  have h : ∀ D ∈ [Dialect.unix, Dialect.cron4j, Dialect.quartz], ∀ d ∈ D.fields,
      d.name = .dayOfWeek → d.rule.max ≠ d.rule.min + 7 ∨ d.rule.strict = true := by decide
  have hother : D ∈ [Dialect.unix, Dialect.cron4j, Dialect.quartz] := by
    simp only [Dialect.all, List.mem_cons, List.not_mem_nil, or_false, hne] at hD ⊢
    exact hD
  obtain ⟨hm, hn⟩ := Definition.mem_of_field? hd
  rintro ⟨hmax, hes⟩
  rw [check_between_iff] at hc
  rcases h D hother d hm hn with honce | hstrict
  · exact absurd hmax honce
  · rcases hc.2.2 with hloose | hle
    · rw [hstrict] at hloose
      cases hloose
    · omega

/-- **A stepped range admits the weekdays that its numbers come to, and these are every `p`-th day
from the first to the last exactly if the step keeps its phase.** In three of the four dialects
every step does. -/
theorem admitsWeekday_every_between (hD : D ∈ Dialect.all)
    (hd : D.field? .dayOfWeek = some d) (hc : check d (.every (.between s e) p) = .ok ()) :
    (∀ date : Date, admitsWeekday d.rule date (.every (.between s e) p) =
        .ok (decide (StepsOn d.rule s e p ((date.weekday - d.rule.toIso s) % 7)))) ∧
      ((∀ date : Date, date.Valid → ∃ b,
          admitsWeekday d.rule date (.every (.between s e) p) = .ok b ∧
            (b = true ↔ AdvancesTo d.rule s e p date.weekday)) ↔
        KeepsPhase d.rule s e p) ∧
      (D ≠ Dialect.spring → KeepsPhase d.rule s e p) := by
  have hr := (Dialect.weekly hD hd).consecutive
  obtain ⟨-, hp, hrange⟩ := check_every_iff.1 hc
  obtain ⟨hs, he, -⟩ := check_between_iff.1 hrange
  have hdays : ∀ date : Date, admitsWeekday d.rule date (.every (.between s e) p) =
      .ok (decide (StepsOn d.rule s e p ((date.weekday - d.rule.toIso s) % 7))) :=
    fun date => admitsWeekday_every hr hp rfl hs he
  refine ⟨hdays, ?_, fun hne => keepsPhase_of_ne_spring hD hne hd hrange⟩
  rw [← keepsPhase_iff hr hs he hp, ← forall_date_iff (d.rule.toIso s)]
  simp only [hdays, Except.ok.injEq, exists_eq_left', decide_eq_true_eq,
    advancesTo_iff hr hs he hp (weekday_bounds _)]

/-- The day of the week in Spring. -/
def springWeekday : FieldDefinition :=
  ⟨.dayOfWeek, { Dialect.sundayZeroRule with allowsQuestion := true }, false⟩

/-- Every other day from Friday to Sunday, written with the number 0 at the end, keeps its phase. -/
theorem admitsWeekday_fridayToSunday :
    KeepsPhase springWeekday.rule 5 0 2 ∧
      ∀ date : Date, date.Valid → ∃ b,
        admitsWeekday springWeekday.rule date (.every (.between 5 0) 2) = .ok b ∧
          (b = true ↔ AdvancesTo springWeekday.rule 5 0 2 date.weekday) := by
  have hc : check springWeekday (.every (.between 5 0) 2) = .ok () := rfl
  obtain ⟨-, hdays, -⟩ := admitsWeekday_every_between Dialect.spring_mem_all rfl hc
  have hphase : KeepsPhase springWeekday.rule 5 0 2 := by
    intro _
    right
    -- the only number after the first of Sunday's two is the other one
    intro k hk hk'
    have hthree : k = 3 := by
      simp only [springWeekday, Dialect.sundayZeroRule, span] at hk hk'
      omega
    rw [hthree]
    decide
  exact ⟨hphase, hdays.2 hphase⟩

/-- **Every other day from Friday to Monday comes to Monday**: in Spring the numbers are 5 to 7 and
then 0 and 1, of which 5, 7 and 1 are taken. Real days would be Friday and Sunday. -/
theorem admitsWeekday_fridayToMonday :
    check springWeekday (.every (.between 5 1) 2) = .ok () ∧
      admitsWeekday springWeekday.rule ⟨2024, 1, 8⟩ (.every (.between 5 1) 2) = .ok true ∧
      ¬ AdvancesTo springWeekday.rule 5 1 2 (⟨2024, 1, 8⟩ : Date).weekday := by
  have hr : springWeekday.rule.Consecutive := ⟨by decide, by decide⟩
  have hs : springWeekday.rule.Contains 5 := by decide
  have he : springWeekday.rule.Contains 1 := by decide
  refine ⟨rfl, ?_, ?_⟩
  -- Monday is the third day after Friday and has the fourth number
  · rw [admitsWeekday_every hr (by decide) rfl hs he]
    exact congrArg Except.ok (decide_eq_true (by decide))
  · rw [advancesTo_iff hr hs he (by decide) (weekday_bounds _)]
    decide

end CronSchedule.Expr
