import CronSchedule.Proofs.Calendar
import CronSchedule.Proofs.Translation.Weekday
import Mathlib.Data.List.Sort

/-!
# The days that the special signs pick

The last day of a month and days before it, the working day nearest to a day, and the `n`-th or the
last of the days that fall on a weekday. Each is told here by what the calendar says of the days of
the month, and the tests of the fields pick exactly these days.

* `IsClosestWorkday`: a working day of the month that is closer to a day than all others;
  `isClosestWorkday_nearestWorkday`: **the nearest working day is one.**
* `daysOn`: the days of a month that fall on a weekday; `getElem?_daysOn`, `getLast?_daysOn`.
* `Expr.picks_specials`: **each special form picks exactly its day.**
-/

namespace CronSchedule

variable {year month day weekday k : Int}

/-! ### Weekdays of a month -/

/-- The weekdays of a month follow one another. -/
theorem weekday_mk (year month day : Int) : (Date.mk year month day).weekday =
    (daysBeforeYear year + daysBeforeMonth year month + day - 1) % 7 + 1 := by
  simp only [Date.weekday, Date.toDay, Date.yearDay]
  omega

/-- A list in ascending order is that of the numbers of a range that pass a test, if it has the same
members. -/
theorem filter_intsBetween {a b : Int} {l : List Int} {passes : Int → Bool}
    (hl : l.Pairwise (· < ·)) (h : ∀ v, v ∈ l ↔ (a ≤ v ∧ v ≤ b) ∧ passes v = true) :
    (intsBetween a b).filter passes = l := by
  refine List.Pairwise.eq_of_mem_iff ((pairwise_intsBetween a b).filter passes) hl ?_
  intro v
  rw [List.mem_filter, mem_intsBetween, h]

/-- The days of a month that fall on a weekday, in ascending order. -/
def daysOn (year month weekday : Int) : List Int :=
  (intsBetween 1 (daysInMonth year month)).filter fun day =>
    (Date.mk year month day).weekday = weekday

/-- The first day of a month that falls on a weekday. -/
def firstOn (year month weekday : Int) : Int :=
  (weekday - (Date.mk year month 1).weekday) % 7 + 1

/-- How many days of a month fall on a weekday. -/
def countOn (year month weekday : Int) : Nat :=
  ((daysInMonth year month - firstOn year month weekday) / 7 + 1).toNat

/-- The days on a weekday are a week apart. -/
theorem daysOn_eq (hw : 1 ≤ weekday ∧ weekday ≤ 7) : daysOn year month weekday =
    (List.range (countOn year month weekday)).map fun i : Nat =>
      firstOn year month weekday + 7 * i := by
  have hlong := daysInMonth_bounds year month
  refine filter_intsBetween ?_ ?_
  · rw [List.pairwise_map]
    exact List.pairwise_lt_range.imp fun h => by omega
  · intro day
    simp only [List.mem_map, List.mem_range, countOn, firstOn, weekday_mk, decide_eq_true_eq]
    constructor
    · rintro ⟨i, hi, rfl⟩
      omega
    · rintro ⟨hday, hfall⟩
      exact ⟨((day - 1) / 7).toNat, by omega, by omega⟩

/-- The day of the `n`-th week of a month, from 1, is the `n`-th one on its weekday. -/
theorem getElem?_daysOn (hw : 1 ≤ weekday ∧ weekday ≤ 7) {n : Int} (hn : 1 ≤ n) :
    (daysOn year month weekday)[(n - 1).toNat]? = some day ↔
      (1 ≤ day ∧ day ≤ daysInMonth year month) ∧
        (Date.mk year month day).weekday = weekday ∧ (day - 1) / 7 + 1 = n := by
  have hlong := daysInMonth_bounds year month
  simp only [daysOn_eq hw, List.getElem?_map, Option.map_eq_some_iff, List.getElem?_eq_some_iff,
    List.length_range, List.getElem_range, countOn, firstOn, weekday_mk]
  constructor
  · rintro ⟨i, ⟨hi, rfl⟩, rfl⟩
    omega
  · rintro ⟨hday, hfall, hweek⟩
    exact ⟨(n - 1).toNat, ⟨by omega, rfl⟩, by omega⟩

/-- The day within a week of the end of a month is the last one on its weekday. -/
theorem getLast?_daysOn (hw : 1 ≤ weekday ∧ weekday ≤ 7) :
    (daysOn year month weekday).getLast? = some day ↔
      (1 ≤ day ∧ day ≤ daysInMonth year month) ∧
        (Date.mk year month day).weekday = weekday ∧ daysInMonth year month < day + 7 := by
  have hlong := daysInMonth_bounds year month
  simp only [daysOn_eq hw, List.getLast?_eq_getElem?, List.getElem?_map, Option.map_eq_some_iff,
    List.getElem?_eq_some_iff, List.length_map, List.length_range, List.getElem_range, countOn,
    firstOn, weekday_mk]
  constructor
  · rintro ⟨i, ⟨hi, rfl⟩, rfl⟩
    omega
  · rintro ⟨hday, hfall, hlast⟩
    exact ⟨_, ⟨by omega, rfl⟩, by omega⟩

/-! ### Working days -/

/-- A day of the month from Monday to Friday. -/
def IsWorkday (year month day : Int) : Prop :=
  (1 ≤ day ∧ day ≤ daysInMonth year month) ∧ (Date.mk year month day).weekday ≤ 5

/-- A working day of the month that is closer to a day than every other one of the month. -/
def IsClosestWorkday (year month day closest : Int) : Prop :=
  IsWorkday year month closest ∧
    ∀ other, IsWorkday year month other → other ≠ closest →
      (closest - day).natAbs < (other - day).natAbs

/-- **The nearest working day is closer than every other one of the month.** -/
theorem isClosestWorkday_nearestWorkday (hday : 1 ≤ day ∧ day ≤ daysInMonth year month) :
    IsClosestWorkday year month day (nearestWorkday year month day) := by
  have hlong := daysInMonth_bounds year month
  simp only [IsClosestWorkday, IsWorkday, nearestWorkday, weekday_mk]
  split
  · -- a Saturday lies next to Friday, which may be of the month before
    split
    · exact ⟨by omega, fun other hother hne => by omega⟩
    · exact ⟨by omega, fun other hother hne => by omega⟩
  · split
    · -- a Sunday lies next to Monday, which may be of the month after
      split
      · exact ⟨by omega, fun other hother hne => by omega⟩
      · exact ⟨by omega, fun other hother hne => by omega⟩
    · exact ⟨by omega, fun other hother hne => by omega⟩

-- the first of June 2024 is a Saturday, the last a Sunday
example : nearestWorkday 2024 6 1 = 3 ∧ nearestWorkday 2024 6 30 = 28 := by decide

/-- The last working day of a month is the one nearest to its last day. -/
theorem lastWorkday_eq_nearestWorkday (year month : Int) :
    lastWorkday year month = nearestWorkday year month (daysInMonth year month) := by
  have hlong := daysInMonth_bounds year month
  have hfirst : daysInMonth year month ≠ 1 := by omega
  simp only [lastWorkday, nearestWorkday, if_neg hfirst, Int.le_refl, if_true]

namespace Expr

variable {r : FieldRule} {d : FieldDefinition} {D : Definition}

/-! ### The days that are picked -/

/-- The days of a month that a test of dates passes, in ascending order. -/
def daysWhere (year month : Int) (test : Date → Except TimeError Bool) :
    Except TimeError (List Int) :=
  selectM (fun day => test ⟨year, month, day⟩) (intsBetween 1 (daysInMonth year month))

/-- A test that at most one day of the month passes picks this day, if there is one. -/
theorem daysWhere_eq {test : Date → Except TimeError Bool} (passes : Int → Bool)
    (only : Option Int) (htest : ∀ day, test ⟨year, month, day⟩ = .ok (passes day))
    (honly : ∀ day, only = some day ↔
      (1 ≤ day ∧ day ≤ daysInMonth year month) ∧ passes day = true) :
    daysWhere year month test = .ok only.toList := by
  rw [daysWhere, selectM_eq_ok_filter fun day _ => htest day]
  refine congrArg Except.ok (filter_intsBetween ?_ ?_)
  · cases only with
    | none => exact List.Pairwise.nil
    | some day => exact List.pairwise_singleton _ _
  · intro day
    rw [Option.mem_toList, honly]

theorem daysWhere_eq_singleton {test : Date → Except TimeError Bool} {only : Int}
    (htest : ∀ day, test ⟨year, month, day⟩ = .ok (day == only))
    (honly : 1 ≤ only ∧ only ≤ daysInMonth year month) :
    daysWhere year month test = .ok [only] := by
  refine daysWhere_eq (fun day => day == only) (some only) htest ?_
  intro day
  rw [Option.some.injEq, beq_iff_eq]
  constructor
  · rintro rfl
    exact ⟨honly, rfl⟩
  · rintro ⟨-, h⟩
    exact h.symm

theorem daysWhere_eq_nil {test : Date → Except TimeError Bool} (passes : Int → Bool)
    (htest : ∀ day, test ⟨year, month, day⟩ = .ok (passes day))
    (hnone : ∀ day, 1 ≤ day → day ≤ daysInMonth year month → passes day = false) :
    daysWhere year month test = .ok [] := by
  refine daysWhere_eq passes none htest ?_
  intro day
  refine iff_of_false nofun ?_
  rintro ⟨⟨h1, h2⟩, hpass⟩
  rw [hnone day h1 h2] at hpass
  cases hpass

/-- The days of a month that an expression of the day of the month admits. -/
def monthDaysOf (r : FieldRule) (year month : Int) (e : Expr) : Except TimeError (List Int) :=
  daysWhere year month fun date => admitsMonthDay r date e

/-- The days of a month that an expression of the day of the week admits. -/
def weekdaysOf (r : FieldRule) (year month : Int) (e : Expr) : Except TimeError (List Int) :=
  daysWhere year month fun date => admitsWeekday r date e

/-- `L` is the last day of the month. -/
theorem monthDaysOf_last (r : FieldRule) (year month : Int) :
    monthDaysOf r year month (.last none) =
      .ok [daysInMonth year month] := by
  have hlong := daysInMonth_bounds year month
  exact daysWhere_eq_singleton (fun day => rfl) ⟨by omega, Int.le_refl _⟩

/-- `L-n` is the day `n` days before it, if the month is that long. -/
theorem monthDaysOf_lastOffset (r : FieldRule) (year month : Int) {n : Int} (hn : 0 ≤ n) :
    monthDaysOf r year month (.lastOffset n) =
      .ok (if n < daysInMonth year month then [daysInMonth year month - n] else []) := by
  by_cases hlong : n < daysInMonth year month
  · rw [if_pos hlong]
    exact daysWhere_eq_singleton (fun day => rfl) ⟨by omega, by omega⟩
  · rw [if_neg hlong]
    refine daysWhere_eq_nil (fun day => day == daysInMonth year month - n) (fun day => rfl) ?_
    intro day h1 h2
    rw [beq_eq_false_iff_ne]
    omega

/-- The working day nearest to a day that the month does not have is none. -/
theorem monthDaysOf_workday_of_lt (r : FieldRule) (h : daysInMonth year month < day) :
    monthDaysOf r year month (.nearestWeekday (some day)) =
      .ok [] := by
  refine daysWhere_eq_nil (fun _ => false) ?_ fun _ _ _ => rfl
  intro day'
  rw [admitsMonthDay, isNearestWorkday, if_pos h]

/-- The working day nearest to a day. -/
theorem monthDaysOf_workday (r : FieldRule) (h : 1 ≤ day ∧ day ≤ daysInMonth year month) :
    monthDaysOf r year month (.nearestWeekday (some day)) =
      .ok [nearestWorkday year month day] := by
  refine daysWhere_eq_singleton ?_ (isClosestWorkday_nearestWorkday h).1.1
  have hlast : ¬ daysInMonth year month < day := by omega
  have hfirst : ¬ day < 1 := by omega
  intro day'
  rw [admitsMonthDay, isNearestWorkday, if_neg hlast, if_neg hfirst, Bool.beq_comm]

/-- `LW` is the working day nearest to the last day of the month. -/
theorem monthDaysOf_lastWorkday (r : FieldRule) (year month : Int) :
    monthDaysOf r year month (.nearestWeekday none) =
      .ok [nearestWorkday year month (daysInMonth year month)] := by
  have hlong := daysInMonth_bounds year month
  refine daysWhere_eq_singleton ?_ (isClosestWorkday_nearestWorkday (by omega)).1.1
  intro day
  rw [admitsMonthDay, lastWorkday_eq_nearestWorkday]

/-- `w#n` is the `n`-th day of the month on a weekday. -/
theorem weekdaysOf_nth (hr : r.Consecutive) {v n : Int} (hv : r.Contains v) (hn : 1 ≤ n)
    (year month : Int) :
    weekdaysOf r year month (.on v (some n)) =
      .ok (daysOn year month (r.toIso v))[(n - 1).toNat]?.toList := by
  refine daysWhere_eq _ _ (fun day => admitsWeekday_nth hr hv n) ?_
  intro day
  rw [getElem?_daysOn (hr.toIso_bounds v) hn, Bool.and_eq_true, decide_eq_true_eq, beq_iff_eq,
    eq_comm (a := r.toIso v)]

/-- `wL` is the last day of the month on a weekday. -/
theorem weekdaysOf_lastDay (hr : r.Consecutive) {v : Int} (hv : r.Contains v) (year month : Int) :
    weekdaysOf r year month (.last (some v)) =
      .ok (daysOn year month (r.toIso v)).getLast?.toList := by
  refine daysWhere_eq _ _ (fun day => admitsWeekday_lastDay hr hv) ?_
  intro day
  rw [getLast?_daysOn (hr.toIso_bounds v), Bool.and_eq_true, decide_eq_true_eq,
    decide_eq_true_eq, eq_comm (a := r.toIso v)]

/-- **Each special form picks exactly its day.** The `n`-th or last day on a weekday is looked up
among the days of the month that fall on it, by any number of the weekday in any of the four
dialects. -/
theorem picks_specials (hD : D ∈ Dialect.all) (hd : D.field? .dayOfWeek = some d)
    (r : FieldRule) (year month : Int) :
    monthDaysOf r year month (.last none) = .ok [daysInMonth year month] ∧
      (∀ n, 0 ≤ n → monthDaysOf r year month (.lastOffset n) =
        .ok (if n < daysInMonth year month then [daysInMonth year month - n] else [])) ∧
      (∀ day, daysInMonth year month < day →
        monthDaysOf r year month (.nearestWeekday (some day)) = .ok []) ∧
      (∀ day, 1 ≤ day → day ≤ daysInMonth year month →
        ∃ closest, IsClosestWorkday year month day closest ∧
          monthDaysOf r year month (.nearestWeekday (some day)) = .ok [closest]) ∧
      monthDaysOf r year month (.nearestWeekday none) =
        monthDaysOf r year month (.nearestWeekday (some (daysInMonth year month))) ∧
      ∀ w, d.rule.Contains w →
        (∀ n, 1 ≤ n → n ≤ 5 → weekdaysOf d.rule year month (.on w (some n)) =
          .ok (daysOn year month (d.rule.toIso w))[(n - 1).toNat]?.toList) ∧
        weekdaysOf d.rule year month (.last (some w)) =
          .ok (daysOn year month (d.rule.toIso w)).getLast?.toList := by
  have hr := (Dialect.weekly hD hd).consecutive
  have hlong := daysInMonth_bounds year month
  refine ⟨monthDaysOf_last r year month, fun n hn => monthDaysOf_lastOffset r year month hn,
    fun day h => monthDaysOf_workday_of_lt r h, ?_, ?_, ?_⟩
  · intro day h1 h2
    exact ⟨nearestWorkday year month day, isClosestWorkday_nearestWorkday ⟨h1, h2⟩,
      monthDaysOf_workday r ⟨h1, h2⟩⟩
  · rw [monthDaysOf_lastWorkday, monthDaysOf_workday r (by omega)]
  · intro w hw
    exact ⟨fun n hn _ => weekdaysOf_nth hr hw hn year month, weekdaysOf_lastDay hr hw year month⟩

/-- The fifth Thursday of February 2024, in Quartz. -/
theorem weekdaysOf_fifthThursday :
    weekdaysOf { Dialect.sundayOneRule with allowsQuestion := true } 2024 2 (.on 5 (some 5)) =
      .ok [29] := by
  have hquartz : Dialect.quartz.field? .dayOfWeek =
      some ⟨.dayOfWeek, { Dialect.sundayOneRule with allowsQuestion := true }, false⟩ := rfl
  obtain ⟨-, -, -, -, -, hweek⟩ :=
    picks_specials Dialect.quartz_mem_all hquartz Dialect.dayOfMonthRule 2024 2
  have hfifth := (hweek 5 (by decide)).1 5 (by decide) (by decide)
  rw [hfifth]
  rfl

end Expr

end CronSchedule
