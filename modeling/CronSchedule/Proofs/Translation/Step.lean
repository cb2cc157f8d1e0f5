import CronSchedule.Proofs.Calendar
import CronSchedule.Proofs.Translation.Weekday

/-!
# Steps over weekdays

A step counts the numbers from the first one of its base. Told in days from there, it means every
`p`-th day up to the last day of the base. Where the first day of the week has two numbers, a range
that passes the end of the field runs through both, and the days behind it come one number late.

* `Expr.admitsWeekday_every`: the days that a step means.
* `Expr.admitsWeekday_weekdayList`: days that are listed one by one are those of the step.
* `Expr.StepKept`: when the days of a step are the same after renumbering.
* `Expr.renumber_every_iff`: **a step means the same days after renumbering exactly then.**
-/

namespace CronSchedule.Expr

variable {r r' : FieldRule} {d : FieldDefinition} {base x y : Expr} {s e p v w k first : Int}
  {date : Date}

/-! ### The days of a step -/

/-- How many days a range goes on after its first one. -/
def span (s e : Int) : Int := if s ≤ e then e - s else e - s + 7

/-- Whether a range runs through both numbers of the first day of the week, where it has two: the
range passes the end of the field. -/
def CountsTwice (r : FieldRule) (s e : Int) : Prop := r.max = r.min + 7 ∧ e < s

instance (r : FieldRule) (s e : Int) : Decidable (CountsTwice r s e) :=
  inferInstanceAs (Decidable (_ ∧ _))

/-- Whether a step over a range comes to the day that follows the range's first one by `k` days. -/
def StepsOn (r : FieldRule) (s e p k : Int) : Prop :=
  if CountsTwice r s e then p ∣ k ∧ k ≤ r.max - s ∨ p ∣ k + 1 ∧ r.max - s ≤ k ∧ k ≤ span s e
  else p ∣ k ∧ k ≤ span s e

instance (r : FieldRule) (s e p k : Int) : Decidable (StepsOn r s e p k) := by
  unfold StepsOn
  infer_instance

theorem onStep_eq (hp : 1 ≤ p) (n : Int) : onStep p n = .ok (decide (p ∣ n)) := by
  rw [onStep_of_pos hp]
  refine congrArg Except.ok ?_
  rw [Bool.eq_iff_iff, beq_iff_eq, decide_eq_true_eq, Int.dvd_iff_emod_eq_zero]

/-- Whether a step over a range comes to a number, in a field with `count` numbers. -/
def StepsOnNumber (count s e p v : Int) : Prop :=
  s ≤ v ∧ (s ≤ e → v ≤ e) ∧ p ∣ v - s ∨ v < s ∧ e < s ∧ v ≤ e ∧ p ∣ v + count - s

instance (count s e p v : Int) : Decidable (StepsOnNumber count s e p v) :=
  inferInstanceAs (Decidable (_ ∨ _))

theorem stepAdmits_eq {lo hi : Int} (hp : 1 ≤ p) (h : stepRange? lo hi base = some (s, e))
    (v : Int) :
    stepAdmits lo hi base p v = .ok (decide (StepsOnNumber (hi - lo + 1) s e p v)) := by
  rw [stepAdmits, h]
  simp only [onStep_eq hp, StepsOnNumber]
  by_cases hse : s ≤ e
  · have hnot : ¬ e < s := by omega
    by_cases hv : s ≤ v
    · simp [hse, hv, hnot]
      by_cases hve : v ≤ e
      · simp [hve]
      · simp [hve]
    · simp [hse, hv, hnot]
  · have hlt : e < s := by omega
    by_cases hv : s ≤ v
    · have hnot : ¬ v < s := by omega
      simp [hse, hv, hnot]
    · have hlt' : v < s := by omega
      by_cases hve : v ≤ e
      · simp [hse, hv, hve, hlt, hlt']
      · simp [hse, hv, hve]

/-- The numbers of a day are those that lie as far from a number as the day from its day. -/
theorem toIso_eq_iff (hr : r.Consecutive) (s u : Int) (hw : 1 ≤ w ∧ w ≤ 7) :
    r.toIso u = w ↔ (u - s) % 7 = (w - r.toIso s) % 7 := by
  rw [hr.toIso_eq, hr.toIso_eq]
  omega

/-- A step over a range comes to some number of a day if and only if it comes to the day. -/
theorem exists_stepsOnNumber_iff (hr : r.Consecutive) (hs : r.Contains s) (he : r.Contains e)
    (hk : 0 ≤ k ∧ k ≤ 6) :
    (∃ u, r.Contains u ∧ (u - s) % 7 = k ∧ StepsOnNumber (r.max - r.min + 1) s e p u) ↔
      StepsOn r s e p k := by
  have hmax := hr.span
  unfold FieldRule.Contains at *
  rw [StepsOn, span]
  by_cases hse : s ≤ e
  · -- the range stays inside the field
    have honce : ¬ CountsTwice r s e := fun h => absurd h.2 (by omega)
    rw [if_neg honce, if_pos hse]
    constructor
    · rintro ⟨u, hu, hmod, ⟨hsu, hue, hdvd⟩ | ⟨-, hes, -⟩⟩
      · have hle := hue hse
        by_cases hfirst : k = 0
        · exact ⟨hfirst ▸ Int.dvd_zero p, by omega⟩
        · have heq : u - s = k := by omega
          exact ⟨heq ▸ hdvd, by omega⟩
      · omega
    · rintro ⟨hdvd, hle⟩
      have heq : s + k - s = k := by omega
      exact ⟨s + k, by omega, by omega, .inl ⟨by omega, fun _ => by omega, by rwa [heq]⟩⟩
  have hes : e < s := by omega
  rw [if_neg hse]
  by_cases htwice : r.max = r.min + 7
  · -- the numbers from the start of the field on come one late
    rw [if_pos ⟨htwice, hes⟩]
    constructor
    · rintro ⟨u, hu, hmod, ⟨hsu, -, hdvd⟩ | ⟨hus, -, hue, hdvd⟩⟩
      · have heq : u - s = k := by omega
        exact .inl ⟨heq ▸ hdvd, by omega⟩
      · have heq : u + (r.max - r.min + 1) - s = k + 1 := by omega
        exact .inr ⟨heq ▸ hdvd, by omega, by omega⟩
    · rintro (⟨hdvd, hle⟩ | ⟨hdvd, hge, hle⟩)
      · have heq : s + k - s = k := by omega
        exact ⟨s + k, by omega, by omega, .inl ⟨by omega, by omega, by rwa [heq]⟩⟩
      · have heq : s + k - 7 + (r.max - r.min + 1) - s = k + 1 := by omega
        exact ⟨s + k - 7, by omega, by omega,
          .inr ⟨by omega, hes, by omega, by rwa [heq]⟩⟩
  · have hseven : r.max - r.min + 1 = 7 := by omega
    have honce : ¬ CountsTwice r s e := fun h => htwice h.1
    rw [if_neg honce, hseven]
    constructor
    · rintro ⟨u, hu, hmod, ⟨hsu, -, hdvd⟩ | ⟨hus, -, hue, hdvd⟩⟩
      · have heq : u - s = k := by omega
        exact ⟨heq ▸ hdvd, by omega⟩
      · have heq : u + 7 - s = k := by omega
        exact ⟨heq ▸ hdvd, by omega⟩
    · rintro ⟨hdvd, hle⟩
      by_cases hin : s + k ≤ r.max
      · have heq : s + k - s = k := by omega
        exact ⟨s + k, by omega, by omega, .inl ⟨by omega, by omega, by rwa [heq]⟩⟩
      · have heq : s + k - 7 + 7 - s = k := by omega
        exact ⟨s + k - 7, by omega, by omega, .inr ⟨by omega, hes, by omega, by rwa [heq]⟩⟩

/-- **The days that a step means**, counted from the first day of its base. -/
theorem admitsWeekday_every (hr : r.Consecutive) (hp : 1 ≤ p)
    (h : stepRange? r.min r.max base = some (s, e)) (hs : r.Contains s) (he : r.Contains e) :
    admitsWeekday r date (.every base p) =
      .ok (decide (StepsOn r s e p ((date.weekday - r.toIso s) % 7))) := by
  have hnum : ∀ u, admitsIn r u (.every base p) = .ok _ := stepAdmits_eq hp h
  refine admitsWeekday_of_numeric hr rfl hnum ?_
  have hk : 0 ≤ (date.weekday - r.toIso s) % 7 ∧ (date.weekday - r.toIso s) % 7 ≤ 6 := by omega
  simp only [decide_eq_true_eq, toIso_eq_iff hr s _ (weekday_bounds date)]
  exact exists_stepsOnNumber_iff hr hs he hk

/-! ### Days listed one by one -/

theorem admitsWeekday_values (hr : r.Consecutive) {vs : List Int} (hvs : ∀ v ∈ vs, r.Contains v) :
    anyAdmitsWeekday r date (vs.map value) =
      .ok (decide (∃ v ∈ vs, r.toIso v = date.weekday)) := by
  induction vs with
  | nil => simp [anyAdmitsWeekday]
  | cons v vs ih =>
    obtain ⟨hv, hvs⟩ := List.forall_mem_cons.1 hvs
    rw [List.map_cons, anyAdmitsWeekday, value, admitsWeekday_value hr hv, ih hvs]
    by_cases hday : r.toIso v = date.weekday
    · simp [hday, bind, Except.bind, pure, Except.pure]
    · simp [hday, bind, Except.bind]

theorem eraseDups_eq_singleton {l : List Int} (hv : v ∈ l) (h : ∀ u ∈ l, u = v) :
    l.eraseDups = [v] := by
  cases l with
  | nil => cases hv
  | cons u l =>
    obtain ⟨rfl, hl⟩ := List.forall_mem_cons.1 h
    have hrest : l.filter (fun w => !w == u) = [] := by
      rw [List.filter_eq_nil_iff]
      intro w hw
      simp [hl w hw]
    rw [List.eraseDups_cons, hrest]
    rfl

/-- Where an expression admits some numbers, the days that are listed are theirs: a single number,
or a list of several. -/
theorem exists_weekdayList (r' : FieldRule) {passes : Int → Bool}
    (hp : ∀ u, admitsIn r u x = .ok (passes u)) :
    ∃ vs y, weekdayList r r' x = .ok y ∧
      (∀ u, u ∈ vs ↔ ∃ v, (r.Contains v ∧ passes v = true) ∧ renumberDay r r' v = u) ∧
      ((∃ v, vs = [v] ∧ y = value v) ∨
        ((∀ u ∈ vs, ∃ w ∈ vs, w ≠ u) ∧ y = .list (vs.map value))) := by
  obtain ⟨days, hdays⟩ : ∃ days, days = ((r.values.filter passes).map (renumberDay r r')).mergeSort
      fun a b => decide (a ≤ b) := ⟨_, rfl⟩
  have hmem : ∀ u, u ∈ days.eraseDups ↔
      ∃ v, (r.Contains v ∧ passes v = true) ∧ renumberDay r r' v = u := by
    intro u
    rw [hdays]
    simp only [List.mem_eraseDups, List.mem_mergeSort, List.mem_map, List.mem_filter,
      FieldRule.values, mem_intsBetween, FieldRule.Contains]
  rw [weekdayList, selectM_eq_ok_filter fun u _ => hp u]
  simp only [bind, Except.bind, ← hdays]
  split
  · next v hv => exact ⟨_, _, rfl, hmem, .inl ⟨v, hv, rfl⟩⟩
  · next hmany =>
    refine ⟨_, _, rfl, hmem, .inr ⟨?_, rfl⟩⟩
    intro u hu
    by_cases hother : ∃ w ∈ days.eraseDups, w ≠ u
    · exact hother
    have hall : ∀ w ∈ days, w = u := fun w hw =>
      Decidable.byContradiction fun hne => hother ⟨w, List.mem_eraseDups.2 hw, hne⟩
    exact absurd (eraseDups_eq_singleton (List.mem_eraseDups.1 hu) hall) (hmany u)

/-- **Days that are listed one by one are those of the expression.** -/
theorem admitsWeekday_weekdayList (hr : r.Consecutive) (hr' : r'.Consecutive)
    (hx : x.isNumeric = true)
    {passes : Int → Bool} (hp : ∀ u, admitsIn r u x = .ok (passes u)) :
    ∃ y, weekdayList r r' x = .ok y ∧
      ∀ date, admitsWeekday r' date y = admitsWeekday r date x := by
  obtain ⟨vs, y, hy, hmem, hform⟩ := exists_weekdayList r' hp
  have hin : ∀ u ∈ vs, r'.Contains u := by
    intro u hu
    obtain ⟨v, -, rfl⟩ := (hmem u).1 hu
    exact contains_renumberDay hr hr' v
  refine ⟨y, hy, ?_⟩
  intro date
  -- the same numbers decide on both sides
  have hdays : (∃ u, r.Contains u ∧ r.toIso u = date.weekday ∧ passes u = true) ↔
      decide (∃ v ∈ vs, r'.toIso v = date.weekday) = true := by
    rw [decide_eq_true_eq]
    constructor
    · rintro ⟨u, hu, hday, hpass⟩
      refine ⟨renumberDay r r' u, (hmem _).2 ⟨u, ⟨hu, hpass⟩, rfl⟩, ?_⟩
      rw [(renumberDay_spec hr hr' u).2.2, hday]
    · rintro ⟨v, hv, hday⟩
      obtain ⟨u, ⟨hu, hpass⟩, rfl⟩ := (hmem v).1 hv
      rw [(renumberDay_spec hr hr' u).2.2] at hday
      exact ⟨u, hu, hday, hpass⟩
  rw [admitsWeekday_of_numeric hr hx hp hdays]
  rcases hform with ⟨v, rfl, rfl⟩ | ⟨-, rfl⟩
  · rw [value, admitsWeekday_value hr' (hin v (List.mem_singleton_self v))]
    simp only [List.mem_singleton, exists_eq_left]
  · rw [admitsWeekday, admitsWeekday_values hr' hin]

/-! ### Ranges over the whole week -/

/-- A range covers the week if and only if it goes on for six days after its first one. -/
theorem coversWeek_eq_span (hr : r.Consecutive) (hs : r.Contains s) (he : r.Contains e) :
    coversWeek r s e = .ok (decide (6 ≤ span s e)) := by
  obtain ⟨b, hb⟩ := coversWeek_total hr hs he
  obtain ⟨vs, hvs, hcovers⟩ := coversWeek_eq hb
  have hmax := hr.span
  rw [hb]
  refine congrArg Except.ok ?_
  rw [Bool.eq_iff_iff, hcovers, decide_eq_true_eq]
  simp only [mem_rangeValues hvs]
  unfold FieldRule.Contains at hs he
  unfold span
  constructor
  · intro hall
    -- the day before the first one is among them
    obtain ⟨u, hu, hday⟩ := hall ((r.toIso s + 5) % 7 + 1) (by omega)
    rw [hr.toIso_eq, hr.toIso_eq] at hday
    split at hu <;> split <;> omega
  · intro hspan w hw
    simp only [hr.toIso_eq]
    split at hspan
    · next hse =>
      refine ⟨s + (w - ((s - r.monday) % 7 + 1)) % 7, ?_, by omega⟩
      rw [if_pos hse]
      omega
    · next hse =>
      by_cases hin : s + (w - ((s - r.monday) % 7 + 1)) % 7 ≤ r.max
      · refine ⟨s + (w - ((s - r.monday) % 7 + 1)) % 7, ?_, by omega⟩
        rw [if_neg hse]
        omega
      · refine ⟨s + (w - ((s - r.monday) % 7 + 1)) % 7 - 7, ?_, by omega⟩
        rw [if_neg hse]
        omega

/-! ### When a step keeps its days -/

/-- When a step of `p` over a range means the same days after renumbering. Over the whole week it
counts from the start of the week then. Over a shorter range it counts from the same day, but one of
the two ranges may run through both numbers of a day where the other does not. -/
def RangeStepKept (r r' : FieldRule) (p s e : Int) : Prop :=
  p = 1 ∨
    if 6 ≤ span s e then
      if CountsTwice r s e then p ∣ 8 ∧ p ∣ s ∨ s = 7 ∧ 8 ≤ p
      else r.toIso s = r.toIso r.min
    else
      match weekdayRange r' (renumberDay r r' s) (renumberDay r r' e) with
      | .between a b =>
        (CountsTwice r s e ↔ CountsTwice r' a b) ∨
          -- no day of the step comes after the one that is counted twice
          ∀ k, (r.toIso r.min - r.toIso s) % 7 < k → k ≤ span s e + 1 → ¬ p ∣ k
      | _ => True

/-- When a step of `p` means the same days after renumbering. One that starts at a single day ends
with the field, so the same days of it have to come before the end. -/
def StepKept (r r' : FieldRule) (p : Int) : Expr → Prop
  | .on v _ => ∀ k, 1 ≤ k → k ≤ 6 → p ∣ k → (v + k ≤ r.max ↔ renumberDay r r' v + k ≤ r'.max)
  | .between s e => RangeStepKept r r' p s e
  | _ => True

variable {base' : Expr} {a b : Int}

/-- Every day of the week has its dates. -/
theorem forall_date_iff {P : Int → Prop} (first : Int) :
    (∀ date : Date, date.Valid → P ((date.weekday - first) % 7)) ↔
      ∀ k, 0 ≤ k → k ≤ 6 → P k := by
  constructor
  · intro h k hk hk'
    have hday := h (Date.ofDay (first + k)) (Date.valid_ofDay _)
    have hweekday : ((Date.ofDay (first + k)).weekday - first) % 7 = k := by
      rw [Date.weekday, Date.toDay_ofDay]
      omega
    rwa [hweekday] at hday
  · intro h date _
    exact h _ (by omega) (by omega)

/-- Steps that count from the same day mean the same dates if and only if they come to the same
days. -/
theorem every_iff (hr : r.Consecutive) (hr' : r'.Consecutive) (hp : 1 ≤ p)
    (h : stepRange? r.min r.max base = some (s, e)) (hs : r.Contains s) (he : r.Contains e)
    (h' : stepRange? r'.min r'.max base' = some (a, b)) (ha : r'.Contains a) (hb : r'.Contains b)
    (hfirst : r'.toIso a = r.toIso s) :
    (∀ date : Date, date.Valid →
        admitsWeekday r' date (.every base' p) = admitsWeekday r date (.every base p)) ↔
      ∀ k, 0 ≤ k → k ≤ 6 → (StepsOn r' a b p k ↔ StepsOn r s e p k) := by
  rw [← forall_date_iff (r.toIso s)]
  simp only [admitsWeekday_every hr hp h hs he, admitsWeekday_every hr' hp h' ha hb, hfirst,
    Except.ok.injEq, decide_eq_decide]

theorem contains_ends (hr : r.Consecutive) : r.Contains r.min ∧ r.Contains r.max := by
  have hspan := hr.span
  unfold FieldRule.Contains
  omega

theorem stepsOn_of_le (h : s ≤ e) : StepsOn r s e p k ↔ p ∣ k ∧ k ≤ e - s := by
  have honce : ¬ CountsTwice r s e := fun h => absurd h.2 (by omega)
  rw [StepsOn, if_neg honce, span, if_pos h]

/-- A step over every value comes to the same days in every week that starts on the same day. -/
theorem every_always (hr : r.Consecutive) (hr' : r'.Consecutive) (hp : 1 ≤ p)
    (hfirst : r'.toIso r'.min = r.toIso r.min) (date : Date) (hdate : date.Valid) :
    admitsWeekday r' date (.every .always p) = admitsWeekday r date (.every .always p) := by
  have hspan := hr.span
  have hspan' := hr'.span
  obtain ⟨hmin, hmax⟩ := contains_ends hr
  obtain ⟨hmin', hmax'⟩ := contains_ends hr'
  refine (every_iff hr hr' hp rfl hmin hmax rfl hmin' hmax' hfirst).2 ?_ date hdate
  intro k hk hk'
  rw [stepsOn_of_le (by omega), stepsOn_of_le (by omega)]
  have hle : k ≤ r'.max - r'.min ↔ k ≤ r.max - r.min := by omega
  rw [hle]

/-- A step from one day on comes to the same days if and only if the same multiples of the period
come before the end of the field. -/
theorem every_value_iff (hr : r.Consecutive) (hr' : r'.Consecutive) (hp : 1 ≤ p)
    (hv : r.Contains v) :
    (∀ date : Date, date.Valid → admitsWeekday r' date (.every (.on (renumberDay r r' v) none) p) =
        admitsWeekday r date (.every (.on v none) p)) ↔
      ∀ k, 1 ≤ k → k ≤ 6 → p ∣ k → (v + k ≤ r.max ↔ renumberDay r r' v + k ≤ r'.max) := by
  obtain ⟨h1, h2, hday⟩ := renumberDay_spec hr hr' v
  obtain ⟨ha, hle'⟩ := hr'.contains ⟨h1, h2⟩
  have hle := hv.2
  rw [every_iff hr hr' hp rfl hv (contains_ends hr).2 rfl ⟨ha, hle'⟩ (contains_ends hr').2 hday]
  constructor
  · intro h k hk hk' hdvd
    have hday := h k (by omega) hk'
    rw [stepsOn_of_le hle, stepsOn_of_le hle', and_congr_right_iff] at hday
    have hsame := hday hdvd
    omega
  · intro h k hk hk'
    rw [stepsOn_of_le hle, stepsOn_of_le hle', and_congr_right_iff]
    intro hdvd
    by_cases hzero : k = 0
    · omega
    · have hsame := h k (by omega) hk' hdvd
      omega

/-- Days that come one late from some day on are those of the step if and only if there are none,
or the step has all days. -/
theorem late_iff {h n : Int} (hh : 0 ≤ h) (hhn : h ≤ n) (hn : n ≤ 6) (hp : 1 ≤ p) :
    (∀ k, 0 ≤ k → k ≤ 6 →
        (p ∣ k ∧ k ≤ h ∨ p ∣ k + 1 ∧ h ≤ k ∧ k ≤ n ↔ p ∣ k ∧ k ≤ n)) ↔
      p = 1 ∨ ∀ k, h < k → k ≤ n + 1 → ¬ p ∣ k := by
  constructor
  · intro hsame
    by_cases hone : p = 1
    · exact .inl hone
    right
    intro k hk hk' hdvd
    -- the day before is a late one, and no two days in a row are in the step
    have hlate := (hsame (k - 1) (by omega) (by omega)).1
      (.inr ⟨by rwa [Int.sub_add_cancel], by omega, by omega⟩)
    have hsucc : p ∣ k - (k - 1) := Int.dvd_sub hdvd hlate.1
    have hle := Int.le_of_dvd (by omega) hsucc
    omega
  · rintro (rfl | hnone) k hk hk'
    · have hall : ∀ i : Int, (1 : Int) ∣ i := Int.one_dvd
      simp only [hall, true_and]
      omega
    · constructor
      · rintro (⟨hdvd, hle⟩ | ⟨hdvd, hge, hle⟩)
        · exact ⟨hdvd, by omega⟩
        · exact absurd hdvd (hnone (k + 1) (by omega) (by omega))
      · rintro ⟨hdvd, hle⟩
        by_cases hin : k ≤ h
        · exact .inl ⟨hdvd, hin⟩
        · exact absurd hdvd (hnone k (by omega) (by omega))

/-- A range that counts a day twice comes to it before its last day. -/
theorem CountsTwice.untilEnd (hr : r.Consecutive) (hs : r.Contains s) (he : r.Contains e)
    (h : CountsTwice r s e) :
    r.max - s = (r.toIso r.min - r.toIso s) % 7 ∧ 0 ≤ r.max - s ∧ r.max - s ≤ span s e := by
  obtain ⟨hmax, hes⟩ := h
  unfold FieldRule.Contains at hs he
  rw [hr.toIso_eq, hr.toIso_eq, span, if_neg (by omega)]
  omega

/-- A range that does not cover the week goes on as long as any other one between its days that runs
through no day twice. -/
theorem span_eq (hr : r.Consecutive) (hr' : r'.Consecutive) (hs : r.Contains s) (he : r.Contains e)
    (ha : r'.Contains a) (hb : r'.Contains b) (hsa : r'.toIso a = r.toIso s)
    (heb : r'.toIso b = r.toIso e) (hshort : span s e < 6) (hab : b - a < 7) :
    span a b = span s e := by
  have hspan := hr.span
  have hspan' := hr'.span
  rw [hr.toIso_eq, hr'.toIso_eq] at hsa heb
  unfold FieldRule.Contains at hs he ha hb
  unfold span at hshort ⊢
  split at hshort <;> split <;> omega

/-- A step over a range that does not cover the week comes to the same days over the renumbered
range if and only if both run through the two numbers of a day, or neither does, or nothing comes
late. -/
theorem every_range_iff (hr : r.Consecutive) (hr' : r'.Consecutive) (hp : 1 ≤ p)
    (hweek : r'.toIso r'.min = r.toIso r.min) (hs : r.Contains s) (he : r.Contains e)
    (ha : r'.Contains a) (hb : r'.Contains b) (hsa : r'.toIso a = r.toIso s)
    (heb : r'.toIso b = r.toIso e) (hshort : span s e < 6) (hab : b - a < 7) :
    (∀ date : Date, date.Valid → admitsWeekday r' date (.every (.between a b) p) =
        admitsWeekday r date (.every (.between s e) p)) ↔
      p = 1 ∨ (CountsTwice r s e ↔ CountsTwice r' a b) ∨
        ∀ k, (r.toIso r.min - r.toIso s) % 7 < k → k ≤ span s e + 1 → ¬ p ∣ k := by
  have hlen := span_eq hr hr' hs he ha hb hsa heb hshort hab
  rw [every_iff hr hr' hp rfl hs he rfl ha hb hsa]
  by_cases htwice : CountsTwice r s e
  · obtain ⟨huntil, hpos, hle⟩ := htwice.untilEnd hr hs he
    by_cases htwice' : CountsTwice r' a b
    · obtain ⟨huntil', -, -⟩ := htwice'.untilEnd hr' ha hb
      have hsame : r'.max - a = r.max - s := by rw [huntil, huntil', hweek, hsa]
      simp [StepsOn, htwice, htwice', hlen, hsame]
    · have hdiff : ¬ (CountsTwice r s e ↔ CountsTwice r' a b) := fun h => htwice' (h.1 htwice)
      simp only [hdiff, false_or]
      rw [← huntil, ← late_iff hpos hle (by omega) hp]
      simp only [StepsOn, if_pos htwice, if_neg htwice', hlen]
      constructor
      · intro h k hk hk'
        exact (h k hk hk').symm
      · intro h k hk hk'
        exact (h k hk hk').symm
  · by_cases htwice' : CountsTwice r' a b
    · obtain ⟨huntil', hpos, hle⟩ := htwice'.untilEnd hr' ha hb
      rw [hlen] at hle
      rw [hweek, hsa] at huntil'
      have hdiff : ¬ (CountsTwice r s e ↔ CountsTwice r' a b) := fun h => htwice (h.2 htwice')
      simp only [hdiff, false_or]
      rw [← huntil', ← late_iff hpos hle (by omega) hp]
      simp only [StepsOn, if_neg htwice, if_pos htwice', hlen]
    · simp [StepsOn, htwice, htwice', hlen]

/-- No step but that over all days comes to a day and to the same day of the next week. -/
theorem eq_one_of_dvd_seven (hp : 1 ≤ p) (hk : 1 ≤ k ∧ k ≤ 6) (h : p ∣ k) (h' : p ∣ 7 - k) :
    p = 1 := by
  have hseven := Int.dvd_add h' h
  rw [Int.sub_add_cancel] at hseven
  have hle := Int.le_of_dvd (by omega) h
  have hsmall : p = 1 ∨ p = 2 ∨ p = 3 ∨ p = 4 ∨ p = 5 ∨ p = 6 := by omega
  rcases hsmall with rfl | rfl | rfl | rfl | rfl | rfl <;> omega

/-- The multiples of a number among the days of the week are the same from two days if and only if
the days are the same, or every day is one. -/
theorem shifted_iff {c : Int} (hc : -6 ≤ c ∧ c ≤ 6) (hp : 1 ≤ p) :
    (∀ k, 0 ≤ k → k ≤ 6 → (p ∣ (k + c) % 7 ↔ p ∣ k)) ↔ p = 1 ∨ c = 0 := by
  constructor
  · intro hsame
    by_cases hzero : c = 0
    · exact .inr hzero
    left
    -- the first day of each is one of the other
    have hfirst : p ∣ c % 7 := by
      have h := (hsame 0 (by omega) (by omega)).2 (Int.dvd_zero p)
      rwa [Int.zero_add] at h
    have hother : p ∣ 7 - c % 7 := by
      have heq : (7 - c % 7 + c) % 7 = 0 := by omega
      have h := hsame (7 - c % 7) (by omega) (by omega)
      rw [heq] at h
      exact h.1 (Int.dvd_zero p)
    exact eq_one_of_dvd_seven hp (by omega) hfirst hother
  · rintro (rfl | rfl) k hk hk'
    · simp only [Int.one_dvd]
    · rw [Int.add_zero, Int.emod_eq_of_lt hk (by omega)]

/-- Where the early days and the late ones fall on multiples of the period, it makes no difference
where a step over the whole week starts to count. -/
theorem restarted_of_dvd (hs : 1 ≤ s ∧ s ≤ 7) (height : p ∣ 8) (hstart : p ∣ s)
    (hk : 0 ≤ k ∧ k ≤ 6) :
    p ∣ (k + s) % 7 ↔ p ∣ k ∧ k ≤ 7 - s ∨ p ∣ k + 1 ∧ 7 - s ≤ k ∧ k ≤ 6 := by
  by_cases hearly : k < 7 - s
  · have heq : (k + s) % 7 = k + s := by omega
    rw [heq, Int.dvd_add_left hstart]
    constructor
    · intro h
      exact .inl ⟨h, by omega⟩
    · rintro (⟨h, -⟩ | ⟨-, h, -⟩)
      · exact h
      · omega
  · have heq : (k + s) % 7 = k + 1 + (s - 8) := by omega
    have hshift : p ∣ s - 8 := Int.dvd_sub hstart height
    constructor
    · intro h
      rw [heq, Int.dvd_add_left hshift] at h
      exact .inr ⟨h, by omega, hk.2⟩
    · rintro (⟨h, hle⟩ | ⟨h, -, -⟩)
      · have hzero : (k + s) % 7 = 0 := by omega
        rw [hzero]
        exact Int.dvd_zero p
      · rw [heq, Int.dvd_add_left hshift]
        exact h

/-- Counted from the start of the week, a step over a range that counts a day twice keeps its days
if and only if all days are in it, or the late ones and the early ones fall on multiples of the
period, or there is only the one day. -/
theorem restarted_iff (hs : 1 ≤ s ∧ s ≤ 7) (hp : 1 ≤ p) :
    (∀ k, 0 ≤ k → k ≤ 6 →
        (p ∣ (k + s) % 7 ↔ p ∣ k ∧ k ≤ 7 - s ∨ p ∣ k + 1 ∧ 7 - s ≤ k ∧ k ≤ 6)) ↔
      p = 1 ∨ (p ∣ 8 ∧ p ∣ s ∨ s = 7 ∧ 8 ≤ p) := by
  constructor
  · intro hsame
    by_cases hlast : s = 7
    · by_cases hlong : 8 ≤ p
      · exact .inr (.inr ⟨hlast, hlong⟩)
      by_cases hone : p = 1
      · exact .inl hone
      -- the first late day comes too early
      have hdvd : p ∣ p - 1 + 1 := ⟨1, by omega⟩
      have hday := (hsame (p - 1) (by omega) (by omega)).2 (.inr ⟨hdvd, by omega, by omega⟩)
      have heq : (p - 1 + s) % 7 = p - 1 := by omega
      rw [heq] at hday
      have hle := Int.le_of_dvd (by omega) hday
      omega
    · have hstart : p ∣ s := by
        have h := (hsame 0 (by omega) (by omega)).2 (.inl ⟨Int.dvd_zero p, by omega⟩)
        rwa [Int.zero_add, Int.emod_eq_of_lt (by omega) (by omega)] at h
      have htwice : p ∣ 7 - s ∨ p ∣ 8 - s := by
        have heq : (7 - s + s) % 7 = 0 := by omega
        have h := hsame (7 - s) (by omega) (by omega)
        rw [heq] at h
        rcases h.1 (Int.dvd_zero p) with ⟨hdvd, -⟩ | ⟨hdvd, -, -⟩
        · exact .inl hdvd
        · right
          have heq' : 7 - s + 1 = 8 - s := by omega
          rwa [heq'] at hdvd
      rcases htwice with hdvd | hdvd
      · exact .inl (eq_one_of_dvd_seven hp (by omega) hstart hdvd)
      · right
        left
        have h := Int.dvd_add hdvd hstart
        rw [Int.sub_add_cancel] at h
        exact ⟨h, hstart⟩
  · rintro (rfl | ⟨height, hstart⟩ | ⟨rfl, hlong⟩) k hk hk'
    · simp only [Int.one_dvd, true_and, true_iff]
      omega
    · exact restarted_of_dvd hs height hstart ⟨hk, hk'⟩
    · have heq : (k + 7) % 7 = k := by omega
      rw [heq]
      constructor
      · intro h
        by_cases hzero : k = 0
        · exact .inl ⟨h, by omega⟩
        · have hle := Int.le_of_dvd (by omega) h
          omega
      · rintro (⟨h, -⟩ | ⟨h, -, -⟩)
        · exact h
        · have hle := Int.le_of_dvd (by omega) h
          omega

/-- A step over a range that covers the week counts from the start of the week after renumbering.
This is what it means to come to the same days, told in days from the first one of the range. -/
theorem every_week_days_iff (hr : r.Consecutive) (hr' : r'.Consecutive) (hp : 1 ≤ p)
    (hweek : r'.toIso r'.min = r.toIso r.min) (hs : r.Contains s) (he : r.Contains e) :
    (∀ date : Date, date.Valid →
        admitsWeekday r' date (.every (.between r'.min (r'.min + 6)) p) =
          admitsWeekday r date (.every (.between s e) p)) ↔
      ∀ k, 0 ≤ k → k ≤ 6 →
        (p ∣ (k + (r.toIso s - r.toIso r.min)) % 7 ↔ StepsOn r s e p k) := by
  have hfirst := hr'.contains (v := r'.min) (by omega)
  have hlast := hr'.contains (v := r'.min + 6) (by omega)
  have hstep : ∀ date, admitsWeekday r date (.every (.between s e) p) =
      .ok (decide (StepsOn r s e p ((date.weekday - r.toIso s) % 7))) :=
    fun date => admitsWeekday_every hr hp rfl hs he
  have hweekly : ∀ date, admitsWeekday r' date (.every (.between r'.min (r'.min + 6)) p) =
      .ok (decide (p ∣ ((date.weekday - r.toIso s) % 7 + (r.toIso s - r.toIso r.min)) % 7)) := by
    intro date
    have hmod : ((date.weekday - r.toIso s) % 7 + (r.toIso s - r.toIso r.min)) % 7 =
        (date.weekday - r'.toIso r'.min) % 7 := by omega
    rw [admitsWeekday_every hr' hp rfl hfirst hlast, hmod]
    refine congrArg Except.ok (decide_eq_decide.2 ?_)
    rw [stepsOn_of_le (by omega), and_iff_left (by omega)]
  simp only [← forall_date_iff (r.toIso s), hstep, hweekly, Except.ok.injEq, decide_eq_decide]

/-- A step over a range that covers the week comes to the same days after renumbering if and only if
it did count from the start of the week, or has all days, or no day of it comes late. -/
theorem every_week_iff (hr : r.Weekly) (hr' : r'.Weekly) (hp : 1 ≤ p)
    (hweek : r'.toIso r'.min = r.toIso r.min) (hs : r.Contains s) (he : r.Contains e)
    (hlong : 6 ≤ span s e) :
    (∀ date : Date, date.Valid →
        admitsWeekday r' date (.every (.between r'.min (r'.min + 6)) p) =
          admitsWeekday r date (.every (.between s e) p)) ↔
      p = 1 ∨ if CountsTwice r s e then p ∣ 8 ∧ p ∣ s ∨ s = 7 ∧ 8 ≤ p
        else r.toIso s = r.toIso r.min := by
  have hiso := hr.consecutive.toIso_bounds s
  have hiso' := hr.consecutive.toIso_bounds r.min
  rw [every_week_days_iff hr hr' hp hweek hs he]
  by_cases htwice : CountsTwice r s e
  · rw [if_pos htwice]
    obtain ⟨hmax, hes⟩ := htwice
    obtain ⟨hmin, hmax'⟩ : r.min = 0 ∧ r.max = 7 := by
      rcases hr.numbers with ⟨-, h⟩ | ⟨-, h, h'⟩
      · omega
      · exact ⟨h, h'⟩
    unfold FieldRule.Contains at hs he
    have hsix : span s e = 6 := by
      unfold span at hlong ⊢
      split at hlong <;> split <;> omega
    have hshift : ∀ k, (k + (r.toIso s - r.toIso r.min)) % 7 = (k + s) % 7 := by
      intro k
      rw [hr.consecutive.toIso_eq, hr.consecutive.toIso_eq]
      omega
    rw [← restarted_iff (by omega) hp]
    simp only [StepsOn, if_pos (show CountsTwice r s e from ⟨hmax, hes⟩), hmax', hsix, hshift]
  · rw [if_neg htwice]
    have hone : r.toIso s = r.toIso r.min ↔ r.toIso s - r.toIso r.min = 0 := by omega
    rw [hone, ← shifted_iff (by omega) hp]
    have hall : ∀ k, 0 ≤ k → k ≤ 6 → (StepsOn r s e p k ↔ p ∣ k) := by
      intro k hk hk'
      rw [StepsOn, if_neg htwice, and_iff_left (by omega)]
    constructor
    · intro h k hk hk'
      rw [h k hk hk', hall k hk hk']
    · intro h k hk hk'
      rw [h k hk hk', hall k hk hk']

/-! ### Renumbered steps -/

/-- A range becomes the whole week if it covers the week, and a range between the same days in the
form that the field allows otherwise. -/
theorem renumber_between (r' : FieldRule) (hr : r.Consecutive) (hs : r.Contains s)
    (he : r.Contains e) :
    renumber r r' (.between s e) = .ok (if 6 ≤ span s e then .between r'.min (r'.min + 6)
      else weekdayRange r' (renumberDay r r' s) (renumberDay r r' e)) := by
  rw [renumber, coversWeek_eq_span hr hs he]
  by_cases hlong : 6 ≤ span s e
  · rw [decide_eq_true hlong, if_pos hlong]
    rfl
  · rw [decide_eq_false hlong, if_neg hlong]
    rfl

/-- The form of a range is a range between the same days, in order where the field wants that, or it
is split in two where the field ends. -/
theorem weekdayRange_cases (hr : r.Consecutive) (hs : r.min ≤ s ∧ s ≤ r.min + 6)
    (he : r.min ≤ e ∧ e ≤ r.min + 6) :
    (∃ b, weekdayRange r s e = .between s b ∧ r.Contains b ∧ r.toIso b = r.toIso e ∧ b - s < 7 ∧
        (r.strict = false ∨ s ≤ b)) ∨
      (weekdayRange r s e = .list [rangeOrValue s (r.min + 6), rangeOrValue r.min e] ∧
        r.strict = true ∧ e < s ∧ ∀ u, r.Contains u → r.toIso u = r.toIso e → u ≤ s) := by
  rw [weekdayRange]
  by_cases hform : s ≤ e ∨ (!r.strict) = true
  · rw [if_pos hform]
    rw [Bool.not_eq_true', or_comm] at hform
    exact .inl ⟨e, rfl, hr.contains he, rfl, by omega, hform⟩
  rw [if_neg hform]
  split
  · next raw hraw =>
    obtain ⟨hmem, hlt⟩ := List.mem_filter.1 (List.mem_of_getLast? hraw)
    rw [decide_eq_true_eq] at hlt
    obtain ⟨hc, hiso⟩ := (hr.mem_numerals_iff he).1 hmem
    have hmax := hr.span
    have hle := hc.2
    exact .inl ⟨raw, rfl, hc, hiso, by omega, .inr (by omega)⟩
  · next hnone =>
    -- no number of the last day lies after the first
    rw [List.getLast?_eq_none_iff, List.filter_eq_nil_iff] at hnone
    obtain ⟨hwrap, hstrict⟩ := not_or.1 hform
    rw [Bool.not_eq_true', Bool.not_eq_false] at hstrict
    refine .inr ⟨rfl, hstrict, by omega, ?_⟩
    intro u hu hday
    have hle := hnone u ((hr.mem_numerals_iff he).2 ⟨hu, hday⟩)
    rw [decide_eq_true_eq] at hle
    omega

/-- A range is split exactly where it has no form in order: the field wants one, the range wraps,
and no number of its last day comes after the first one. -/
theorem isList_weekdayRange_iff (hr : r.Consecutive) (hs : r.min ≤ s ∧ s ≤ r.min + 6)
    (he : r.min ≤ e ∧ e ≤ r.min + 6) :
    (weekdayRange r s e).isList = true ↔
      r.strict = true ∧ e < s ∧ ∀ u, r.Contains u → r.toIso u = r.toIso e → u ≤ s := by
  rcases weekdayRange_cases hr hs he with ⟨b, hb, hin, hday, -, hord⟩ | ⟨hsplit, hform⟩
  · rw [hb]
    refine iff_of_false nofun ?_
    rintro ⟨hstrict, hwrap, hlast⟩
    have hsb : s ≤ b := by
      rcases hord with h | h
      · rw [hstrict] at h
        cases h
      · exact h
    have hbs := hlast b hin hday
    rw [hr.toIso_eq, hr.toIso_eq] at hday
    omega
  · rw [hsplit]
    exact iff_of_true rfl hform

theorem renumber_every_of_not_list (h : renumber r r' base = .ok y) (hy : y.isList = false) :
    renumber r r' (.every base p) = .ok (.every y p) := by
  rw [renumber, h]
  simp [bind, Except.bind, hy, pure, Except.pure]

/-- Where the base of a step is split, the days of the step are listed. -/
theorem renumber_every_of_list (h : renumber r r' base = .ok y) (hy : y.isList = true) :
    renumber r r' (.every base p) = weekdayList r r' (.every base p) := by
  rw [renumber, h]
  simp only [bind, Except.bind, if_pos hy]

/-- **A step means the same days after renumbering exactly when it is kept**, in weeks that start on
the same day. -/
theorem renumber_every_weekly (hr : d.rule.Weekly) (hr' : r'.Weekly)
    (hweek : r'.toIso r'.min = d.rule.toIso d.rule.min) (hc : check d (.every base p) = .ok ()) :
    ∃ y, renumber d.rule r' (.every base p) = .ok y ∧
      ((∀ date : Date, date.Valid →
          admitsWeekday r' date y = admitsWeekday d.rule date (.every base p)) ↔
        StepKept d.rule r' p base) := by
  rw [check_every_iff] at hc
  obtain ⟨hbase, hp, hc⟩ := hc
  cases base with
  | always =>
    refine ⟨_, renumber_every_of_not_list rfl rfl, ?_⟩
    exact iff_of_true (every_always hr hr' hp hweek) trivial
  | on v n =>
    cases n with
    | none =>
      rw [check_value_iff] at hc
      exact ⟨_, renumber_every_of_not_list rfl rfl, every_value_iff hr hr' hp hc⟩
    | some n => cases hbase
  | between s e =>
    rw [check_between_iff] at hc
    obtain ⟨hs, he, -⟩ := hc
    obtain ⟨hs1, hs2, hsday⟩ := renumberDay_spec hr.consecutive hr'.consecutive s
    obtain ⟨he1, he2, heday⟩ := renumberDay_spec hr.consecutive hr'.consecutive e
    have hrange := renumber_between r' hr hs he
    rw [StepKept, RangeStepKept]
    by_cases hlong : 6 ≤ span s e
    · rw [if_pos hlong] at hrange ⊢
      exact ⟨_, renumber_every_of_not_list hrange rfl, every_week_iff hr hr' hp hweek hs he hlong⟩
    rw [if_neg hlong] at hrange ⊢
    rcases weekdayRange_cases hr' ⟨hs1, hs2⟩ ⟨he1, he2⟩ with
      ⟨b, hb, hcb, hbday, hlt, -⟩ | ⟨hes, -⟩
    · rw [hb] at hrange ⊢
      refine ⟨_, renumber_every_of_not_list hrange rfl, ?_⟩
      exact every_range_iff hr hr' hp hweek hs he (hr'.consecutive.contains ⟨hs1, hs2⟩) hcb hsday
        (hbday.trans heday) (by omega) hlt
    · rw [hes] at hrange ⊢
      obtain ⟨y, hy, hsame⟩ := admitsWeekday_weekdayList (x := .every (.between s e) p)
        hr.consecutive hr'.consecutive rfl
        (stepAdmits_eq hp (show stepRange? d.rule.min d.rule.max (.between s e) = _ from rfl))
      refine ⟨y, ?_, iff_of_true (fun date _ => hsame date) (.inr trivial)⟩
      rw [renumber_every_of_list hrange rfl]
      exact hy
  | _ => cases hbase

variable {source target : Definition} {sd td : FieldDefinition}

/-- **A step means the same days after renumbering exactly when it is kept**, from any of the four
dialects to any other. -/
theorem renumber_every_iff (hS : source ∈ Dialect.all) (hT : target ∈ Dialect.all)
    (hsd : source.field? .dayOfWeek = some sd) (htd : target.field? .dayOfWeek = some td)
    (hc : check sd (.every base p) = .ok ()) :
    ∃ y, renumber sd.rule td.rule (.every base p) = .ok y ∧
      ((∀ date : Date, date.Valid →
          admitsWeekday td.rule date y = admitsWeekday sd.rule date (.every base p)) ↔
        StepKept sd.rule td.rule p base) := by
  have hweek : td.rule.toIso td.rule.min = sd.rule.toIso sd.rule.min := by
    rw [Dialect.toIso_min hS hsd, Dialect.toIso_min hT htd]
  exact renumber_every_weekly (Dialect.weekly hS hsd) (Dialect.weekly hT htd) hweek hc

/-- The day of the week in Unix cron. -/
def unixWeekday : FieldDefinition :=
  ⟨.dayOfWeek, { Dialect.sundayZeroRule with strict := true }, false⟩

/-- The day of the week in Quartz. -/
def quartzWeekday : FieldDefinition :=
  ⟨.dayOfWeek, { Dialect.sundayOneRule with allowsQuestion := true }, false⟩

/-- Every other day from Monday to Friday. -/
theorem renumber_mondayToFriday :
    renumber unixWeekday.rule quartzWeekday.rule (.every (.between 1 5) 2) =
        .ok (.every (.between 2 6) 2) ∧
      ∀ date : Date, date.Valid → admitsWeekday quartzWeekday.rule date (.every (.between 2 6) 2) =
        admitsWeekday unixWeekday.rule date (.every (.between 1 5) 2) := by
  have hsd : Dialect.unix.field? .dayOfWeek = some unixWeekday := rfl
  have htd : Dialect.quartz.field? .dayOfWeek = some quartzWeekday := rfl
  have hc : check unixWeekday (.every (.between 1 5) 2) = .ok () := rfl
  obtain ⟨y, hy, hkept⟩ :=
    renumber_every_iff Dialect.unix_mem_all Dialect.quartz_mem_all hsd htd hc
  have hrun : renumber unixWeekday.rule quartzWeekday.rule (.every (.between 1 5) 2) =
      .ok (.every (.between 2 6) 2) := rfl
  cases hy.symm.trans hrun
  refine ⟨hrun, hkept.2 ?_⟩
  right
  rw [if_neg (by decide)]
  exact .inl (by decide)

/-- **Every other day from Wednesday on loses Sunday**: in Unix cron it ends with Sunday, which has
the number 7 there, and in Quartz, where Sunday is the first day of the week, it ends before. -/
theorem renumber_fromWednesday :
    check unixWeekday (.every (.on 3 none) 2) = .ok () ∧
      renumber unixWeekday.rule quartzWeekday.rule (.every (.on 3 none) 2) =
        .ok (.every (.on 4 none) 2) ∧
      admitsWeekday unixWeekday.rule ⟨2024, 1, 7⟩ (.every (.on 3 none) 2) = .ok true ∧
      admitsWeekday quartzWeekday.rule ⟨2024, 1, 7⟩ (.every (.on 4 none) 2) = .ok false := by
  have hunix : unixWeekday.rule.Weekly := ⟨.inl rfl, .inr ⟨rfl, rfl, rfl⟩⟩
  have hquartz : quartzWeekday.rule.Weekly := ⟨.inr rfl, .inl ⟨rfl, rfl⟩⟩
  refine ⟨rfl, rfl, ?_, ?_⟩
  -- Sunday is the fourth day after Wednesday
  · rw [admitsWeekday_every hunix (by decide) rfl (by decide) (by decide)]
    exact congrArg Except.ok (decide_eq_true (by decide))
  · rw [admitsWeekday_every hquartz (by decide) rfl (by decide) (by decide)]
    exact congrArg Except.ok (decide_eq_false (by decide))

end CronSchedule.Expr
