import CronSchedule.Proofs.Accepted
import CronSchedule.Proofs.Fields
import CronSchedule.Translation.Weekday

/-!
# Weekdays keep their meaning

A weekday field numbers the days one after another, modulo seven. So a range means the days that
follow its first day for a while, and this does not depend on the numbering.

* `FieldRule.Consecutive`: numberings of the week, among them those of the four dialects,
  `FieldRule.Weekly`.
* `Expr.admitsWeekday_weekdayRange`: the form that a range takes means the same days.
* `Expr.admitsWeekday_renumber`: **an expression admits the same dates after renumbering**, if each
  step in it does.
* `Expr.admitsWeekday_renumber_stepless`: **renumbering an expression without steps keeps its
  days**.
-/

namespace CronSchedule

/-! ### Numberings of the week -/

namespace FieldRule

/-- The days are numbered one after another from the least number on, which is at most 7. The first
day may have another number, past that of the last one. -/
structure Consecutive (r : FieldRule) : Prop where
  least : 0 ≤ r.min ∧ r.min ≤ 7
  numbers : (r.alternates = [] ∧ r.max = r.min + 6) ∨
    (r.alternates = [(r.min + 7, r.min)] ∧ r.max = r.min + 7)

/-- The days are numbered one after another from the least number on, which is 0 or 1. Where it is
0, the first day may have the number 7, too. -/
structure Weekly (r : FieldRule) : Prop where
  least : r.min = 0 ∨ r.min = 1
  numbers : (r.alternates = [] ∧ r.max = r.min + 6) ∨
    (r.alternates = [(7, 0)] ∧ r.min = 0 ∧ r.max = 7)

variable {r : FieldRule} {v u w : Int}

theorem Weekly.consecutive (hr : r.Weekly) : r.Consecutive where
  least := by
    have h := hr.least
    omega
  numbers := by
    rcases hr.numbers with h | ⟨h, hmin, hmax⟩
    · exact .inl h
    · right
      rw [h, hmin, hmax]
      exact ⟨rfl, rfl⟩

/-- What holds of consecutive numberings holds of those of the dialects. -/
instance : Coe r.Weekly r.Consecutive := ⟨Weekly.consecutive⟩

theorem Consecutive.span (hr : r.Consecutive) : r.max = r.min + 6 ∨ r.max = r.min + 7 := by
  rcases hr.numbers with ⟨-, h⟩ | ⟨-, h⟩
  · exact .inl h
  · exact .inr h

theorem Consecutive.normalize_eq (hr : r.Consecutive) (v : Int) :
    r.normalize v = v ∨ (v = r.min + 7 ∧ r.max = r.min + 7 ∧ r.normalize v = r.min) := by
  rcases hr.numbers with ⟨h, -⟩ | ⟨h, hmax⟩
  · left
    rw [normalize, h]
    rfl
  · by_cases hv : v = r.min + 7
    · right
      refine ⟨hv, hmax, ?_⟩
      rw [normalize, h, hv, List.lookup_cons_self]
      rfl
    · left
      have hb : (v == r.min + 7) = false := by simpa using hv
      rw [normalize, h, List.lookup_cons, hb]
      rfl

theorem Consecutive.toIso_eq (hr : r.Consecutive) (v : Int) :
    r.toIso v = (v - r.monday) % 7 + 1 := by
  rw [toIso]
  rcases hr.normalize_eq v with h | ⟨hv, -, h⟩
  · rw [h]
  · rw [h, hv]
    omega

theorem Consecutive.toIso_bounds (hr : r.Consecutive) (v : Int) :
    1 ≤ r.toIso v ∧ r.toIso v ≤ 7 := by
  rw [hr.toIso_eq]
  omega

/-- The number of a weekday is one of the first seven, and it means the weekday. -/
theorem Consecutive.ofIso_spec (hr : r.Consecutive) (hw : 1 ≤ w ∧ w ≤ 7) :
    r.min ≤ r.ofIso w ∧ r.ofIso w ≤ r.min + 6 ∧ r.toIso (r.ofIso w) = w := by
  have hmin := hr.least
  rw [hr.toIso_eq]
  simp only [ofIso]
  split <;> omega

theorem Consecutive.contains (hr : r.Consecutive) (h : r.min ≤ v ∧ v ≤ r.min + 6) :
    r.Contains v := by
  have hmax := hr.span
  exact ⟨h.1, by omega⟩

theorem mem_numerals : u ∈ r.numerals v ↔ u = v ∨ (u, v) ∈ r.alternates := by
  simp only [numerals, List.mem_eraseDups, List.mem_mergeSort, List.mem_cons, List.mem_map,
    List.mem_filter, beq_iff_eq, Prod.exists, exists_and_right, exists_eq_right]

/-- The numbers that mean the same as one of the first seven. -/
theorem Consecutive.mem_numerals_iff (hr : r.Consecutive) (hv : r.min ≤ v ∧ v ≤ r.min + 6) :
    u ∈ r.numerals v ↔ r.Contains u ∧ r.toIso u = r.toIso v := by
  rw [mem_numerals, hr.toIso_eq, hr.toIso_eq]
  unfold Contains
  rcases hr.numbers with ⟨h, hmax⟩ | ⟨h, hmax⟩
  · simp only [h, List.not_mem_nil, or_false]
    omega
  · simp only [h, List.mem_singleton, Prod.mk.injEq]
    omega

theorem Consecutive.normalize_eq_ofIso_iff (hr : r.Consecutive) (hv : r.Contains v)
    (hw : 1 ≤ w ∧ w ≤ 7) : r.normalize v = r.ofIso w ↔ r.toIso v = w := by
  obtain ⟨h1, h2, h3⟩ := hr.ofIso_spec hw
  rw [hr.toIso_eq] at h3 ⊢
  have hmax := hr.span
  unfold Contains at hv
  rcases hr.normalize_eq v with h | ⟨rfl, -, h⟩
  · rw [h]
    rcases hr.numbers with ⟨-, hm⟩ | ⟨hl, hm⟩
    · omega
    · have hne : v ≠ r.min + 7 := by
        rintro rfl
        rw [normalize, hl, List.lookup_cons_self, Option.getD_some] at h
        omega
      omega
  · rw [h]
    omega

theorem Consecutive.normalize_beq (hr : r.Consecutive) (hv : r.Contains v) (hw : 1 ≤ w ∧ w ≤ 7) :
    (r.normalize v == r.ofIso w) = decide (r.toIso v = w) := by
  rw [Bool.eq_iff_iff, beq_iff_eq, decide_eq_true_eq]
  exact hr.normalize_eq_ofIso_iff hv hw

end FieldRule

namespace Dialect

variable {D : Definition} {d : FieldDefinition}

theorem weekly (hD : D ∈ all) (hd : D.field? .dayOfWeek = some d) : d.rule.Weekly := by
  have h : ∀ D ∈ all, ∀ d ∈ D.fields, d.name = .dayOfWeek →
      (d.rule.min = 0 ∨ d.rule.min = 1) ∧
        ((d.rule.alternates = [] ∧ d.rule.max = d.rule.min + 6) ∨
          (d.rule.alternates = [(7, 0)] ∧ d.rule.min = 0 ∧ d.rule.max = 7)) := by decide
  obtain ⟨hm, hn⟩ := Definition.mem_of_field? hd
  exact ⟨(h D hD d hm hn).1, (h D hD d hm hn).2⟩

/-- The week starts on Sunday. -/
theorem toIso_min (hD : D ∈ all) (hd : D.field? .dayOfWeek = some d) :
    d.rule.toIso d.rule.min = 7 := by
  have h : ∀ D ∈ all, ∀ d ∈ D.fields, d.name = .dayOfWeek → d.rule.toIso d.rule.min = 7 := by
    decide
  obtain ⟨hm, hn⟩ := Definition.mem_of_field? hd
  exact h D hD d hm hn

end Dialect

namespace Expr

/-! ### Days of a field -/

variable {r : FieldRule} {v u w s e : Int} {date : Date}

theorem weekday_bounds (date : Date) : 1 ≤ date.weekday ∧ date.weekday ≤ 7 := by
  rw [Date.weekday]
  omega

/-- Whether an expression asks about the numbers of a weekday and about nothing else. -/
def isNumeric : Expr → Bool
  | .on _ (some _) | .last _ | .list _ => false
  | _ => true

/-- An expression of numbers admits a weekday if it admits some number that means it. -/
theorem admitsWeekday_of_numeric (hr : r.Consecutive) {e : Expr} (he : e.isNumeric = true)
    {passes : Int → Bool} (hp : ∀ u, admitsIn r u e = .ok (passes u)) {b : Bool}
    (h : (∃ u, r.Contains u ∧ r.toIso u = date.weekday ∧ passes u = true) ↔ b = true) :
    admitsWeekday r date e = .ok b := by
  have hany : admitsWeekday r date e =
      (r.numerals (r.ofIso date.weekday)).anyM fun u => admitsIn r u e := by
    cases e with
    | on v n =>
      cases n with
      | none => rfl
      | some n => cases he
    | last | list => cases he
    | _ => rfl
  obtain ⟨h1, h2, h3⟩ := hr.ofIso_spec (weekday_bounds date)
  have hf : (fun u => admitsIn r u e) = fun u => pure (passes u) := funext hp
  rw [hany, hf, List.anyM_pure]
  refine congrArg Except.ok ?_
  rw [Bool.eq_iff_iff, ← h, List.any_eq_true]
  simp only [hr.mem_numerals_iff ⟨h1, h2⟩, h3, and_assoc]

theorem admitsWeekday_value (hr : r.Consecutive) (hv : r.Contains v) :
    admitsWeekday r date (.on v none) = .ok (decide (r.toIso v = date.weekday)) := by
  refine admitsWeekday_of_numeric hr rfl (fun u => rfl) ?_
  rw [decide_eq_true_eq]
  constructor
  · rintro ⟨u, -, hu, heq⟩
    rwa [beq_iff_eq.1 heq]
  · intro h
    exact ⟨v, hv, h, beq_self_eq_true v⟩

/-- Every value means every day. -/
theorem admitsWeekday_unspecified (hr : r.Consecutive) {e : Expr} (he : e.isUnspecified = true) :
    admitsWeekday r date e = .ok true := by
  obtain ⟨h1, h2, h3⟩ := hr.ofIso_spec (weekday_bounds date)
  have hday : ∃ u, r.Contains u ∧ r.toIso u = date.weekday ∧ true = true :=
    ⟨r.ofIso date.weekday, hr.contains ⟨h1, h2⟩, h3, rfl⟩
  cases e with
  | always | question =>
    exact admitsWeekday_of_numeric hr rfl (fun u => rfl) ⟨fun _ => rfl, fun _ => hday⟩
  | _ => cases he

/-- Whether a weekday is among those from a first one to a last one, in a week that starts with the
first. -/
def isDayBetween (first last day : Int) : Bool := (day - first) % 7 ≤ (last - first) % 7

/-- **A range means the days from its first to its last**, unless it runs through one day twice. -/
theorem admitsWeekday_between (hr : r.Consecutive) (hs : r.Contains s) (he : r.Contains e)
    (hse : e - s < 7) :
    admitsWeekday r date (.between s e) =
      .ok (isDayBetween (r.toIso s) (r.toIso e) date.weekday) := by
  have hw := weekday_bounds date
  have hspan := hr.span
  refine admitsWeekday_of_numeric hr rfl (fun u => rfl) ?_
  simp only [isDayBetween, hr.toIso_eq, decide_eq_true_eq, FieldRule.Contains] at *
  by_cases hle : s ≤ e
  · simp only [if_pos hle, Bool.and_eq_true, decide_eq_true_eq]
    constructor
    · rintro ⟨u, -, hu, h1, h2⟩
      omega
    · intro h
      -- the first number from the start on that means the day
      exact ⟨s + (date.weekday - ((s - r.monday) % 7 + 1)) % 7, by omega, by omega, by omega⟩
  · simp only [if_neg hle, Bool.or_eq_true, decide_eq_true_eq]
    constructor
    · rintro ⟨u, hu, hday, h⟩
      omega
    · intro h
      by_cases hwrap : s + (date.weekday - ((s - r.monday) % 7 + 1)) % 7 ≤ r.max
      · exact ⟨s + (date.weekday - ((s - r.monday) % 7 + 1)) % 7, by omega, by omega, by omega⟩
      -- past the end of the field the days go on from its least number
      · exact ⟨s + (date.weekday - ((s - r.monday) % 7 + 1)) % 7 - 7, by omega, by omega, by omega⟩

theorem admitsWeekday_nth (hr : r.Consecutive) (hv : r.Contains v) (n : Int) :
    admitsWeekday r date (.on v (some n)) =
      .ok (decide (r.toIso v = date.weekday) && (date.day - 1) / 7 + 1 == n) := by
  rw [admitsWeekday, hr.normalize_beq hv (weekday_bounds date)]

theorem admitsWeekday_lastDay (hr : r.Consecutive) (hv : r.Contains v) :
    admitsWeekday r date (.last (some v)) = .ok (decide (r.toIso v = date.weekday) &&
      decide (daysInMonth date.year date.month < date.day + 7)) := by
  rw [admitsWeekday, hr.normalize_beq hv (weekday_bounds date)]

/-! ### The form of a range -/

theorem admitsWeekday_rangeOrValue (hr : r.Consecutive) (hs : r.Contains s) (he : r.Contains e)
    (hse : e - s < 7) :
    admitsWeekday r date (rangeOrValue s e) =
      .ok (isDayBetween (r.toIso s) (r.toIso e) date.weekday) := by
  rw [rangeOrValue]
  by_cases heq : s = e
  · rw [if_pos heq, value, admitsWeekday_value hr hs, ← heq, isDayBetween]
    have hw := weekday_bounds date
    have hi := hr.toIso_bounds s
    refine congrArg Except.ok (decide_eq_decide.2 ?_)
    omega
  · rw [if_neg heq, admitsWeekday_between hr hs he hse]

/-- **The form of a range means the days from its first to its last**, whether it stays as it is,
ends on another number of its last day or is split where the field ends. -/
theorem admitsWeekday_weekdayRange (hr : r.Consecutive) (hs : r.min ≤ s ∧ s ≤ r.min + 6)
    (he : r.min ≤ e ∧ e ≤ r.min + 6) :
    admitsWeekday r date (weekdayRange r s e) =
      .ok (isDayBetween (r.toIso s) (r.toIso e) date.weekday) := by
  have hmax := hr.span
  rw [weekdayRange]
  by_cases hform : s ≤ e ∨ (!r.strict) = true
  · rw [if_pos hform, admitsWeekday_between hr (hr.contains hs) (hr.contains he) (by omega)]
  rw [if_neg hform]
  split
  -- the range ends on the other number of its last day
  · next raw hraw =>
    obtain ⟨hmem, hlt⟩ := List.mem_filter.1 (List.mem_of_getLast? hraw)
    obtain ⟨hc, hiso⟩ := (hr.mem_numerals_iff he).1 hmem
    have hle := hc.2
    rw [admitsWeekday_between hr (hr.contains hs) hc (by omega), hiso]
  · have hwrap : e < s := by omega
    have hlast : r.min ≤ r.min + 6 ∧ r.min + 6 ≤ r.min + 6 := by omega
    have hfirst : r.min ≤ r.min ∧ r.min ≤ r.min + 6 := by omega
    rw [admitsWeekday, anyAdmitsWeekday, anyAdmitsWeekday, anyAdmitsWeekday,
      admitsWeekday_rangeOrValue hr (hr.contains hs) (hr.contains hlast) (by omega),
      admitsWeekday_rangeOrValue hr (hr.contains hfirst) (hr.contains he) (by omega)]
    -- a day from the first to the end of the field, or from its start to the last
    have hor : isDayBetween (r.toIso s) (r.toIso e) date.weekday =
        (isDayBetween (r.toIso s) (r.toIso (r.min + 6)) date.weekday ||
          isDayBetween (r.toIso r.min) (r.toIso e) date.weekday) := by
      have hw := weekday_bounds date
      rw [Bool.eq_iff_iff, Bool.or_eq_true]
      simp only [isDayBetween, hr.toIso_eq, decide_eq_true_eq]
      omega
    rw [hor]
    cases isDayBetween (r.toIso s) (r.toIso (r.min + 6)) date.weekday with
    | true => rfl
    | false =>
      cases isDayBetween (r.toIso r.min) (r.toIso e) date.weekday with
      | true => rfl
      | false => rfl

/-! ### Ranges over the whole week -/

theorem listed_eq {vs : List Int} (h : listed s e = .ok vs) : vs = intsBetween s e := by
  rw [listed] at h
  split at h
  · cases h
    rfl
  · cases h

/-- The numbers of a range. -/
theorem mem_rangeValues {vs : List Int} (h : rangeValues r s e = .ok vs) :
    u ∈ vs ↔ if s ≤ e then s ≤ u ∧ u ≤ e else (s ≤ u ∧ u ≤ r.max) ∨ (r.min ≤ u ∧ u ≤ e) := by
  rw [rangeValues] at h
  by_cases hle : s ≤ e
  · rw [if_pos hle] at h
    rw [listed_eq h, mem_intsBetween, if_pos hle]
  · rw [if_neg hle] at h
    obtain ⟨front, hfront, h⟩ := bind_eq_ok_iff.1 h
    obtain ⟨back, hback, h⟩ := bind_eq_ok_iff.1 h
    cases h
    rw [List.mem_append, listed_eq hfront, listed_eq hback, mem_intsBetween, mem_intsBetween,
      if_neg hle]

theorem rangeValues_total (hr : r.Consecutive) (hs : r.Contains s) (he : r.Contains e) :
    ∃ vs, rangeValues r s e = .ok vs := by
  have hmax := hr.span
  unfold FieldRule.Contains at hs he
  have hlisted : ∀ a b, b - a ≤ 7 → listed a b = .ok (intsBetween a b) := by
    intro a b h
    rw [listed, if_pos (by omega)]
  rw [rangeValues]
  split
  · exact ⟨_, hlisted s e (by omega)⟩
  · rw [hlisted s r.max (by omega), hlisted r.min e (by omega)]
    exact ⟨_, rfl⟩

theorem coversWeek_total (hr : r.Consecutive) (hs : r.Contains s) (he : r.Contains e) :
    ∃ b, coversWeek r s e = .ok b := by
  obtain ⟨vs, hvs⟩ := rangeValues_total hr hs he
  rw [coversWeek, hvs]
  exact ⟨_, rfl⟩

theorem coversWeek_eq {b : Bool} (h : coversWeek r s e = .ok b) :
    ∃ vs, rangeValues r s e = .ok vs ∧
      (b = true ↔ ∀ w, 1 ≤ w ∧ w ≤ 7 → ∃ u ∈ vs, r.toIso u = w) := by
  obtain ⟨vs, hvs, h⟩ := bind_eq_ok_iff.1 h
  refine ⟨vs, hvs, ?_⟩
  cases h
  simp only [List.all_eq_true, List.contains_iff_mem, List.mem_map]
  constructor
  · intro h w hw
    exact h w (by simp only [List.mem_cons]; omega)
  · intro h w hw
    simp only [List.mem_cons, List.not_mem_nil, or_false] at hw
    exact h w (by omega)

/-- A range that covers the week admits every day. -/
theorem admitsWeekday_of_coversWeek (hr : r.Consecutive) (hs : r.Contains s) (he : r.Contains e)
    (h : coversWeek r s e = .ok true) : admitsWeekday r date (.between s e) = .ok true := by
  obtain ⟨vs, hvs, hall⟩ := coversWeek_eq h
  obtain ⟨u, hu, hday⟩ := hall.1 rfl date.weekday (weekday_bounds date)
  rw [mem_rangeValues hvs] at hu
  refine admitsWeekday_of_numeric hr rfl (fun u => rfl) ⟨fun _ => rfl, fun _ => ⟨u, ?_, hday, ?_⟩⟩
  · unfold FieldRule.Contains at hs he ⊢
    split at hu <;> omega
  · by_cases hle : s ≤ e
    · simpa [hle] using hu
    · simp only [if_neg hle] at hu ⊢
      simp only [Bool.or_eq_true, decide_eq_true_eq]
      omega

/-- A range that does not cover the week runs through no day twice. -/
theorem lt_of_not_coversWeek (hr : r.Consecutive) (h : coversWeek r s e = .ok false) :
    e - s < 7 := by
  obtain ⟨vs, hvs, hall⟩ := coversWeek_eq h
  by_cases hshort : e - s < 7
  · exact hshort
  -- seven numbers in a row mean all the days
  have hcovers : ∀ w, 1 ≤ w ∧ w ≤ 7 → ∃ u ∈ vs, r.toIso u = w := by
    intro w hw
    refine ⟨s + (w - r.toIso s) % 7, ?_, ?_⟩
    · rw [mem_rangeValues hvs, if_pos (by omega)]
      omega
    · rw [hr.toIso_eq, hr.toIso_eq]
      omega
  cases hall.2 hcovers

/-! ### Renumbering -/

variable {r' : FieldRule} {d : FieldDefinition}

/-- The number of a weekday in another numbering means the same day. -/
theorem renumberDay_spec (hr : r.Consecutive) (hr' : r'.Consecutive) (v : Int) :
    r'.min ≤ renumberDay r r' v ∧ renumberDay r r' v ≤ r'.min + 6 ∧
      r'.toIso (renumberDay r r' v) = r.toIso v :=
  hr'.ofIso_spec (hr.toIso_bounds v)

theorem contains_renumberDay (hr : r.Consecutive) (hr' : r'.Consecutive) (v : Int) :
    r'.Contains (renumberDay r r' v) := by
  obtain ⟨h1, h2, -⟩ := renumberDay_spec hr hr' v
  exact hr'.contains ⟨h1, h2⟩

theorem admitsWeekday_renumber_between (hr : r.Consecutive) (hr' : r'.Consecutive)
    (hs : r.Contains s) (he : r.Contains e) {x : Expr} (h : renumber r r' (.between s e) = .ok x) :
    admitsWeekday r' date x = admitsWeekday r date (.between s e) := by
  rw [renumber] at h
  obtain ⟨b, hb, h⟩ := bind_eq_ok_iff.1 h
  cases b with
  | true =>
    cases h
    -- both ranges run through the whole week
    have hfirst : r'.min ≤ r'.min ∧ r'.min ≤ r'.min + 6 := by omega
    have hlast : r'.min ≤ r'.min + 6 ∧ r'.min + 6 ≤ r'.min + 6 := by omega
    have hfull : isDayBetween (r'.toIso r'.min) (r'.toIso (r'.min + 6)) date.weekday = true := by
      rw [isDayBetween, hr'.toIso_eq, hr'.toIso_eq, decide_eq_true_eq]
      omega
    rw [admitsWeekday_of_coversWeek hr hs he hb,
      admitsWeekday_between hr' (hr'.contains hfirst) (hr'.contains hlast) (by omega), hfull]
  | false =>
    cases h
    obtain ⟨hs1, hs2, hs3⟩ := renumberDay_spec hr hr' s
    obtain ⟨he1, he2, he3⟩ := renumberDay_spec hr hr' e
    rw [admitsWeekday_weekdayRange hr' ⟨hs1, hs2⟩ ⟨he1, he2⟩, hs3, he3,
      admitsWeekday_between hr hs he (lt_of_not_coversWeek hr hb)]

/-- Each of several renumbered expressions is what one of them becomes. -/
theorem exists_of_mem_renumberAll {xs ys : List Expr} (h : renumberAll r r' xs = .ok ys)
    (hy : y ∈ ys) : ∃ x ∈ xs, renumber r r' x = .ok y := by
  induction xs generalizing ys with
  | nil =>
    cases h
    cases hy
  | cons x xs ih =>
    obtain ⟨z, hz, h⟩ := bind_eq_ok_iff.1 h
    obtain ⟨zs, hzs, h⟩ := bind_eq_ok_iff.1 h
    cases h
    rcases List.mem_cons.1 hy with rfl | hy
    · exact ⟨x, List.mem_cons_self, hz⟩
    · obtain ⟨x', hx', hren⟩ := ih hzs hy
      exact ⟨x', List.mem_cons_of_mem x hx', hren⟩

mutual

/-- Whether an expression has a step in it. -/
def hasStep : Expr → Bool
  | .every _ _ => true
  | .list es => anyHasStep es
  | _ => false

/-- Whether one of several expressions has a step in it. -/
def anyHasStep : List Expr → Bool
  | [] => false
  | e :: es => hasStep e || anyHasStep es

end

theorem hasStep_of_mem {x : Expr} {xs : List Expr} (h : anyHasStep xs = false) (hx : x ∈ xs) :
    x.hasStep = false := by
  induction xs with
  | nil => cases hx
  | cons z zs ih =>
    obtain ⟨hz, hzs⟩ := Bool.or_eq_false_iff.1 h
    rcases List.mem_cons.1 hx with rfl | hx
    · exact hz
    · exact ih hzs hx

/-- Without steps there is none among the members. -/
theorem not_mem_members {x : Expr} (h : x.hasStep = false) (base : Expr) (p : Int) :
    .every base p ∉ x.members := by
  cases x with
  | list es =>
    intro hm
    cases hasStep_of_mem h hm
  | every base' p' => cases h
  | _ =>
    intro hm
    cases List.mem_singleton.1 hm

/-- Whether the steps among some expressions admit a date as they do after renumbering. -/
def KeepsSteps (r r' : FieldRule) (date : Date) (xs : List Expr) : Prop :=
  ∀ base p, .every base p ∈ xs → ∀ y, renumber r r' (.every base p) = .ok y →
    admitsWeekday r' date y = admitsWeekday r date (.every base p)

/-- Renumbering keeps the meaning of each form but lists, and of a step if it keeps its days. -/
theorem admitsWeekday_renumber_of_not_list (hr : d.rule.Consecutive) (hr' : r'.Consecutive)
    {x y : Expr} (hc : check d x = .ok ()) (hx : ∀ es, x ≠ .list es)
    (hstep : KeepsSteps d.rule r' date [x]) (h : renumber d.rule r' x = .ok y) :
    admitsWeekday r' date y = admitsWeekday d.rule date x := by
  cases x with
  | always | question =>
    cases h
    rw [admitsWeekday_unspecified hr rfl, admitsWeekday_unspecified hr' rfl]
  | on v n =>
    cases h
    obtain ⟨h1, h2, h3⟩ := renumberDay_spec hr hr' v
    have hv := hr'.contains ⟨h1, h2⟩
    cases n with
    | none =>
      rw [check_value_iff] at hc
      rw [admitsWeekday_value hr hc, admitsWeekday_value hr' hv, h3]
    | some n =>
      rw [check_nth_iff] at hc
      rw [admitsWeekday_nth hr hc.1, admitsWeekday_nth hr' hv, h3]
  | between s e =>
    rw [check_between_iff] at hc
    exact admitsWeekday_renumber_between hr hr' hc.1 hc.2.1 h
  | every base p => exact hstep base p (List.mem_singleton_self _) y h
  | list es => exact absurd rfl (hx es)
  | last w =>
    cases w with
    | none =>
      cases h
      rfl
    | some w =>
      cases h
      obtain ⟨h1, h2, h3⟩ := renumberDay_spec hr hr' w
      rw [check_lastDay_iff] at hc
      rw [admitsWeekday_lastDay hr hc.2.2, admitsWeekday_lastDay hr' (hr'.contains ⟨h1, h2⟩), h3]
  | lastOffset | nearestWeekday =>
    cases h
    have hno : ∀ {r : FieldRule} {x : Expr}, r.Consecutive → x.isNumeric = true →
        (∀ u, admitsIn r u x = .ok false) → admitsWeekday r date x = .ok false := by
      intro r x hr hn hx
      refine admitsWeekday_of_numeric hr hn hx ⟨?_, nofun⟩
      rintro ⟨u, -, -, h⟩
      exact h
    rw [hno hr rfl fun u => rfl, hno hr' rfl fun u => rfl]

theorem anyAdmitsWeekday_renumberAll (hr : d.rule.Consecutive) (hr' : r'.Consecutive)
    {xs ys : List Expr} (hc : ∀ x ∈ xs, x.isMember = true ∧ check d x = .ok ())
    (hstep : KeepsSteps d.rule r' date xs) (h : renumberAll d.rule r' xs = .ok ys) :
    anyAdmitsWeekday r' date ys = anyAdmitsWeekday d.rule date xs := by
  induction xs generalizing ys with
  | nil =>
    cases h
    rfl
  | cons x xs ih =>
    obtain ⟨⟨hm, hx⟩, hxs⟩ := List.forall_mem_cons.1 hc
    have hsx : KeepsSteps d.rule r' date [x] := by
      intro base p hm
      exact hstep base p (List.mem_cons.2 (.inl (List.mem_singleton.1 hm)))
    have hsxs : KeepsSteps d.rule r' date xs := fun base p hm =>
      hstep base p (List.mem_cons_of_mem x hm)
    obtain ⟨y, hy, h⟩ := bind_eq_ok_iff.1 h
    obtain ⟨ys, hys, h⟩ := bind_eq_ok_iff.1 h
    cases h
    have hl : ∀ es, x ≠ .list es := by
      rintro es rfl
      cases hm
    rw [anyAdmitsWeekday, anyAdmitsWeekday, ih hxs hsxs hys,
      admitsWeekday_renumber_of_not_list hr hr' hx hl hsx hy]

/-- **An expression admits the same dates after renumbering**, if each step in it does. -/
theorem admitsWeekday_renumber (hr : d.rule.Consecutive) (hr' : r'.Consecutive) {x y : Expr}
    (hc : check d x = .ok ()) (hstep : KeepsSteps d.rule r' date x.members)
    (h : renumber d.rule r' x = .ok y) :
    admitsWeekday r' date y = admitsWeekday d.rule date x := by
  by_cases hl : ∃ es, x = .list es
  · obtain ⟨es, rfl⟩ := hl
    obtain ⟨ys, hys, h⟩ := bind_eq_ok_iff.1 h
    cases h
    rw [check_list_iff] at hc
    rw [admitsWeekday, admitsWeekday]
    exact anyAdmitsWeekday_renumberAll hr hr' hc.2 hstep hys
  · have hx : ∀ es, x ≠ .list es := fun es he => hl ⟨es, he⟩
    have hself : x.members = [x] := by
      cases x with
      | list es => exact absurd rfl (hx es)
      | _ => rfl
    rw [hself] at hstep
    exact admitsWeekday_renumber_of_not_list hr hr' hc hx hstep h

/-! ### Without steps -/

theorem exists_renumber_of_not_list (r' : FieldRule) (hr : d.rule.Consecutive) {x : Expr}
    (hc : check d x = .ok ()) (hx : ∀ es, x ≠ .list es) (hs : x.hasStep = false) :
    ∃ y, renumber d.rule r' x = .ok y := by
  cases x with
  | between s e =>
    rw [check_between_iff] at hc
    -- only the days of a range are listed, which could be too many
    obtain ⟨b, hb⟩ := coversWeek_total hr hc.1 hc.2.1
    rw [renumber, hb]
    cases b with
    | true => exact ⟨_, rfl⟩
    | false => exact ⟨_, rfl⟩
  | every base p => cases hs
  | list es => exact absurd rfl (hx es)
  | last w =>
    cases w with
    | none => exact ⟨_, rfl⟩
    | some w => exact ⟨_, rfl⟩
  | _ => exact ⟨_, rfl⟩

theorem exists_renumberAll_of_stepless (r' : FieldRule) (hr : d.rule.Consecutive) {xs : List Expr}
    (hc : ∀ x ∈ xs, x.isMember = true ∧ check d x = .ok ()) (hs : anyHasStep xs = false) :
    ∃ ys, renumberAll d.rule r' xs = .ok ys := by
  induction xs with
  | nil => exact ⟨[], rfl⟩
  | cons x xs ih =>
    obtain ⟨⟨hm, hx⟩, hxs⟩ := List.forall_mem_cons.1 hc
    obtain ⟨hsx, hsxs⟩ := Bool.or_eq_false_iff.1 hs
    have hl : ∀ es, x ≠ .list es := by
      rintro es rfl
      cases hm
    obtain ⟨y, hy⟩ := exists_renumber_of_not_list r' hr hx hl hsx
    obtain ⟨ys, hys⟩ := ih hxs hsxs
    exact ⟨y :: ys, bind_eq_ok_iff.2 ⟨y, hy, bind_eq_ok_iff.2 ⟨ys, hys, rfl⟩⟩⟩

/-- Renumbering gives a result for every expression without steps that the field allows. -/
theorem exists_renumber_of_stepless (r' : FieldRule) (hr : d.rule.Consecutive) {x : Expr}
    (hc : check d x = .ok ()) (hs : x.hasStep = false) : ∃ y, renumber d.rule r' x = .ok y := by
  by_cases hl : ∃ es, x = .list es
  · obtain ⟨es, rfl⟩ := hl
    rw [check_list_iff] at hc
    obtain ⟨ys, hys⟩ := exists_renumberAll_of_stepless r' hr hc.2 hs
    rw [renumber, hys]
    exact ⟨.list ys, rfl⟩
  · exact exists_renumber_of_not_list r' hr hc (fun es he => hl ⟨es, he⟩) hs

/-- **Renumbering an expression without steps keeps its days**, from any consecutive numbering to
any other, whatever else the two fields allow. -/
theorem admitsWeekday_renumber_stepless (hr : d.rule.Consecutive) (hr' : r'.Consecutive) {x : Expr}
    (hc : check d x = .ok ()) (hs : x.hasStep = false) :
    ∃ y, renumber d.rule r' x = .ok y ∧
      ∀ date, ∃ b, admitsWeekday d.rule date x = .ok b ∧ admitsWeekday r' date y = .ok b := by
  obtain ⟨y, hy⟩ := exists_renumber_of_stepless r' hr hc hs
  refine ⟨y, hy, fun date => ?_⟩
  obtain ⟨b, hb⟩ := admitsWeekday_total d.rule date hc
  have hstep : KeepsSteps d.rule r' date x.members := by
    intro base p hm
    exact absurd hm (not_mem_members hs base p)
  refine ⟨b, hb, ?_⟩
  rw [admitsWeekday_renumber hr hr' hc hstep hy, hb]

/-- A week numbered from 3 on, with a second number for its first day. -/
def weekFromThree : FieldRule :=
  { min := 3, max := 10, alternates := [(10, 3)], allowsLast := true, allowsWeekday := true
    allowsLastWeekday := true, allowsNth := true, allowsQuestion := true, monday := -5 }

/-- A week numbered from 7 on, in which ranges must not wrap. -/
def weekFromSeven : FieldRule :=
  { min := 7, max := 13, allowsLast := true, allowsWeekday := true, allowsLastWeekday := true
    allowsNth := true, allowsQuestion := true, strict := true, monday := 12 }

/-- The wrapping range is split in two. -/
theorem admitsWeekday_renumber_split :
    ∃ y, renumber weekFromThree weekFromSeven
        (.list [.between 8 4, .on 10 (some 2), .last (some 5), .nearestWeekday none]) = .ok y ∧
      ∀ date, ∃ b,
        admitsWeekday weekFromThree date
          (.list [.between 8 4, .on 10 (some 2), .last (some 5), .nearestWeekday none]) = .ok b ∧
        admitsWeekday weekFromSeven date y = .ok b :=
  admitsWeekday_renumber_stepless (d := ⟨.dayOfWeek, weekFromThree, false⟩)
    ⟨by decide, by decide⟩ ⟨by decide, by decide⟩ rfl rfl

/-- An expression restricts the day after renumbering if and only if it did before. -/
theorem isUnspecified_renumber {x y : Expr} (h : renumber r r' x = .ok y) :
    y.isUnspecified = x.isUnspecified := by
  cases x with
  | between s e =>
    obtain ⟨b, -, h⟩ := bind_eq_ok_iff.1 h
    cases b with
    | true =>
      cases h
      rfl
    | false =>
      cases h
      rw [weekdayRange]
      split
      · rfl
      · split
        · rfl
        · rfl
  | every base p =>
    obtain ⟨base', -, h⟩ := bind_eq_ok_iff.1 h
    split at h
    · obtain ⟨days, -, h⟩ := bind_eq_ok_iff.1 h
      simp only at h
      split at h
      · cases h
        rfl
      · cases h
        rfl
    · cases h
      rfl
  | list es =>
    obtain ⟨ys, -, h⟩ := bind_eq_ok_iff.1 h
    cases h
    rfl
  | last w =>
    cases w with
    | none | some =>
      cases h
      rfl
  | _ =>
    cases h
    rfl

end Expr

end CronSchedule
