import CronSchedule.Proofs.Translation.Permits

/-!
# From Quartz to Unix

Unix cron wants ranges in order and numbers the week from 0 for Sunday, which is also 7. A range of
weekdays that wraps in Quartz ends with 7 there if it ends with Sunday, and is split in two
otherwise. A step over a range that is split becomes the days one by one. Alone either makes a list
of its own, but as members of a list they make a list inside a list, and the translation fails.

The other fields keep their numbers, so they are allowed in Unix if their ranges are in order; what
Unix has no field for is left out.

* `Expr.isList_renumber`: which weekdays become a list.
* `Schedule.exists_translate_unix_iff`: **the translation succeeds exactly when no member of a list
  of weekdays is split.**
* `Schedule.translate_fridayToMonday`: a schedule for which it fails.
-/

namespace CronSchedule

namespace Expr

variable {x y : Expr} {s e p v : Int}

/-! ### Weekdays that are split -/

/-- Whether a range of Quartz weekdays has no form in order in Unix. It wraps and leaves out some
day, and it does not end with Sunday, which has a second number there. -/
def rangeSplits (s e : Int) : Bool := 1 < e && e + 1 < s

/-- Whether Quartz weekdays become a list in Unix: a range that is split, or a step that comes to a
second day of one. -/
def splits : Expr → Bool
  | .between s e => rangeSplits s e
  | .every (.between s e) p => rangeSplits s e && s + p ≤ e + 7
  | _ => false

theorem unixWeekday_isWeekday : unixWeekday.IsWeekday :=
  Dialect.isWeekday Dialect.unix_mem_all rfl

theorem quartzWeekday_isWeekday : quartzWeekday.IsWeekday :=
  Dialect.isWeekday Dialect.quartz_mem_all rfl

theorem contains_quartz : quartzWeekday.rule.Contains v ↔ 1 ≤ v ∧ v ≤ 7 := Iff.rfl

/-- Unix counts the weekdays one less than Quartz. -/
theorem renumberDay_unix (hv : quartzWeekday.rule.Contains v) :
    renumberDay quartzWeekday.rule unixWeekday.rule v = v - 1 := by
  obtain ⟨h1, h2, hday⟩ :=
    renumberDay_spec quartzWeekday_isWeekday.consecutive unixWeekday_isWeekday.consecutive v
  rw [quartzWeekday_isWeekday.consecutive.toIso_eq,
    unixWeekday_isWeekday.consecutive.toIso_eq] at hday
  obtain ⟨hmin, hmax⟩ := contains_quartz.1 hv
  have hzero : unixWeekday.rule.min = 0 := rfl
  have hone : unixWeekday.rule.monday = 1 := rfl
  have htwo : quartzWeekday.rule.monday = 2 := rfl
  omega

/-- In Unix a range is split if it wraps and does not end with Sunday. -/
theorem isList_weekdayRange_unix (hs : 1 ≤ s ∧ s ≤ 7) (he : 1 ≤ e ∧ e ≤ 7) :
    (weekdayRange unixWeekday.rule (s - 1) (e - 1)).isList = true ↔ 1 < e ∧ e < s := by
  have hr := unixWeekday_isWeekday.consecutive
  have hmin : unixWeekday.rule.min = 0 := rfl
  have hday : ∀ u, unixWeekday.rule.toIso u = (u - 1) % 7 + 1 := fun u => hr.toIso_eq u
  rw [isList_weekdayRange_iff hr (by omega) (by omega)]
  simp only [hday]
  constructor
  · rintro ⟨-, hwrap, hlast⟩
    -- 7 is no number of the last day, or it would come after the first one
    have hsunday := hlast 7 (by decide)
    omega
  · rintro ⟨hlater, hwrap⟩
    refine ⟨rfl, by omega, ?_⟩
    rintro u ⟨hu, hu'⟩ hsame
    have hmax : unixWeekday.rule.max = 7 := rfl
    omega

theorem isList_renumber_between (hs : quartzWeekday.rule.Contains s)
    (he : quartzWeekday.rule.Contains e)
    (h : renumber quartzWeekday.rule unixWeekday.rule (.between s e) = .ok y) :
    y.isList = rangeSplits s e := by
  rw [renumber_between unixWeekday.rule quartzWeekday_isWeekday.consecutive hs he,
    renumberDay_unix hs, renumberDay_unix he] at h
  have hin := contains_quartz.1 hs
  have hin' := contains_quartz.1 he
  rw [Bool.eq_iff_iff, rangeSplits, Bool.and_eq_true, decide_eq_true_eq, decide_eq_true_eq]
  by_cases hlong : 6 ≤ span s e
  · rw [if_pos hlong] at h
    cases h
    -- a range that covers the week leaves out no day
    refine iff_of_false nofun ?_
    unfold span at hlong
    split at hlong
    · omega
    · omega
  · rw [if_neg hlong] at h
    cases h
    rw [isList_weekdayRange_unix hin hin']
    unfold span at hlong
    split at hlong
    · omega
    · omega

/-- Listing the days of a step over a range that wraps makes a list if there are two. -/
theorem isList_weekdayList_iff (hs : quartzWeekday.rule.Contains s)
    (he : quartzWeekday.rule.Contains e) (hp : 1 ≤ p) (hes : e < s)
    (h : weekdayList quartzWeekday.rule unixWeekday.rule (.every (.between s e) p) = .ok y) :
    y.isList = true ↔ s + p ≤ e + 7 := by
  have hcount : quartzWeekday.rule.max - quartzWeekday.rule.min + 1 = 7 := rfl
  have hrange : stepRange? quartzWeekday.rule.min quartzWeekday.rule.max (.between s e) =
      some (s, e) := rfl
  have hnum : ∀ u, admitsIn quartzWeekday.rule u (.every (.between s e) p) =
      .ok (decide (StepsOnNumber 7 s e p u)) := by
    rw [← hcount]
    exact stepAdmits_eq hp hrange
  obtain ⟨vs, y', hy', hmem, hform⟩ := exists_weekdayList unixWeekday.rule hnum
  rw [h] at hy'
  cases hy'
  simp only [decide_eq_true_eq] at hmem
  have hin : ∀ {v}, quartzWeekday.rule.Contains v → StepsOnNumber 7 s e p v → v - 1 ∈ vs :=
    fun hv hstep => (hmem _).2 ⟨_, ⟨hv, hstep⟩, renumberDay_unix hv⟩
  have hfirst : s - 1 ∈ vs := by
    refine hin hs (.inl ⟨Int.le_refl s, fun h => absurd h (by omega), ?_⟩)
    rw [Int.sub_self]
    exact Int.dvd_zero p
  obtain ⟨hs1, hs7⟩  := contains_quartz.1 hs
  obtain ⟨he1, he7⟩  := contains_quartz.1 he
  rcases hform with ⟨v, rfl, rfl⟩ | ⟨hmany, rfl⟩
  · refine iff_of_false nofun ?_
    intro hsecond
    have hv := List.mem_singleton.1 hfirst
    -- the second day comes before the end of the week or after
    by_cases hlate : s + p ≤ 7
    · have hstep : StepsOnNumber 7 s e p (s + p) :=
        .inl ⟨by omega, by omega, ⟨1, by omega⟩⟩
      have hv' := List.mem_singleton.1 (hin (contains_quartz.2 ⟨by omega, hlate⟩) hstep)
      omega
    · have hstep : StepsOnNumber 7 s e p (s + p - 7) :=
        .inr ⟨by omega, hes, by omega, ⟨1, by omega⟩⟩
      have hv' := List.mem_singleton.1 (hin (contains_quartz.2 ⟨by omega, by omega⟩) hstep)
      omega
  · refine iff_of_true rfl ?_
    obtain ⟨w, hw, hne⟩ := hmany _ hfirst
    obtain ⟨v, ⟨hv, hstep⟩, rfl⟩ := (hmem w).1 hw
    rw [renumberDay_unix hv] at hne
    obtain ⟨hv1, hv7⟩ := contains_quartz.1 hv
    rcases hstep with ⟨hsv, -, hdvd⟩ | ⟨hvs, -, hve, hdvd⟩
    · have hle := Int.le_of_dvd (by omega) hdvd
      omega
    · have hle := Int.le_of_dvd (by omega) hdvd
      omega

theorem isList_renumber_every (hc : check quartzWeekday (.every x p) = .ok ())
    (h : renumber quartzWeekday.rule unixWeekday.rule (.every x p) = .ok y) :
    y.isList = splits (.every x p) := by
  obtain ⟨hbase, hp, hcb⟩ := check_every_iff.1 hc
  cases x with
  | always | on =>
    rw [renumber_every_of_not_list rfl rfl] at h
    cases h
    rfl
  | between s e =>
    obtain ⟨hs, he, -⟩ := check_between_iff.1 hcb
    obtain ⟨b, hb, -⟩ :=
      exists_becomes_base quartzWeekday_isWeekday unixWeekday_isWeekday hbase hcb
    have hlist := isList_renumber_between hs he hb.renumber_eq
    rw [splits]
    cases hsplit : rangeSplits s e with
    | false =>
      rw [renumber_every_of_not_list hb.renumber_eq (hlist.trans hsplit)] at h
      cases h
      rfl
    | true =>
      rw [renumber_every_of_list hb.renumber_eq (hlist.trans hsplit)] at h
      have hwrap : e < s := by
        simp only [rangeSplits, Bool.and_eq_true, decide_eq_true_eq] at hsplit
        omega
      rw [Bool.true_and, Bool.eq_iff_iff, decide_eq_true_eq]
      exact isList_weekdayList_iff hs he hp hwrap h
  | _ => cases hbase

/-- **Which weekdays become a list** in Unix. -/
theorem isList_renumber (hm : x.isMember = true) (hc : check quartzWeekday x = .ok ())
    (h : renumber quartzWeekday.rule unixWeekday.rule x = .ok y) : y.isList = x.splits := by
  cases x with
  | between s e =>
    obtain ⟨hs, he, -⟩ := check_between_iff.1 hc
    exact isList_renumber_between hs he h
  | every base p => exact isList_renumber_every hc h
  | last w =>
    cases w with
    | none | some =>
      cases h
      rfl
  | question | list => cases hm
  | _ =>
    cases h
    rfl

/-- No member of a list of weekdays becomes a list if none is split. -/
theorem staysFlat_unix_iff (hc : check quartzWeekday x = .ok ()) :
    StaysFlat quartzWeekday.rule unixWeekday.rule x ↔
      ∀ es, x = .list es → ∀ e ∈ es, e.splits = false := by
  constructor
  · rintro hflat es rfl z hz
    obtain ⟨hm, hcz⟩ := (check_list_iff.1 hc).2 z hz
    obtain ⟨y, hy⟩ := exists_becomes quartzWeekday_isWeekday unixWeekday_isWeekday hm hcz
    rw [← isList_renumber hm hcz hy.renumber_eq]
    exact hflat es rfl z hz y hy.renumber_eq
  · rintro hwhole es rfl z hz y hy
    obtain ⟨hm, hcz⟩ := (check_list_iff.1 hc).2 z hz
    rw [isList_renumber hm hcz hy]
    exact hwhole es rfl z hz

end Expr

open CronSchedule.Expr

namespace Schedule

variable {s t : Schedule}

/-- In Unix the day of the week keeps what it becomes, or every value comes for the question mark.
-/
theorem reconcileDays_unix_snd (dom dow : Expr) :
    (reconcileDays Dialect.unix s dom dow).2 = settleQuestion Dialect.unix .dayOfWeek dow :=
  rfl

/-- Only the ranges of these fields must be in order for Unix. -/
theorem rangesFit_unix (hasc : ∀ name ∈ [FieldName.minute, .hour, .dayOfMonth, .month], ∀ e,
    s.expr? name = some e → e.ascends = true) : s.RangesFit Dialect.unix := by
  have hothers : ∀ d ∈ Dialect.unix.fields, d.name ≠ .dayOfWeek →
      d.name ∈ [FieldName.minute, .hour, .dayOfMonth, .month] := by decide
  intro d hd hw _
  exact hasc d.name (hothers d hd hw)

/-- A draft in Unix is valid if its day of the week is allowed. -/
theorem IsDraft.validate_unix_iff (h : s.IsDraft Dialect.unix t) (hD : s.definition ∈ Dialect.all)
    (hv : s.validate = .ok ()) (hfit : s.RangesFit Dialect.unix) :
    t.validate = .ok () ↔ check unixWeekday (t.effective .dayOfWeek) = .ok () := by
  rw [h.validate_iff hD List.mem_cons_self hv hfit rfl]
  exact and_iff_left (List.forall_mem_nil _)

/-- The day of the week of a draft in Unix is allowed exactly when no member of a list is split. -/
theorem IsDraft.check_dayOfWeek_iff (h : s.IsDraft Dialect.unix t)
    (hs : s.definition = Dialect.quartz) (hv : s.validate = .ok ()) :
    check unixWeekday (t.effective .dayOfWeek) = .ok () ↔
      ∀ es, s.expr? .dayOfWeek = some (.list es) → ∀ e ∈ es, e.splits = false := by
  have hD : s.definition ∈ Dialect.all := hs ▸ Dialect.quartz_mem_all
  have hfield : s.definition.field? .dayOfWeek = some quartzWeekday := by
    rw [hs]
    rfl
  obtain ⟨sd, td, e, hsd, htd, hren, -, hdow⟩ := h.effective_days hD Dialect.unix_mem_all
  rw [hfield] at hsd
  cases hsd
  cases htd
  have hc := check_effective hD hv hfield
  have hexpr : ∀ es, s.expr? .dayOfWeek = some (.list es) ↔ s.effective .dayOfWeek = .list es :=
    fun es => expr?_eq_some_iff nofun
  simp only [hexpr]
  rw [hdow, reconcileDays_unix_snd, ← staysFlat_unix_iff hc]
  by_cases hq : s.effective .dayOfWeek = .question
  · rw [hq] at hren ⊢
    cases hren
    exact iff_of_true (check_settleQuestion_question rfl) nofun
  · have hsd := quartzWeekday_isWeekday
    have htd := unixWeekday_isWeekday
    rw [settleQuestion_of_ne (ne_question_of_renumber hsd htd hc hren hq),
      check_renumber_iff hsd htd hc hren, and_iff_right fun h => absurd h hq]

/-- **From Quartz to Unix.** A valid Quartz schedule whose ranges are in order, but for those of the
day of the week, is translated exactly when no member of a list of weekdays is split. -/
theorem exists_translate_unix_iff (hs : s.definition = Dialect.quartz) (hv : s.validate = .ok ())
    (hasc : ∀ name ∈ [FieldName.minute, .hour, .dayOfMonth, .month], ∀ e,
      s.expr? name = some e → e.ascends = true) :
    (∃ t, translate Dialect.quartz Dialect.unix s = .ok t ∧ t.definition = Dialect.unix ∧
        t.validate = .ok ()) ↔
      ∀ es, s.expr? .dayOfWeek = some (.list es) → ∀ e ∈ es, e.splits = false := by
  have hD : s.definition ∈ Dialect.all := hs ▸ Dialect.quartz_mem_all
  have hT := Dialect.unix_mem_all
  obtain ⟨t, ht⟩ := exists_draft hD hT hv
  rw [← ht.check_dayOfWeek_iff hs hv, ← ht.validate_unix_iff hD hv (rangesFit_unix hasc), ← hs]
  constructor
  · rintro ⟨t', h, -⟩
    exact (ht.translate_eq_ok_iff.1 h).2
  · intro hvt
    exact ⟨t, ht.translate_eq_ok_iff.2 ⟨rfl, hvt⟩, ht.definition_eq, hvt⟩

/-- At midnight on Wednesdays and on some more days of the week. -/
def wednesdayAnd (days : Expr) : Schedule :=
  .ofAssignment Dialect.quartz fun
    | .second | .minute | .hour => some (.value 0)
    | .dayOfMonth => some .question
    | .month => some .always
    | .dayOfWeek => some (.list [.value 4, days])
    | _ => none

theorem ascends_wednesdayAnd (days : Expr) :
    ∀ name ∈ [FieldName.minute, .hour, .dayOfMonth, .month], ∀ e,
      (wednesdayAnd days).expr? name = some e → e.ascends = true := by
  intro name hname e he
  cases name with
  | minute | hour | dayOfMonth | month =>
    cases he
    rfl
  | _ => exact absurd hname (by decide)

/-- Friday to Sunday ends with 7 in Unix. -/
theorem exists_translate_fridayToSunday :
    (wednesdayAnd (.between 6 1)).validate = .ok () ∧
      (∀ es, (wednesdayAnd (.between 6 1)).expr? .dayOfWeek = some (.list es) →
        ∀ e ∈ es, e.splits = false) ∧
      ∃ t, translate Dialect.quartz Dialect.unix (wednesdayAnd (.between 6 1)) = .ok t ∧
        t.definition = Dialect.unix ∧ t.validate = .ok () := by
  have hv : (wednesdayAnd (.between 6 1)).validate = .ok () := by rfl
  have hwhole : ∀ es, (wednesdayAnd (.between 6 1)).expr? .dayOfWeek = some (.list es) →
      ∀ e ∈ es, e.splits = false := by
    intro es hes
    cases hes
    decide
  have hasc := ascends_wednesdayAnd (.between 6 1)
  exact ⟨hv, hwhole, (exists_translate_unix_iff rfl hv hasc).2 hwhole⟩

/-- **Friday to Monday is split** in Unix, and the two ranges make a list inside the list. -/
theorem translate_fridayToMonday :
    (wednesdayAnd (.between 6 2)).validate = .ok () ∧
      (∀ name ∈ [FieldName.minute, .hour, .dayOfMonth, .month], ∀ e,
        (wednesdayAnd (.between 6 2)).expr? name = some e → e.ascends = true) ∧
      translate Dialect.quartz Dialect.unix (wednesdayAnd (.between 6 2)) =
        .error (.fault (.expr (.list [.value 3, .list [.between 5 6, .between 0 1]]) .combined)) := by
  have hfields : translateFields Dialect.quartz (wednesdayAnd (.between 6 2))
      Dialect.unix.fields = .ok [⟨.minute, .value 0⟩, ⟨.hour, .value 0⟩, ⟨.dayOfMonth, .question⟩,
        ⟨.month, .always⟩,
        ⟨.dayOfWeek, .list [.value 3, .list [.between 5 6, .between 0 1]]⟩] := by
    decide +kernel
  refine ⟨by rfl, ascends_wednesdayAnd _, ?_⟩
  rw [translate, hfields]
  rfl

end Schedule

end CronSchedule
