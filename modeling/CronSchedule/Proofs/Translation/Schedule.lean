import CronSchedule.Proofs.Search.FixedOffset
import CronSchedule.Proofs.Timetable.Effective
import CronSchedule.Proofs.Translation.Weekday
import CronSchedule.Translation.Basic

/-!
# Translation keeps the fire times

A translated schedule has the effective expressions of its source, but for the two day fields. There
the weekdays are renumbered, and a question mark and every value may stand for each other; both put
no restriction on the day.

* `Schedule.effective_translate`: all fields but the day fields.
* `Schedule.effective_reconciled_days`: the day fields after reconciling them, for any schedule.
* `Schedule.days_translate`: the day fields, where at most one of them is restricted.
* `Timetable.isMatch_congr`: schedules whose effective expressions admit the same fire together.
* `Timetable.isMatch_translate`: **the translated schedule fires at the same moments.**
-/

namespace CronSchedule

open CronSchedule.Expr

theorem Dialect.ne_dayOfYear : ∀ D ∈ all, ∀ d ∈ D.fields, d.name ≠ .dayOfYear := by
  decide

namespace Schedule

variable {s t : Schedule} {target : Definition} {d : FieldDefinition} {f : Option Field}

/-! ### The fields before the day fields are reconciled -/

theorem defaultPolicy_apply (h : d.name ≠ .dayOfYear) (f : Option Field) :
    d.defaultPolicy.apply f = some ⟨d.name, absentExpr d.name⟩ := by
  rw [FieldDefinition.defaultPolicy]
  cases hn : d.name with
  | dayOfYear => exact absurd hn h
  | _ => rfl

/-- A field that is not the day of the week keeps its effective expression. It is left out only
where the target can do without it. -/
theorem translateField_eq (hd : d.name ≠ .dayOfYear) (hw : d.name ≠ .dayOfWeek) :
    translateField s.definition s d = .ok (some ⟨d.name, s.effective d.name⟩) ∨
      (translateField s.definition s d = .ok none ∧ d.optional = true ∧
        s.effective d.name = absentExpr d.name) := by
  rw [translateField, field?_eq, effective]
  cases hs : s.definition.field? d.name with
  | none =>
    left
    have hno : s.expr? d.name = none := by
      cases he : s.expr? d.name with
      | none => rfl
      | some e =>
        obtain ⟨d', hd'⟩ := exists_field?_of_mem (mem_fieldNames_of_expr? he)
        rw [hs] at hd'
        cases hd'
    rw [hno, defaultPolicy_apply hd]
    rfl
  | some sd =>
    cases he : s.expr? d.name with
    | none =>
      cases ho : d.optional with
      | true => exact .inr ⟨rfl, rfl, rfl⟩
      | false =>
        left
        rw [defaultPolicy_apply hd]
        rfl
    | some e =>
      left
      simp only [Option.map_some, if_neg hw]
      rfl

/-- The day of the week is renumbered. -/
theorem translateField_dayOfWeek (hd : d.name = .dayOfWeek) (hr : d.optional = false)
    {sd : FieldDefinition} (hs : s.definition.field? .dayOfWeek = some sd)
    (h : translateField s.definition s d = .ok f) :
    ∃ e, f = some ⟨.dayOfWeek, e⟩ ∧ renumber sd.rule d.rule (s.effective .dayOfWeek) = .ok e := by
  rw [translateField, field?_eq, hd, hs] at h
  rw [effective]
  cases he : s.expr? .dayOfWeek with
  | none =>
    rw [he, Option.map_none, hr, defaultPolicy_apply (by rw [hd]; decide), hd] at h
    cases h
    exact ⟨.always, rfl, rfl⟩
  | some e =>
    rw [he] at h
    obtain ⟨e', he', h⟩ := bind_eq_ok_iff.1 h
    cases h
    exact ⟨e', rfl, he'⟩

theorem name_of_translateField (hd : d.name ≠ .dayOfYear) {g : Field}
    (h : translateField s.definition s d = .ok (some g)) : g.name = d.name := by
  rw [translateField, field?_eq] at h
  cases hs : s.definition.field? d.name with
  | none =>
    rw [hs, defaultPolicy_apply hd] at h
    cases h
    rfl
  | some sd =>
    cases he : s.expr? d.name with
    | none =>
      rw [hs, he, defaultPolicy_apply hd] at h
      cases ho : d.optional with
      | true =>
        rw [ho] at h
        cases h
      | false =>
        rw [ho] at h
        cases h
        rfl
    | some e =>
      rw [hs, he] at h
      by_cases hw : d.name = .dayOfWeek
      · simp only [Option.map_some, if_pos hw] at h
        obtain ⟨e', -, h⟩ := bind_eq_ok_iff.1 h
        cases h
        rfl
      · simp only [Option.map_some, if_neg hw] at h
        cases h
        rfl

/-- Each field of the target is translated on its own. -/
theorem exprIn_translateFields {ds : List FieldDefinition} {fs : List Field}
    (hy : ∀ d ∈ ds, d.name ≠ .dayOfYear) (hnd : (ds.map (·.name)).Nodup)
    (h : translateFields s.definition s ds = .ok fs) :
    (∀ g ∈ fs, g.name ∈ ds.map (·.name)) ∧
      ∀ d ∈ ds, ∃ f, translateField s.definition s d = .ok f ∧
        exprIn fs d.name = f.map (·.expr) := by
  induction ds generalizing fs with
  | nil =>
    cases h
    exact ⟨List.forall_mem_nil _, List.forall_mem_nil _⟩
  | cons d ds ih =>
    obtain ⟨f, hf, h⟩ := bind_eq_ok_iff.1 h
    obtain ⟨fs, hfs, h⟩ := bind_eq_ok_iff.1 h
    cases h
    obtain ⟨hyd, hy⟩ := List.forall_mem_cons.1 hy
    rw [List.map_cons, List.nodup_cons] at hnd
    obtain ⟨hnames, hall⟩ := ih hy hnd.2 hfs
    -- no later field has the name of the first
    have hfresh : exprIn fs d.name = none := by
      apply exprIn_of_not_mem
      intro hm
      obtain ⟨g, hg, hn⟩ := List.mem_map.1 hm
      exact hnd.1 (hn ▸ hnames g hg)
    cases f with
    | none =>
      refine ⟨fun g hg => List.mem_cons_of_mem _ (hnames g hg), ?_⟩
      rw [List.forall_mem_cons]
      exact ⟨⟨none, hf, hfresh⟩, hall⟩
    | some g =>
      have hn := name_of_translateField hyd hf
      constructor
      · intro g' hg'
        rcases List.mem_cons.1 hg' with rfl | hg'
        · exact List.mem_cons.2 (.inl hn)
        · exact List.mem_cons_of_mem _ (hnames g' hg')
      rw [List.forall_mem_cons]
      constructor
      · refine ⟨some g, hf, ?_⟩
        rw [Option.toList_some, List.singleton_append, ← hn, exprIn_cons_self]
        rfl
      · intro d' hd'
        obtain ⟨f', hf', he⟩ := hall d' hd'
        have hne : g.name ≠ d'.name := by
          intro heq
          rw [← hn, heq] at hnd
          exact hnd.1 (List.mem_map_of_mem hd')
        refine ⟨f', hf', ?_⟩
        rw [Option.toList_some, List.singleton_append, exprIn_cons_of_ne hne, he]

/-! ### The day fields -/

/-- Two expressions are the same or both put no restriction on the day. -/
def Alike (a b : Expr) : Prop := a = b ∨ (a.isUnspecified = true ∧ b.isUnspecified = true)

theorem Alike.isUnspecified_eq {a b : Expr} (h : Alike a b) :
    a.isUnspecified = b.isUnspecified := by
  rcases h with rfl | ⟨ha, hb⟩
  · rfl
  · rw [ha, hb]

theorem Alike.eq {a b : Expr} (h : Alike a b) (hb : b.isUnspecified = false) : a = b := by
  rcases h with rfl | ⟨-, hb'⟩
  · rfl
  · rw [hb] at hb'
    cases hb'

theorem settleQuestion_alike (target : Definition) (name : FieldName) (e : Expr) :
    Alike (settleQuestion target name e) e := by
  rw [settleQuestion]
  split
  · next h =>
    rw [Bool.and_eq_true, decide_eq_true_eq] at h
    rw [h.1]
    exact .inr ⟨rfl, rfl⟩
  · exact .inl rfl

theorem Alike.trans {a b c : Expr} (h : Alike a b) (h' : Alike b c) : Alike a c := by
  rcases h with rfl | ⟨ha, hb⟩
  · exact h'
  · exact .inr ⟨ha, h'.isUnspecified_eq ▸ hb⟩

/-- Where at most one day field is restricted, or no question mark comes in, reconciling them
changes no restriction. -/
theorem reconcileDays_alike (target : Definition) (s : Schedule) {dom dow : Expr}
    (hone : knowsQuestion target .dayOfMonth = true → knowsQuestion target .dayOfWeek = true →
      dom.isUnspecified = true ∨ dow.isUnspecified = true) :
    Alike (reconcileDays target s dom dow).1 dom ∧
      Alike (reconcileDays target s dom dow).2 dow := by
  rw [reconcileDays]
  split
  next dom' dow' heq =>
  have hpair : Alike dom' dom ∧ Alike dow' dow := by
    split at heq
    · next hknows =>
      simp only [Bool.and_eq_true] at hknows
      split at heq
      · next h =>
        cases heq
        rw [Bool.and_eq_true] at h
        exact ⟨.inr ⟨rfl, h.1⟩, .inl rfl⟩
      · next h =>
        cases heq
        refine ⟨.inl rfl, .inr ⟨rfl, ?_⟩⟩
        rcases hone hknows.1.1 hknows.1.2 with hdom | hdow
        · simpa [hdom] using h
        · exact hdow
    · cases heq
      exact ⟨.inl rfl, .inl rfl⟩
  exact ⟨(settleQuestion_alike target _ _).trans hpair.1,
    (settleQuestion_alike target _ _).trans hpair.2⟩

/-! ### The translated schedule -/

/-- What keeps a translation from losing a fire time. The target has the second and the year of the
schedule, unless they are those of a missing field; at most one day field is restricted, as a
question mark in the place of the other one would leave it out; and the day of the week has no step,
which would count from another day in another numbering. -/
structure Lossless (s : Schedule) (target : Definition) : Prop where
  second : target.hasField .second = false →
    s.expr? .second = none ∨ s.expr? .second = some (.value 0)
  year : target.hasField .year = false → s.expr? .year = none ∨ s.expr? .year = some .always
  oneDay : s.isUnspecified .dayOfMonth = true ∨ s.isUnspecified .dayOfWeek = true
  noStep : ∀ e, s.expr? .dayOfWeek = some e → e.hasStep = false

theorem translate_eq_ok (h : translate s.definition target s = .ok t) :
    ∃ fs, translateFields s.definition s target.fields = .ok fs ∧
      t = ofAssignment target (reconciled target s fs) ∧ t.validate = .ok () := by
  obtain ⟨fs, hfs, h⟩ := bind_eq_ok_iff.1 h
  rw [seq_eq_ok_iff, mapError_eq_ok_iff] at h
  obtain ⟨hv, h⟩ := h
  cases h
  exact ⟨fs, mapError_eq_ok_iff.1 hfs, rfl, hv⟩

theorem reconciled_of_ne {fs : List Field} {name : FieldName} (hm : name ≠ .dayOfMonth)
    (hw : name ≠ .dayOfWeek) : reconciled target s fs name = exprIn fs name := by
  rw [reconciled]
  split
  · simp only [if_neg hm, if_neg hw]
  · rfl

/-- Outside the day fields the fields that a schedule is translated to mean the same, if those that
the target does not have mean what a missing field means. -/
theorem effective_reconciled (hT : target ∈ Dialect.all) {fs : List Field}
    (hfs : translateFields s.definition s target.fields = .ok fs) {name : FieldName}
    (hm : name ≠ .dayOfMonth) (hw : name ≠ .dayOfWeek)
    (hmiss : target.hasField name = false → s.effective name = absentExpr name) :
    (ofAssignment target (reconciled target s fs)).effective name = s.effective name := by
  rw [effective, expr?_ofAssignment, reconciled_of_ne hm hw]
  by_cases hn : name ∈ target.fieldNames
  · obtain ⟨d, hd, rfl⟩ := List.mem_map.1 hn
    have hy := Dialect.ne_dayOfYear target hT
    obtain ⟨f, hf, he⟩ := (exprIn_translateFields hy target.nodup hfs).2 d hd
    rw [if_pos hn, he]
    rcases translateField_eq (s := s) (hy d hd) hw with h | ⟨h, -, ha⟩
    · rw [h] at hf
      cases hf
      rfl
    · rw [h] at hf
      cases hf
      exact ha.symm
  · rw [if_neg hn, hmiss (Bool.eq_false_iff.2 fun h => hn (hasField_iff.1 h))]
    rfl

/-- **Outside the day fields a translated schedule means the same**, if the fields that the target
does not have mean what a missing field means. -/
theorem effective_translate (hT : target ∈ Dialect.all)
    (h : translate s.definition target s = .ok t) {name : FieldName} (hm : name ≠ .dayOfMonth)
    (hw : name ≠ .dayOfWeek)
    (hmiss : target.hasField name = false → s.effective name = absentExpr name) :
    t.effective name = s.effective name := by
  obtain ⟨fs, hfs, rfl, -⟩ := translate_eq_ok h
  exact effective_reconciled hT hfs hm hw hmiss

/-- What the target does not have is what a missing field stands for. -/
theorem Lossless.effective_eq_absentExpr (hs : s.Lossless target) (hT : target ∈ Dialect.all)
    {name : FieldName} (hname : name ∈ [FieldName.second, .minute, .hour, .month, .year])
    (hno : target.hasField name = false) : s.effective name = absentExpr name := by
  have hmiss : ∀ {e : Expr}, absentExpr name = e →
      s.expr? name = none ∨ s.expr? name = some e → s.effective name = absentExpr name := by
    intro e ha he
    rw [effective]
    rcases he with he | he
    · rw [he]
      rfl
    · rw [he, ha]
      rfl
  -- the other fields of the clock and the month are in every dialect
  have hthere : ∀ name ∈ [FieldName.minute, .hour, .dayOfMonth, .month, .dayOfWeek],
      target.hasField name = true := by
    intro name hname
    obtain ⟨d, hd, -⟩ := Dialect.exists_required_field _ hT name hname
    rw [Definition.hasField, hd]
    rfl
  cases name with
  | second => exact hmiss rfl (hs.second hno)
  | year => exact hmiss rfl (hs.year hno)
  | dayOfYear => exact absurd hname (by decide)
  | _ =>
    rw [hthere _ (by decide)] at hno
    cases hno

/-- The day fields that a schedule is translated to are its own, with the days of the week
renumbered, after they are reconciled. -/
theorem effective_reconciled_days (hS : s.definition ∈ Dialect.all) (hT : target ∈ Dialect.all)
    {fs : List Field} (hfs : translateFields s.definition s target.fields = .ok fs)
    (ht : t = ofAssignment target (reconciled target s fs)) :
    ∃ sd td e, s.definition.field? .dayOfWeek = some sd ∧ target.field? .dayOfWeek = some td ∧
      renumber sd.rule td.rule (s.effective .dayOfWeek) = .ok e ∧
      t.effective .dayOfMonth = (reconcileDays target s (s.effective .dayOfMonth) e).1 ∧
      t.effective .dayOfWeek = (reconcileDays target s (s.effective .dayOfMonth) e).2 := by
  subst ht
  have hy := Dialect.ne_dayOfYear target hT
  obtain ⟨-, hall⟩ := exprIn_translateFields hy target.nodup hfs
  obtain ⟨sd, hsd, -⟩ := Dialect.exists_required_field _ hS .dayOfWeek (by decide)
  obtain ⟨md, hmd, hmo⟩ := Dialect.exists_required_field _ hT .dayOfMonth (by decide)
  obtain ⟨wd, hwd, hwo⟩ := Dialect.exists_required_field _ hT .dayOfWeek (by decide)
  obtain ⟨hmm, hmn⟩ := Definition.mem_of_field? hmd
  obtain ⟨hwm, hwn⟩ := Definition.mem_of_field? hwd
  -- both day fields are there before they are reconciled
  have hdom : exprIn fs .dayOfMonth = some (s.effective .dayOfMonth) := by
    obtain ⟨f, hf, he⟩ := hall md hmm
    rw [hmn] at he
    rcases translateField_eq (s := s) (hy md hmm) (by rw [hmn]; decide) with h | ⟨-, ho, -⟩
    · rw [h, hmn] at hf
      cases hf
      exact he
    · rw [hmo] at ho
      cases ho
  obtain ⟨f, hf, he⟩ := hall wd hwm
  obtain ⟨e, rfl, hren⟩ := translateField_dayOfWeek hwn hwo hsd hf
  have hdow : exprIn fs .dayOfWeek = some e := by
    rw [hwn] at he
    exact he
  have hmem : FieldName.dayOfMonth ∈ target.fieldNames := hmn ▸ List.mem_map_of_mem hmm
  have hmem' : FieldName.dayOfWeek ∈ target.fieldNames := hwn ▸ List.mem_map_of_mem hwm
  refine ⟨sd, wd, e, hsd, hwd, hren, ?_, ?_⟩
  · rw [effective, expr?_ofAssignment, if_pos hmem, reconciled, hdom, hdow]
    rfl
  · rw [effective, expr?_ofAssignment, if_pos hmem', reconciled, hdom, hdow]
    rfl

/-- **The day fields of a translated schedule put the restrictions of its source**, with the days of
the week renumbered, where at most one of them is restricted or no question mark comes in. -/
theorem days_translate (hS : s.definition ∈ Dialect.all) (hT : target ∈ Dialect.all)
    (h : translate s.definition target s = .ok t)
    (hone : knowsQuestion target .dayOfMonth = true → knowsQuestion target .dayOfWeek = true →
      s.isUnspecified .dayOfMonth = true ∨ s.isUnspecified .dayOfWeek = true) :
    Alike (t.effective .dayOfMonth) (s.effective .dayOfMonth) ∧
      ∃ sd td e, s.definition.field? .dayOfWeek = some sd ∧ target.field? .dayOfWeek = some td ∧
        renumber sd.rule td.rule (s.effective .dayOfWeek) = .ok e ∧
        Alike (t.effective .dayOfWeek) e := by
  obtain ⟨fs, hfs, ht, -⟩ := translate_eq_ok h
  obtain ⟨sd, td, e, hsd, htd, hren, hdom, hdow⟩ := effective_reconciled_days hS hT hfs ht
  rw [isUnspecified_eq s rfl, isUnspecified_eq s rfl, ← isUnspecified_renumber hren] at hone
  obtain ⟨ham, haw⟩ := reconcileDays_alike target s hone
  rw [← hdom] at ham
  rw [← hdow] at haw
  exact ⟨ham, sd, td, e, hsd, htd, hren, haw⟩

theorem hasStep_effective (h : ∀ e, s.expr? .dayOfWeek = some e → e.hasStep = false) :
    (s.effective .dayOfWeek).hasStep = false := by
  rw [effective]
  cases he : s.expr? .dayOfWeek with
  | none => rfl
  | some e => exact h e he

/-- What a missing field stands for is an expression that the field allows. -/
theorem check_absentExpr {D : Definition} (hD : D ∈ Dialect.all) (hd : d ∈ D.fields) :
    (absentExpr d.name).check d = .ok () := by
  have hzero : ∀ b ∈ Dialect.bounds? d.name, b.1 = 0 → 0 ≤ b.2 →
      (value 0).check d = .ok () := by
    intro b hb h1 h2
    obtain ⟨hmin, hmax⟩ := Dialect.rule_bounds D hD d hd b hb
    rw [value, check_value_iff]
    unfold FieldRule.Contains
    omega
  cases hn : d.name with
  | second | minute => exact hzero (0, 59) (by rw [hn]; rfl) rfl (by decide)
  | hour => exact hzero (0, 23) (by rw [hn]; rfl) rfl (by decide)
  | _ => rfl

/-- An effective expression is one that its field allows. -/
theorem check_effective (hD : s.definition ∈ Dialect.all) (hv : s.validate = .ok ())
    {name : FieldName} (hd : s.definition.field? name = some d) :
    (s.effective name).check d = .ok () := by
  obtain ⟨hm, rfl⟩ := Definition.mem_of_field? hd
  rw [effective]
  cases he : s.expr? d.name with
  | none => exact check_absentExpr hD hm
  | some e => exact (validate_eq_ok_iff.1 hv).1 d hm e he

end Schedule

namespace Expr

theorem admitsIn_congr {r r' : FieldRule} (hmin : r'.min = r.min) (hmax : r'.max = r.max) (v : Int)
    (e : Expr) : admitsIn r' v e = admitsIn r v e := by
  rw [admitsIn, admitsIn, hmin, hmax]

mutual

/-- The day of the month asks for nothing but the least and the greatest number of its field. -/
theorem admitsMonthDay_congr {r r' : FieldRule} (hmin : r'.min = r.min) (hmax : r'.max = r.max)
    (date : Date) : ∀ e, admitsMonthDay r' date e = admitsMonthDay r date e
  | .last none | .lastOffset _ | .nearestWeekday none | .nearestWeekday (some _) => rfl
  | .list es => by
    rw [admitsMonthDay, admitsMonthDay, anyAdmitsMonthDay_congr hmin hmax date es]
  | .always => admitsIn_congr hmin hmax date.day .always
  | .question => admitsIn_congr hmin hmax date.day .question
  | .on v n => admitsIn_congr hmin hmax date.day (.on v n)
  | .between s e => admitsIn_congr hmin hmax date.day (.between s e)
  | .every base p => admitsIn_congr hmin hmax date.day (.every base p)
  | .last (some w) => admitsIn_congr hmin hmax date.day (.last (some w))

theorem anyAdmitsMonthDay_congr {r r' : FieldRule} (hmin : r'.min = r.min) (hmax : r'.max = r.max)
    (date : Date) : ∀ es, anyAdmitsMonthDay r' date es = anyAdmitsMonthDay r date es
  | [] => rfl
  | e :: es => by
    rw [anyAdmitsMonthDay, anyAdmitsMonthDay, admitsMonthDay_congr hmin hmax date e,
      anyAdmitsMonthDay_congr hmin hmax date es]

end

/-- The day of the month asks the same in all dialects. -/
theorem admitsMonthDay_dialect {D D' : Definition} (hD : D ∈ Dialect.all) (hD' : D' ∈ Dialect.all)
    {d d' : FieldDefinition} (hd : D.field? .dayOfMonth = some d)
    (hd' : D'.field? .dayOfMonth = some d') (date : Date) (e : Expr) :
    e.admitsMonthDay d'.rule date = e.admitsMonthDay d.rule date := by
  obtain ⟨hm, hn⟩ := Definition.mem_of_field? hd
  obtain ⟨hm', hn'⟩ := Definition.mem_of_field? hd'
  obtain ⟨h1, h2⟩ := Dialect.rule_bounds _ hD d hm (1, 31) (by rw [hn]; rfl)
  obtain ⟨h1', h2'⟩ := Dialect.rule_bounds _ hD' d' hm' (1, 31) (by rw [hn']; rfl)
  exact admitsMonthDay_congr (h1'.trans h1.symm) (h2'.trans h2.symm) date e

end Expr

/-- The day of the week of a valid schedule admits the same days after renumbering, if each step in
it does. -/
theorem Schedule.admitsWeekday_effective (s : Schedule) {target : Definition}
    (hS : s.definition ∈ Dialect.all) (hT : target ∈ Dialect.all) (hv : s.validate = .ok ())
    {sd td : FieldDefinition} (hsd : s.definition.field? .dayOfWeek = some sd)
    (htd : target.field? .dayOfWeek = some td) {date : Date}
    (hstep : KeepsSteps sd.rule td.rule date (s.effective .dayOfWeek).members) {e : Expr}
    (hren : renumber sd.rule td.rule (s.effective .dayOfWeek) = .ok e) :
    e.admitsWeekday td.rule date = (s.effective .dayOfWeek).admitsWeekday sd.rule date := by
  exact admitsWeekday_renumber (Dialect.weekly hS hsd) (Dialect.weekly hT htd)
    (check_effective hS hv hsd) hstep hren

namespace Timetable

open Schedule LocalTime

variable {s s' : Schedule} {t t' : Timetable} {target : Definition} {maxYears : Int}

/-- The day fields admit a date if the day of the month puts the same restriction and the day of the
week, if it puts one, admits the date in its own numbers. -/
theorem admitsDay_congr (hS : t.schedule.definition ∈ Dialect.all)
    (hT : t'.schedule.definition ∈ Dialect.all) {sd td : FieldDefinition}
    (hsd : t.schedule.definition.field? .dayOfWeek = some sd)
    (htd : t'.schedule.definition.field? .dayOfWeek = some td) {e : Expr} {date : Date}
    (hdom : Alike (t'.schedule.effective .dayOfMonth) (t.schedule.effective .dayOfMonth))
    (hdow : Alike (t'.schedule.effective .dayOfWeek) e)
    (hue : e.isUnspecified = (t.schedule.effective .dayOfWeek).isUnspecified)
    (hweek : e.admitsWeekday td.rule date =
      (t.schedule.effective .dayOfWeek).admitsWeekday sd.rule date) :
    t'.admitsDay date = t.admitsDay date := by
  obtain ⟨smd, hsmd, -⟩ := Dialect.exists_required_field _ hS .dayOfMonth (by decide)
  obtain ⟨tmd, htmd, -⟩ := Dialect.exists_required_field _ hT .dayOfMonth (by decide)
  have hmonth := fun x => Expr.admitsMonthDay_dialect hS hT hsmd htmd date x
  have hum := hdom.isUnspecified_eq
  have huw := hdow.isUnspecified_eq
  rw [hue] at huw
  rw [admitsDay, admitsDay, restricted?_dayOfYear hS, restricted?_dayOfYear hT]
  simp only [admitsMonthOrWeekDay, restricted?_eq (t := t) rfl hsmd,
    restricted?_eq (t := t) rfl hsd, restricted?_eq (t := t') rfl htmd,
    restricted?_eq (t := t') rfl htd, hum, huw]
  -- the fields that are restricted, if any, decide on both sides
  cases hm : (t.schedule.effective .dayOfMonth).isUnspecified with
  | true =>
    cases hw : (t.schedule.effective .dayOfWeek).isUnspecified with
    | true => rfl
    | false =>
      have he := hdow.eq (hue.trans hw)
      simp only [Bool.false_eq_true, if_true, if_false, he]
      exact hweek
  | false =>
    cases hw : (t.schedule.effective .dayOfWeek).isUnspecified with
    | true =>
      simp only [Bool.false_eq_true, if_true, if_false, hdom.eq hm]
      exact hmonth _
    | false =>
      have he := hdow.eq (hue.trans hw)
      simp only [Bool.false_eq_true, if_false, hdom.eq hm, he, hmonth, hweek]

/-- **A translated schedule admits the same days**, where at most one day field is restricted and
the day of the week has no step. -/
theorem admitsDay_translate (hS : t.schedule.definition ∈ Dialect.all) (hT : target ∈ Dialect.all)
    (hv : t.schedule.validate = .ok ())
    (h : translate t.schedule.definition target t.schedule = .ok t'.schedule)
    (hone : t.schedule.isUnspecified .dayOfMonth = true ∨
      t.schedule.isUnspecified .dayOfWeek = true)
    (hstep : ∀ e, t.schedule.expr? .dayOfWeek = some e → e.hasStep = false) (date : Date) :
    t'.admitsDay date = t.admitsDay date := by
  have hD' : t'.schedule.definition = target := by
    obtain ⟨fs, -, h, -⟩ := translate_eq_ok h
    rw [h]
    rfl
  obtain ⟨hdom, sd, td, e, hsd, htd, hren, hdow⟩ := days_translate hS hT h fun _ _ => hone
  have hnone := hasStep_effective hstep
  have hkeeps : KeepsSteps sd.rule td.rule date (t.schedule.effective .dayOfWeek).members :=
    fun base p hm => absurd hm (not_mem_members hnone base p)
  have hweek := t.schedule.admitsWeekday_effective hS hT hv hsd htd hkeeps hren
  exact admitsDay_congr hS (hD'.symm ▸ hT) hsd (hD'.symm ▸ htd) hdom hdow
    (isUnspecified_renumber hren) hweek

/-- Timetables whose schedules mean the same match the same moments at one offset for all time. -/
theorem isMatch_congr (hS : s.definition ∈ Dialect.all) (hS' : s'.definition ∈ Dialect.all)
    (ht : of? s maxYears = .ok t) (ht' : of? s' maxYears = .ok t') (hsound : t.Sound)
    (heff : ∀ name ∈ [FieldName.second, .minute, .hour, .month, .year],
      s'.effective name = s.effective name)
    (hday : ∀ date : Date, date.Valid → t'.admitsDay date = t.admitsDay date) (m : Moment)
    (offset : Int) (hz : m.zone = Zone.fixed offset) (ho : WithinDay offset)
    (hy : 2 ≤ (date m.time).year) (hy' : (date m.time).year ≤ 9998) :
    ∃ b, t.isMatch m = .ok b ∧ t'.isMatch m = .ok b := by
  have hi := inner_of_year hy hy'
  rw [isMatch_fixed hz ho hi, isMatch_fixed hz ho hi, fires_congr hS hS' ht ht' heff hday,
    fires_eq hsound]
  split
  · exact ⟨false, rfl, rfl⟩
  · exact ⟨_, rfl, rfl⟩

/-- Timetables whose schedules have the same effective expressions outside the day fields and admit
the same days. -/
structure Agree (t t' : Timetable) : Prop where
  effective : ∀ name ∈ [FieldName.second, .minute, .hour, .month, .year],
    t'.schedule.effective name = t.schedule.effective name
  day : ∀ date : Date, date.Valid → t'.admitsDay date = t.admitsDay date

theorem Agree.trans {t'' : Timetable} (h : t.Agree t') (h' : t'.Agree t'') : t.Agree t'' where
  effective name hname := (h'.effective name hname).trans (h.effective name hname)
  day date hdate := (h'.day date hdate).trans (h.day date hdate)

/-- A translation that loses nothing agrees with its source. -/
theorem agree_translate (hS : t.schedule.definition ∈ Dialect.all) (hT : target ∈ Dialect.all)
    (hv : t.schedule.validate = .ok ())
    (h : translate t.schedule.definition target t.schedule = .ok t'.schedule)
    (hs : t.schedule.Lossless target) : t.Agree t' where
  effective name hname := by
    refine effective_translate hT h ?_ ?_ (hs.effective_eq_absentExpr hT hname)
    · rintro rfl
      revert hname
      decide
    · rintro rfl
      revert hname
      decide
  day date _ := admitsDay_translate hS hT hv h hs.oneDay hs.noStep date

/-- **Translation keeps the fire times.** Where a valid schedule of one dialect is translated to
another and loses nothing, both have timetables, and at one offset for all time, as in UTC, a moment
is a fire time of the one if and only if it is a fire time of the other. -/
theorem isMatch_translate {s s' : Schedule} {source target : Definition}
    (hS : source ∈ Dialect.all) (hT : target ∈ Dialect.all) (hD : s.definition = source)
    (hv : s.validate = .ok ()) (h : translate source target s = .ok s') (hs : s.Lossless target)
    {maxYears : Int} (hn : 1 ≤ maxYears) :
    ∃ t t', of? s maxYears = .ok t ∧ of? s' maxYears = .ok t' ∧
      ∀ m : Moment, ∀ offset, m.zone = Zone.fixed offset → WithinDay offset →
        2 ≤ (date m.time).year → (date m.time).year ≤ 9998 →
        ∃ b, t.isMatch m = .ok b ∧ t'.isMatch m = .ok b := by
  subst hD
  obtain ⟨fs, -, hs', hv'⟩ := translate_eq_ok h
  have hT' : s'.definition ∈ Dialect.all := by
    rw [hs']
    exact hT
  obtain ⟨t, ht, rfl, -, hsound⟩ := exists_of_validate hS hv hn
  obtain ⟨t', ht', rfl, -, -⟩ := exists_of_validate hT' hv' hn
  have hagree := agree_translate hS hT hv h hs
  exact ⟨t, t', ht, ht', isMatch_congr hS hT' ht ht' hsound hagree.effective hagree.day⟩

/-- At half past nine on Saturday and Sunday. -/
def weekend : Schedule :=
  .ofAssignment Dialect.quartz fun
    | .second => some (.value 0)
    | .minute => some (.value 30)
    | .hour => some (.value 9)
    | .dayOfMonth => some .question
    | .month => some .always
    | .dayOfWeek => some (.list [.value 7, .value 1])
    | _ => none

/-- The same where Sunday is 0. -/
def unixWeekend : Schedule :=
  .ofAssignment Dialect.unix fun
    | .minute => some (.value 30)
    | .hour => some (.value 9)
    | .dayOfMonth | .month => some .always
    | .dayOfWeek => some (.list [.value 6, .value 0])
    | _ => none

/-- A Sunday at half past nine in UTC. -/
def sundayMorning : Moment := ⟨Zone.fixed 0, 1700386200000000, false⟩

/-- What `weekend` fires at. -/
def weekendTable : Timetable := ⟨weekend, defaultYears, [0], [30], [9], intsBetween 1 12⟩

theorem isMatch_translate_weekend :
    weekend.validate = .ok () ∧ translate Dialect.quartz Dialect.unix weekend = .ok unixWeekend ∧
      weekend.Lossless Dialect.unix ∧
      ∃ t t', of? weekend defaultYears = .ok t ∧ of? unixWeekend defaultYears = .ok t' ∧
        t.isMatch sundayMorning = .ok true ∧ t'.isMatch sundayMorning = .ok true := by
  have hv : weekend.validate = .ok () := by rfl
  have h : translate Dialect.quartz Dialect.unix weekend = .ok unixWeekend := by rfl
  have hs : weekend.Lossless Dialect.unix := by
    refine ⟨fun _ => .inr rfl, fun _ => .inl rfl, .inl rfl, ?_⟩
    intro e he
    cases he
    rfl
  obtain ⟨t, t', ht, ht', hm⟩ := isMatch_translate Dialect.quartz_mem_all Dialect.unix_mem_all rfl
    hv h hs (by decide : 1 ≤ defaultYears)
  have htable : of? weekend defaultYears = .ok weekendTable := by rfl
  obtain rfl := Except.ok.inj (htable.symm.trans ht)
  have hfires : weekendTable.isMatch sundayMorning = .ok true := by decide +kernel
  have hsame := hm sundayMorning 0 rfl (by decide) (by decide) (by decide)
  exact ⟨hv, h, hs, weekendTable, t', ht, ht', hfires, eq_ok_of_same hsame hfires⟩

end Timetable

end CronSchedule
