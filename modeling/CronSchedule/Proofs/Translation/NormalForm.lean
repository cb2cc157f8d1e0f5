import CronSchedule.Proofs.Translation.Same
import CronSchedule.Proofs.Translation.Wraparound

/-!
# Normal forms

Within one dialect a translation writes a schedule in a normal form: weekdays by the number that is
meant, a range over the whole week from its first day to its last, every required field, and a
question mark for a day field where both know it. What has this form is left as it is, so a second
translation changes nothing.

* `Expr.IsNormal`, `Schedule.IsNormal`: the normal forms.
* `Expr.renumber_eq_self_iff`: renumbering within a week leaves exactly the normal forms alone.
* `Schedule.translate_eq_self_iff`: so does the translation of valid schedules.
* `Schedule.translate_translate`: **the second translation gives the schedule of the first.**
-/

namespace CronSchedule

namespace Expr

variable {r : FieldRule} {d : FieldDefinition} {x y : Expr} {s e v a b c : Int}

/-! ### Weekdays -/

/-- The expressions of weekdays in which each number is the one that is meant. A range over the
whole week goes from its first day to its last, and one that would not be in order where it has to
be ends with the other number of its last day. -/
inductive IsNormal (r : FieldRule) : Expr → Prop
  | always : IsNormal r .always
  | question : IsNormal r .question
  | on {v : Int} (n : Option Int) (hv : r.normalize v = v) : IsNormal r (.on v n)
  | week : IsNormal r (.between r.min (r.min + 6))
  | range {s e : Int} (hs : r.normalize s = s)
      (he : r.normalize e = e ∨ r.strict = true ∧ r.normalize e < s) (hshort : span s e < 6) :
      IsNormal r (.between s e)
  | every {base : Expr} (p : Int) (hbase : IsNormal r base) : IsNormal r (.every base p)
  | list {es : List Expr} (hes : ∀ e ∈ es, IsNormal r e) : IsNormal r (.list es)
  | last : IsNormal r (.last none)
  | lastDay {w : Int} (hw : r.normalize w = w) : IsNormal r (.last (some w))
  | lastOffset (n : Int) : IsNormal r (.lastOffset n)
  | nearestWeekday (day : Option Int) : IsNormal r (.nearestWeekday day)

theorem renumberDay_of_le (hr : r.Consecutive) (hv : r.min ≤ v ∧ v ≤ r.min + 6) :
    renumberDay r r v = v := by
  rw [renumberDay_self hr (hr.contains hv)]
  rcases hr.normalize_eq v with h | ⟨rfl, -, -⟩
  · exact h
  · omega

/-- The number that a weekday gets is the one that is meant. -/
theorem normalize_renumberDay (hr : r.Consecutive) (v : Int) :
    r.normalize (renumberDay r r v) = renumberDay r r v := by
  obtain ⟨h1, h2, -⟩ := renumberDay_spec hr hr v
  rw [← renumberDay_self hr (hr.contains ⟨h1, h2⟩), renumberDay_of_le hr ⟨h1, h2⟩]

/-- The number that is meant is one of the first seven. -/
theorem normalize_bounds (hr : r.Consecutive) (hv : r.Contains v) :
    r.min ≤ r.normalize v ∧ r.normalize v ≤ r.min + 6 := by
  obtain ⟨h1, h2, -⟩ := renumberDay_spec hr hr v
  rw [renumberDay_self hr hv] at h1 h2
  exact ⟨h1, h2⟩

/-- Between two of the first seven numbers a range keeps its last number if it is in order or may
wrap. Otherwise it ends with the other number of its last day, if that lies behind its start. -/
theorem weekdayRange_eq_between_iff (hr : r.Consecutive) (ha : r.min ≤ a ∧ a ≤ r.min + 6)
    (hb : r.min ≤ b ∧ b ≤ r.min + 6) :
    weekdayRange r a b = .between a c ↔
      r.Contains c ∧ r.toIso c = r.toIso b ∧ (c = b ∨ r.strict = true ∧ b < a) ∧
        (r.strict = false ∨ a ≤ c) := by
  constructor
  · intro h
    rcases weekdayRange_cases hr ha hb with ⟨c', hc', hin, hday, -, hord⟩ | ⟨hsplit, -⟩
    · rw [h] at hc'
      cases hc'
      refine ⟨hin, hday, ?_, hord⟩
      by_cases hform : a ≤ b ∨ (!r.strict) = true
      · rw [weekdayRange, if_pos hform] at h
        cases h
        exact .inl rfl
      · obtain ⟨hwrap, hstrict⟩ := not_or.1 hform
        rw [Bool.not_eq_true', Bool.not_eq_false] at hstrict
        exact .inr ⟨hstrict, by omega⟩
    · rw [h] at hsplit
      cases hsplit
  · rintro ⟨hin, hday, rfl | ⟨hstrict, hwrap⟩, hord⟩
    · rw [weekdayRange, if_pos]
      rw [Bool.not_eq_true']
      exact hord.symm
    · have hac : a ≤ c := hord.resolve_left (by simp [hstrict])
      have hmax := hr.span
      have hcmax := hin.2
      rw [hr.toIso_eq, hr.toIso_eq] at hday
      rcases weekdayRange_cases hr ha hb with ⟨c', hc', hin', hday', -, hord'⟩ | ⟨-, -, -, hlast⟩
      -- there is only one number of the last day behind the start
      · have hac' : a ≤ c' := hord'.resolve_left (by simp [hstrict])
        have hcmax' := hin'.2
        rw [hr.toIso_eq, hr.toIso_eq] at hday'
        have hsame : c' = c := by omega
        rw [hc', hsame]
      · have hca := hlast c hin (by rw [hr.toIso_eq, hr.toIso_eq]; exact hday)
        omega

/-- A range of weekdays becomes a normal form. -/
theorem isNormal_renumber_between (hr : r.Consecutive) (hs : r.Contains s) (he : r.Contains e)
    (hord : r.strict = false ∨ s ≤ e) (h : renumber r r (.between s e) = .ok y) :
    y.IsNormal r := by
  rw [renumber_between r hr hs he] at h
  split at h
  · cases h
    exact .week
  · next hshort =>
    obtain ⟨hs1, hs2, hsday⟩ := renumberDay_spec hr hr s
    obtain ⟨he1, he2, heday⟩ := renumberDay_spec hr hr e
    have hone := isList_weekdayRange_self hr hs he hord
    rcases weekdayRange_cases hr ⟨hs1, hs2⟩ ⟨he1, he2⟩ with ⟨c, hc, -, -, hlt, -⟩ | ⟨hsplit, -⟩
    · obtain ⟨hin, hday, hform, -⟩ :=
        (weekdayRange_eq_between_iff hr ⟨hs1, hs2⟩ ⟨he1, he2⟩).1 hc
      have hmeant : r.normalize c = renumberDay r r e := by
        rw [← renumberDay_self hr hin, renumberDay, hday, heday, renumberDay]
      have hlen := span_eq hr hr hs he (hr.contains ⟨hs1, hs2⟩) hin hsday (hday.trans heday)
        (by omega) hlt
      rw [hc] at h
      cases h
      refine .range (normalize_renumberDay hr s) ?_ (by omega)
      rw [hmeant]
      exact hform.imp_left Eq.symm
    · rw [hsplit] at hone
      cases hone

/-- A normal range stays as it is. -/
theorem renumber_between_of_isNormal (hr : r.Consecutive) (hs : r.Contains s) (he : r.Contains e)
    (hord : r.strict = false ∨ s ≤ e) (h : IsNormal r (.between s e)) :
    renumber r r (.between s e) = .ok (.between s e) := by
  rw [renumber_between r hr hs he]
  refine congrArg Except.ok ?_
  cases h with
  | week =>
    rw [if_pos]
    rw [span, if_pos (by omega)]
    omega
  | range hns hne hshort =>
    have hsb := normalize_bounds hr hs
    rw [if_neg (by omega), renumberDay_self hr hs, renumberDay_self hr he, hns]
    rw [hns] at hsb
    rw [weekdayRange_eq_between_iff hr hsb (normalize_bounds hr he)]
    have hday : r.toIso e = r.toIso (r.normalize e) := by
      rw [← renumberDay_self hr he, (renumberDay_spec hr hr e).2.2]
    exact ⟨he, hday, hne.imp_left Eq.symm, hord⟩

theorem isNormal_renumber_base (hr : d.rule.Consecutive) (hx : x.isStepBase = true)
    (hc : check d x = .ok ()) (h : renumber d.rule d.rule x = .ok y) : y.IsNormal d.rule := by
  cases x with
  | always =>
    cases h
    exact .always
  | on v n =>
    cases h
    exact .on n (normalize_renumberDay hr v)
  | between s e =>
    obtain ⟨hs, he, hord⟩ := check_between_iff.1 hc
    exact isNormal_renumber_between hr hs he hord h
  | _ => cases hx

theorem isNormal_renumber_of_isMember (hr : d.rule.Consecutive) (hx : x.isMember = true)
    (hc : check d x = .ok ()) (h : renumber d.rule d.rule x = .ok y) : y.IsNormal d.rule := by
  by_cases hb : x.isStepBase = true
  · exact isNormal_renumber_base hr hb hc h
  cases x with
  | on v n =>
    cases h
    exact .on n (normalize_renumberDay hr v)
  | every base p =>
    obtain ⟨hbase, -, hcb⟩ := check_every_iff.1 hc
    obtain ⟨base', hbase', -⟩ := bind_eq_ok_iff.1 h
    -- the base stays in one piece, and the step goes over it
    have hone := isList_renumber_base hr hbase hcb hbase'
    rw [renumber_every_of_not_list hbase' hone] at h
    cases h
    exact .every p (isNormal_renumber_base hr hbase hcb hbase')
  | last w =>
    cases w with
    | none =>
      cases h
      exact .last
    | some w =>
      cases h
      exact .lastDay (normalize_renumberDay hr w)
  | lastOffset n =>
    cases h
    exact .lastOffset n
  | nearestWeekday day =>
    cases h
    exact .nearestWeekday day
  | always | between => exact absurd rfl hb
  | question | list => cases hx

/-- **Within its own week an expression becomes a normal form.** -/
theorem isNormal_renumber (hr : d.rule.Consecutive) (hc : check d x = .ok ())
    (h : renumber d.rule d.rule x = .ok y) : y.IsNormal d.rule := by
  by_cases hm : x.isMember = true
  · exact isNormal_renumber_of_isMember hr hm hc h
  cases x with
  | question =>
    cases h
    exact .question
  | list xs =>
    obtain ⟨ys, hys, h⟩ := bind_eq_ok_iff.1 h
    cases h
    refine .list fun y hy => ?_
    obtain ⟨x, hx, hxy⟩ := exists_of_mem_renumberAll hys hy
    obtain ⟨hmx, hcx⟩ := (check_list_iff.1 hc).2 x hx
    exact isNormal_renumber_of_isMember hr hmx hcx hxy
  | _ => exact absurd rfl hm

theorem renumberAll_eq_self {r' : FieldRule} {xs : List Expr}
    (h : ∀ x ∈ xs, renumber r r' x = .ok x) : renumberAll r r' xs = .ok xs := by
  induction xs with
  | nil => rfl
  | cons x xs ih =>
    obtain ⟨hx, hxs⟩ := List.forall_mem_cons.1 h
    rw [renumberAll, hx, ih hxs]
    rfl

/-- **Within its own week a normal form stays as it is.** -/
theorem renumber_of_isNormal (hr : d.rule.Consecutive) (h : x.IsNormal d.rule)
    (hc : check d x = .ok ()) : renumber d.rule d.rule x = .ok x := by
  induction h with
  | @on v n hv =>
    have hin : d.rule.Contains v := by
      cases n with
      | none => exact check_value_iff.1 hc
      | some n => exact (check_nth_iff.1 hc).1
    rw [renumber, renumberDay_self hr hin, hv]
  | week =>
    obtain ⟨hs, he, hord⟩ := check_between_iff.1 hc
    exact renumber_between_of_isNormal hr hs he hord .week
  | range hns hne hshort =>
    obtain ⟨hs, he, hord⟩ := check_between_iff.1 hc
    exact renumber_between_of_isNormal hr hs he hord (.range hns hne hshort)
  | every p hbase ih =>
    obtain ⟨hb, -, hcb⟩ := check_every_iff.1 hc
    exact renumber_every_of_not_list (ih hcb) (isList_of_isStepBase hb)
  | list hes ih =>
    have hall := (check_list_iff.1 hc).2
    rw [renumber, renumberAll_eq_self fun x hx => ih x hx (hall x hx).2]
    rfl
  | lastDay hw =>
    rw [renumber, renumberDay_self hr (check_lastDay_iff.1 hc).2.2, hw]
  | always | question | last | lastOffset | nearestWeekday => rfl

/-- Renumbering within a week leaves exactly the normal forms alone. -/
theorem renumber_eq_self_iff (hr : d.rule.Consecutive) (hc : check d x = .ok ()) :
    renumber d.rule d.rule x = .ok x ↔ x.IsNormal d.rule :=
  ⟨isNormal_renumber hr hc, fun h => renumber_of_isNormal hr h hc⟩

theorem isNormal_settleQuestion {D : Definition} {name : FieldName} (h : x.IsNormal r) :
    (Schedule.settleQuestion D name x).IsNormal r := by
  rw [Schedule.settleQuestion]
  split
  · exact .always
  · exact h

end Expr

open CronSchedule.Expr

namespace Schedule

variable {s t : Schedule} {target : Definition} {d : FieldDefinition} {name : FieldName}
  {fs : List Field}

/-! ### Schedules -/

/-- The schedules that have every required field, the day of the week in a normal form, and a
question mark for a day field if both know it. -/
structure IsNormal (s : Schedule) : Prop where
  complete : ∀ d ∈ s.definition.fields, d.optional = false → (s.expr? d.name).isSome = true
  weekday : ∀ d, s.definition.field? .dayOfWeek = some d → (s.effective .dayOfWeek).IsNormal d.rule
  question : knowsQuestion s.definition .dayOfMonth = true →
    knowsQuestion s.definition .dayOfWeek = true →
      s.expr? .dayOfMonth = some .question ∨ s.expr? .dayOfWeek = some .question

/-- Reconciling the day fields fills no field in and leaves none out. -/
theorem isSome_reconciled : (reconciled target s fs name).isSome = (exprIn fs name).isSome := by
  rw [reconciled]
  split
  · next dom dow hdom hdow =>
    simp only
    split
    · next hm =>
      rw [hm, hdom]
      rfl
    · split
      · next hw =>
        rw [hw, hdow]
        rfl
      · rfl
  · rfl

theorem isSome_exprIn_translateFields (hS : s.definition ∈ Dialect.all)
    (hT : target ∈ Dialect.all) (hfs : translateFields s.definition s target.fields = .ok fs)
    (hd : d ∈ target.fields) (hreq : d.optional = false) : (exprIn fs d.name).isSome = true := by
  have hy := Dialect.ne_dayOfYear target hT
  obtain ⟨f, hf, he⟩ := (exprIn_translateFields hy target.nodup hfs).2 d hd
  rw [he, Option.isSome_map]
  by_cases hw : d.name = .dayOfWeek
  · obtain ⟨sd, hsd, -⟩ := Dialect.exists_required_field _ hS .dayOfWeek (by decide)
    obtain ⟨e, rfl, -⟩ := translateField_dayOfWeek hw hreq hsd hf
    rfl
  · rcases translateField_eq (s := s) (hy d hd) hw with h | ⟨-, ho, -⟩
    · rw [h] at hf
      cases hf
      rfl
    · rw [hreq] at ho
      cases ho

/-- **A schedule translated into its own dialect is normal.** -/
theorem isNormal_translate (hD : s.definition ∈ Dialect.all) (hv : s.validate = .ok ())
    (h : translate s.definition s.definition s = .ok t) : t.IsNormal := by
  obtain ⟨fs, hfs, ht, -⟩ := translate_eq_ok h
  have hdraft : s.IsDraft s.definition t := ⟨fs, hfs, ht⟩
  have hdef := hdraft.definition_eq
  constructor
  · intro d hd hreq
    rw [hdef] at hd
    have hname : d.name ∈ s.definition.fieldNames := List.mem_map_of_mem hd
    rw [ht, expr?_ofAssignment, if_pos hname, isSome_reconciled]
    exact isSome_exprIn_translateFields hD hD hfs hd hreq
  · intro d hd
    rw [hdef] at hd
    obtain ⟨sd, td, e, hsd, htd, hren, -, hdow⟩ := hdraft.effective_days hD hD
    rw [hd] at hsd htd
    cases hsd
    cases htd
    have hweek := (Dialect.isWeekday hD hd).consecutive
    rw [hdow]
    rcases (reconcileDays_cases s.definition s (s.effective .dayOfMonth) e).2 with hc | hc
    · rw [hc]
      exact isNormal_settleQuestion (isNormal_renumber hweek (check_effective hD hv hd) hren)
    · rw [hc]
      exact isNormal_settleQuestion .question
  · intro hm hw
    rw [hdef] at hm hw
    rw [expr?_eq_question_iff rfl, expr?_eq_question_iff rfl]
    exact hdraft.question_mem_days hD hD hm hw

namespace IsNormal

theorem translateField_eq (h : s.IsNormal) (hD : s.definition ∈ Dialect.all)
    (hv : s.validate = .ok ()) (hd : d ∈ s.definition.fields) :
    translateField s.definition s d = .ok (s.field? d.name) := by
  have hfield := Definition.field?_of_mem hd
  rw [translateField, hfield, field?_eq]
  cases he : s.expr? d.name with
  | none =>
    cases ho : d.optional with
    | true => rfl
    | false =>
      have hsome := h.complete d hd ho
      rw [he] at hsome
      cases hsome
  | some e =>
    by_cases hw : d.name = .dayOfWeek
    · rw [hw] at hfield he
      have hnormal := h.weekday d hfield
      have hc := check_effective hD hv hfield
      rw [effective_of_expr? he] at hnormal hc
      have hren := renumber_of_isNormal (Dialect.isWeekday hD hfield).consecutive hnormal hc
      simp only [Option.map_some, if_pos hw, hren]
      rfl
    · simp only [Option.map_some, if_neg hw]
      rfl

theorem translateFields_eq (h : s.IsNormal) (hD : s.definition ∈ Dialect.all)
    (hv : s.validate = .ok ()) :
    translateFields s.definition s s.definition.fields = .ok s.fields := by
  have hfields : ∀ ds : List FieldDefinition, (∀ d ∈ ds, d ∈ s.definition.fields) →
      translateFields s.definition s ds = .ok (ds.filterMap fun d => s.field? d.name) := by
    intro ds hds
    induction ds with
    | nil => rfl
    | cons d ds ih =>
      obtain ⟨hd, hds⟩ := List.forall_mem_cons.1 hds
      rw [translateFields, h.translateField_eq hD hv hd, ih hds, List.filterMap_cons]
      cases s.field? d.name with
      | none => rfl
      | some f => rfl
  rw [hfields _ fun d hd => hd]
  refine congrArg Except.ok ?_
  simp only [field?_eq, expr?]
  exact filterMap_exprIn s.ordered s.definition.nodup

/-- Where the day fields of a normal schedule are reconciled, both stay as they are. -/
theorem reconciled_eq (h : s.IsNormal) (hD : s.definition ∈ Dialect.all)
    (hv : s.validate = .ok ()) : reconciled s.definition s s.fields = exprIn s.fields := by
  obtain ⟨md, hmd, -⟩ := Dialect.exists_required_field _ hD .dayOfMonth (by decide)
  obtain ⟨wd, hwd, -⟩ := Dialect.exists_required_field _ hD .dayOfWeek (by decide)
  funext name
  rw [reconciled]
  split
  · next dom dow hdom hdow =>
    have hcm := check_effective hD hv hmd
    have hcw := check_effective hD hv hwd
    rw [effective_of_expr? hdom] at hcm
    rw [effective_of_expr? hdow] at hcw
    have hpair : reconcileDays s.definition s dom dow = (dom, dow) := by
      by_cases hknows : knowsQuestion s.definition .dayOfMonth = true ∧
          knowsQuestion s.definition .dayOfWeek = true
      · have hq := h.question hknows.1 hknows.2
        rw [expr?_eq_question_iff rfl, expr?_eq_question_iff rfl] at hq
        exact reconcileDays_of_question hmd hwd hcm hcw hq
      · rw [← Bool.and_eq_true, Bool.not_eq_true] at hknows
        rw [reconcileDays, hknows]
        simp only [Bool.false_and, Bool.false_eq_true, if_false,
          settleQuestion_of_check hmd hcm, settleQuestion_of_check hwd hcw]
    simp only [hpair]
    split
    · next hm => rw [hm, hdom]
    · split
      · next hw => rw [hw, hdow]
      · rfl
  · rfl

/-- **A normal schedule is translated to itself** within its dialect. -/
theorem translate_eq (h : s.IsNormal) (hD : s.definition ∈ Dialect.all)
    (hv : s.validate = .ok ()) : translate s.definition s.definition s = .ok s := by
  have hdraft : s.IsDraft s.definition s := by
    refine ⟨s.fields, h.translateFields_eq hD hv, ?_⟩
    rw [h.reconciled_eq hD hv, ofAssignment_exprIn]
  exact hdraft.translate_eq_ok_iff.2 ⟨rfl, hv⟩

end IsNormal

/-- Within its own dialect the translation leaves exactly the normal ones of the valid schedules
alone. -/
theorem translate_eq_self_iff (hD : s.definition ∈ Dialect.all) (hv : s.validate = .ok ()) :
    translate s.definition s.definition s = .ok s ↔ s.IsNormal :=
  ⟨isNormal_translate hD hv, fun h => h.translate_eq hD hv⟩

/-- **A second translation into the same dialect changes nothing.** The first one succeeds on each
valid schedule, with one in normal form; the second one succeeds, too, and gives that schedule
again. -/
theorem translate_translate {D : Definition} (hD : D ∈ Dialect.all) (hs : s.definition = D)
    (hv : s.validate = .ok ()) :
    ∃ t, translate D D s = .ok t ∧ t.IsNormal ∧ translate D D t = .ok t := by
  subst hs
  obtain ⟨t, ht⟩ := exists_translate hD hv
  have hnormal := isNormal_translate hD hv ht
  obtain ⟨fs, -, hdraft, hvt⟩ := translate_eq_ok ht
  have hdef : t.definition = s.definition := by
    rw [hdraft]
    rfl
  refine ⟨t, ht, hnormal, ?_⟩
  have hself := hnormal.translate_eq (hdef.symm ▸ hD) hvt
  rwa [hdef] at hself

/-- At midnight on weekdays that are written in other ways than the normal one: Sunday as 7, ranges
that pass it, one of them stepped, and the whole week from Wednesday on. -/
def otherwiseWritten : Schedule :=
  .ofAssignment Dialect.spring fun
    | .second | .minute | .hour => some (.value 0)
    | .dayOfWeek => some (.list [.value 7, .between 7 3, .every (.between 5 7) 2, .between 3 2,
        .on 7 (some 1), .last (some 7)])
    | _ => none

/-- The days in normal form, with the fields that were missing. -/
def normallyWritten : Schedule :=
  .ofAssignment Dialect.spring fun
    | .second | .minute | .hour => some (.value 0)
    | .dayOfMonth => some .question
    | .month => some .always
    | .dayOfWeek => some (.list [.value 0, .between 0 3, .every (.between 5 0) 2, .between 0 6,
        .on 0 (some 1), .last (some 0)])
    | _ => none

theorem translate_translate_otherwiseWritten :
    otherwiseWritten.validate = .ok () ∧
      translate Dialect.spring Dialect.spring otherwiseWritten = .ok normallyWritten ∧
      translate Dialect.spring Dialect.spring normallyWritten = .ok normallyWritten := by
  have hv : otherwiseWritten.validate = .ok () := by rfl
  have h : translate Dialect.spring Dialect.spring otherwiseWritten = .ok normallyWritten := by rfl
  obtain ⟨t, ht, -, hself⟩ := translate_translate Dialect.spring_mem_all rfl hv
  rw [h] at ht
  cases ht
  exact ⟨hv, h, hself⟩

end Schedule

end CronSchedule
