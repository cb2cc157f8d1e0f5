import CronSchedule.Proofs.Translation.Permits

/-!
# Into Quartz and Spring

Quartz and Spring let the ranges of weekdays wrap, so none is split there, and they know the
question mark for both day fields, so one of them always has it. Every valid schedule of the four
dialects has a translation to them.

* `Expr.staysFlat_of_wraps`: no member of a list of weekdays becomes a list.
* `Schedule.IsDraft.question_mem_days`: one of the day fields is a question mark.
* `Schedule.exists_translate_wraps`: **the translation succeeds, with a valid schedule that has a
  question mark.**
-/

namespace CronSchedule

/-- The dialects that let ranges wrap and know the question mark for both day fields. -/
def Dialect.wrapping : List Definition := [quartz, spring]

theorem Dialect.workdays_of_wrapping {D : Definition} (h : D ∈ wrapping) : D ∈ workdays :=
  List.mem_cons_of_mem _ h

namespace Expr

variable {r r' : FieldRule} {sd td : FieldDefinition} {x y : Expr}

/-- Where ranges may wrap, a range and the base of a step stay in one piece. -/
theorem isList_renumber_of_wraps (hr : r'.strict = false) (hx : x.isStepBase = true)
    (h : renumber r r' x = .ok y) : y.isList = false := by
  cases x with
  | between s e =>
    obtain ⟨week, -, h⟩ := bind_eq_ok_iff.1 h
    cases week with
    | true =>
      cases h
      rfl
    | false =>
      have hrange : ∀ a b, weekdayRange r' a b = .between a b := by
        intro a b
        rw [weekdayRange, hr]
        exact if_pos (.inr rfl)
      cases h
      rw [hrange]
      rfl
  | always | on =>
    cases h
    rfl
  | _ => cases hx

/-- Where ranges may wrap, no member of a list of weekdays becomes a list. -/
theorem staysFlat_of_wraps (hs : sd.IsWeekday) (ht : td.IsWeekday) (hr : td.rule.strict = false)
    (hc : check sd x = .ok ()) : StaysFlat sd.rule td.rule x := by
  apply staysFlat_of_base hs ht hc
  intro z y hz _ hy
  exact isList_renumber_of_wraps hr hz hy

end Expr

open CronSchedule.Expr

namespace Schedule

variable {s t : Schedule} {source target : Definition}

/-- Where both day fields know the question mark, one of those of a draft is one. -/
theorem IsDraft.question_mem_days (h : s.IsDraft target t) (hS : s.definition ∈ Dialect.all)
    (hT : target ∈ Dialect.all) (hm : knowsQuestion target .dayOfMonth = true)
    (hw : knowsQuestion target .dayOfWeek = true) :
    t.effective .dayOfMonth = .question ∨ t.effective .dayOfWeek = .question := by
  obtain ⟨sd, td, e, -, -, hren, hdom, hdow⟩ := h.effective_days hS hT
  have hkeep : ∀ x name, knowsQuestion target name = true → settleQuestion target name x = x := by
    intro x name hname
    rw [settleQuestion, hname, Bool.not_true, Bool.and_false]
    rfl
  rw [hdom, hdow, reconcileDays, hm, hw]
  simp only [Bool.true_and, hkeep _ _ hm, hkeep _ _ hw]
  cases hq : (s.expr? .dayOfMonth == some .question || s.expr? .dayOfWeek == some .question) with
  | true =>
    -- the question mark of the source stays where it is
    rw [Bool.or_eq_true, beq_iff_eq, beq_iff_eq, expr?_eq_question_iff rfl,
      expr?_eq_question_iff rfl] at hq
    rcases hq with hq | hq
    · exact .inl hq
    · rw [hq] at hren
      cases hren
      exact .inr rfl
  | false =>
    rw [Bool.not_false, if_pos rfl]
    split
    · exact .inl rfl
    · exact .inr rfl

/-- Quartz and Spring want no ranges in order but those of the year, which no other dialect has. -/
theorem rangesFit_of_wraps (hS : s.definition ∈ Dialect.all) (hT : target ∈ Dialect.wrapping)
    (hv : s.validate = .ok ()) : s.RangesFit target := by
  have hstrict : ∀ D ∈ Dialect.all, ∀ T ∈ Dialect.wrapping, ∀ sd ∈ D.fields, ∀ d ∈ T.fields,
      sd.name = d.name → d.rule.strict = true → sd.rule.strict = true := by
    decide +kernel
  intro d hd _ hd' e he
  obtain ⟨sd, hsd⟩ := exists_field?_of_mem (mem_fieldNames_of_expr? he)
  obtain ⟨hm, hn⟩ := Definition.mem_of_field? hsd
  have hc := (validate_eq_ok_iff.1 hv).1 sd hm e (hn ▸ he)
  exact ascends_of_check (hstrict _ hS target hT sd hm d hd hn hd') hc

/-- In Quartz and Spring the day of the week of a draft is allowed. -/
theorem IsDraft.check_dayOfWeek_of_wraps (h : s.IsDraft target t)
    (hS : s.definition ∈ Dialect.all) (hT : target ∈ Dialect.wrapping)
    (hv : s.validate = .ok ()) {wd : FieldDefinition}
    (hwd : target.field? .dayOfWeek = some wd) :
    check wd (t.effective .dayOfWeek) = .ok () := by
  have hT' := Dialect.mem_all_of_workdays (Dialect.workdays_of_wrapping hT)
  have hfield : ∀ T ∈ Dialect.wrapping, ∀ d ∈ T.fields, d.name = .dayOfWeek →
      d.rule.strict = false ∧ d.rule.allowsQuestion = true := by decide
  obtain ⟨hm, hn⟩ := Definition.mem_of_field? hwd
  obtain ⟨hwrap, hquestion⟩ := hfield target hT wd hm hn
  obtain ⟨sd, td, e, hsd, htd, hren, -, hdow⟩ := h.effective_days hS hT'
  rw [hwd] at htd
  cases htd
  have hs := Dialect.isWeekday hS hsd
  have ht := Dialect.isWeekday hT' hwd
  have hc := check_effective hS hv hsd
  have hflat := staysFlat_of_wraps hs ht hwrap hc
  have hce := (check_renumber_iff hs ht hc hren).2 ⟨fun _ => hquestion, hflat⟩
  rw [hdow]
  exact check_reconcileDays_snd hwd (check_settleQuestion hce)

/-- In Quartz and Spring a draft is valid, and one of its day fields is a question mark. -/
theorem IsDraft.validate_of_wraps (h : s.IsDraft target t) (hS : s.definition ∈ Dialect.all)
    (hT : target ∈ Dialect.wrapping) (hv : s.validate = .ok ()) :
    t.validate = .ok () ∧
      (t.expr? .dayOfMonth = some .question ∨ t.expr? .dayOfWeek = some .question) := by
  have hwork := Dialect.workdays_of_wrapping hT
  have hT' := Dialect.mem_all_of_workdays hwork
  have hknows : ∀ T ∈ Dialect.wrapping, knowsQuestion T .dayOfMonth = true ∧
      knowsQuestion T .dayOfWeek = true := by decide
  have hcs : ∀ T ∈ Dialect.wrapping, ∀ c ∈ T.constraints, c = .questionMark := by
    simp [Dialect.wrapping, Dialect.quartz, Dialect.spring]
  obtain ⟨hm, hw⟩ := hknows target hT
  obtain ⟨wd, hwd, -⟩ := Dialect.exists_required_field _ hT' .dayOfWeek (by decide)
  have hquestion : t.expr? .dayOfMonth = some .question ∨ t.expr? .dayOfWeek = some .question := by
    rw [expr?_eq_question_iff rfl, expr?_eq_question_iff rfl]
    exact h.question_mem_days hS hT' hm hw
  refine ⟨?_, hquestion⟩
  rw [h.validate_iff hS hwork hv (rangesFit_of_wraps hS hT hv) hwd]
  refine ⟨h.check_dayOfWeek_of_wraps hS hT hv hwd, ?_⟩
  intro c hc
  rw [hcs target hT c hc, satisfies, Bool.or_eq_true, beq_iff_eq, beq_iff_eq]
  exact hquestion

/-- **Into Quartz and Spring every valid schedule has a translation.** Whatever fields it has, the
result is valid, and one of its day fields is a question mark, as Quartz asks. -/
theorem exists_translate_wraps (hS : source ∈ Dialect.all)
    (hT : target = Dialect.quartz ∨ target = Dialect.spring) (hD : s.definition = source)
    (hv : s.validate = .ok ()) :
    ∃ t, translate source target s = .ok t ∧ t.definition = target ∧ t.validate = .ok () ∧
      (t.expr? .dayOfMonth = some .question ∨ t.expr? .dayOfWeek = some .question) := by
  subst hD
  have hT : target ∈ Dialect.wrapping := by
    rcases hT with rfl | rfl
    · exact List.mem_cons_self
    · exact List.mem_cons_of_mem _ List.mem_cons_self
  have hT' := Dialect.mem_all_of_workdays (Dialect.workdays_of_wrapping hT)
  obtain ⟨t, ht⟩ := exists_draft hS hT' hv
  obtain ⟨hvt, hquestion⟩ := ht.validate_of_wraps hS hT hv
  exact ⟨t, ht.translate_eq_ok_iff.2 ⟨rfl, hvt⟩, ht.definition_eq, hvt, hquestion⟩

/-- At noon on the thirteenth and on the days from Friday to Sunday, with no field for the month. -/
def thirteenthAndWeekend : Schedule :=
  .ofAssignment Dialect.unix fun
    | .minute => some (.value 0)
    | .hour => some (.value 12)
    | .dayOfMonth => some (.value 13)
    | .dayOfWeek => some (.list [.between 5 7, .every (.between 5 6) 1])
    | _ => none

theorem exists_translate_thirteenthAndWeekend :
    thirteenthAndWeekend.validate = .ok () ∧
      ∃ t, translate Dialect.unix Dialect.quartz thirteenthAndWeekend = .ok t ∧
        t.definition = Dialect.quartz ∧ t.validate = .ok () ∧
        (t.expr? .dayOfMonth = some .question ∨ t.expr? .dayOfWeek = some .question) := by
  have hv : thirteenthAndWeekend.validate = .ok () := by rfl
  exact ⟨hv, exists_translate_wraps Dialect.unix_mem_all (.inl rfl) rfl hv⟩

end Schedule

end CronSchedule
