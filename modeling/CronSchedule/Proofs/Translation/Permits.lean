import CronSchedule.Proofs.Translation.Draft

/-!
# Fields that keep their numbers

All fields but the day of the week go into the target as they are. They are allowed there if the
target's field has the same numbers and knows the signs, and, where it wants ranges in order, if
theirs are.

* `Expr.check_of_permits`: what one field allows, a field with its numbers and signs allows, too.
* `Schedule.IsDraft.validate_iff`: **a draft in any dialect but Cron4j is valid exactly if its day
  of the week is allowed and it keeps the constraints.**
-/

namespace CronSchedule

/-- A field that has the numbers of another one and allows the signs that the other allows. Nothing
is said about the question mark and about ranges that wrap. -/
structure FieldDefinition.Permits (d' d : FieldDefinition) : Prop where
  name : d'.name = d.name
  min : d'.rule.min = d.rule.min
  max : d'.rule.max = d.rule.max
  last : d.rule.allowsLast = true → d'.rule.allowsLast = true
  workday : d.rule.allowsWeekday = true → d'.rule.allowsWeekday = true
  lastWorkday : d.rule.allowsLastWeekday = true → d'.rule.allowsLastWeekday = true
  nth : d.rule.allowsNth = true → d'.rule.allowsNth = true

namespace Dialect

/-- The dialects that know working days, and with them the signs of all the others. -/
def workdays : List Definition := [unix, quartz, spring]

theorem mem_all_of_workdays {D : Definition} (h : D ∈ workdays) : D ∈ all := by
  rcases List.mem_cons.1 h with rfl | h
  · exact unix_mem_all
  · rcases List.mem_cons.1 h with rfl | h
    · exact quartz_mem_all
    · cases List.mem_singleton.1 h
      exact spring_mem_all

/-- Outside the day of the week each dialect but Cron4j permits what any of the dialects does. -/
theorem permits {D T : Definition} {d d' : FieldDefinition} (hD : D ∈ all) (hT : T ∈ workdays)
    (hd : d ∈ D.fields) (hd' : d' ∈ T.fields) (hn : d'.name = d.name)
    (hw : d.name ≠ .dayOfWeek) : d'.Permits d := by
  have hnumbers : ∀ D ∈ all, ∀ T ∈ workdays, ∀ d ∈ D.fields, ∀ d' ∈ T.fields, d'.name = d.name →
      d.name ≠ .dayOfWeek → d'.rule.min = d.rule.min ∧ d'.rule.max = d.rule.max := by
    decide +kernel
  have hsigns : ∀ D ∈ all, ∀ T ∈ workdays, ∀ d ∈ D.fields, ∀ d' ∈ T.fields, d'.name = d.name →
      d.rule.allowsLast ≤ d'.rule.allowsLast ∧ d.rule.allowsWeekday ≤ d'.rule.allowsWeekday ∧
        d.rule.allowsLastWeekday ≤ d'.rule.allowsLastWeekday ∧
        d.rule.allowsNth ≤ d'.rule.allowsNth := by
    decide +kernel
  obtain ⟨hmin, hmax⟩ := hnumbers D hD T hT d hd d' hd' hn hw
  obtain ⟨hlast, hworkday, hlastWorkday, hnth⟩ := hsigns D hD T hT d hd d' hd' hn
  exact ⟨hn, hmin, hmax, hlast, hworkday, hlastWorkday, hnth⟩

end Dialect

namespace Expr

variable {d d' : FieldDefinition} {x : Expr} {v : Int}

mutual

/-- Whether no range in an expression starts after it ends. -/
def ascends : Expr → Bool
  | .between s e => s ≤ e
  | .every base _ => ascends base
  | .list es => allAscend es
  | _ => true

/-- Whether no range in several expressions starts after it ends. -/
def allAscend : List Expr → Bool
  | [] => true
  | e :: es => ascends e && allAscend es

end

theorem allAscend_iff {xs : List Expr} :
    allAscend xs = true ↔ ∀ x ∈ xs, x.ascends = true := by
  induction xs with
  | nil => exact iff_of_true rfl (List.forall_mem_nil _)
  | cons z zs ih => rw [allAscend, Bool.and_eq_true, List.forall_mem_cons, ih]

theorem ascends_of_mem {xs : List Expr} (h : allAscend xs = true) (hx : x ∈ xs) :
    x.ascends = true :=
  allAscend_iff.1 h x hx

/-- A field that wants ranges in order allows no other ones. -/
theorem ascends_of_check (hd : d.rule.strict = true) :
    ∀ {x : Expr}, check d x = .ok () → x.ascends = true
  | .between s e, hc => by
    obtain ⟨-, -, hord⟩ := check_between_iff.1 hc
    rw [hd] at hord
    exact decide_eq_true (hord.resolve_left nofun)
  | .every base p, hc => by
    obtain ⟨-, -, hcb⟩ := check_every_iff.1 hc
    rw [ascends]
    exact ascends_of_check hd hcb
  | .list es, hc => by
    obtain ⟨-, hall⟩ := check_list_iff.1 hc
    refine allAscend_iff.2 ?_
    intro z hz
    exact ascends_of_check hd (hall z hz).2
  | .always, _ | .question, _ | .on _ _, _ | .last _, _ | .lastOffset _, _
  | .nearestWeekday _, _ => rfl

theorem contains_of_permits (h : d'.Permits d) (hv : d.rule.Contains v) : d'.rule.Contains v := by
  unfold FieldRule.Contains at hv ⊢
  rw [h.min, h.max]
  exact hv

/-- **What one field allows, but for the question mark, a field with its numbers and signs allows,
too**, if the ranges in it are in order or need not be. -/
theorem check_of_permits (h : d'.Permits d) :
    ∀ {x : Expr}, check d x = .ok () → (d'.rule.strict = true → x.ascends = true) →
      x ≠ .question → check d' x = .ok ()
  | .always, _, _, _ => rfl
  | .question, _, _, hne => absurd rfl hne
  | .on v none, hc, _, _ => check_value_iff.2 (contains_of_permits h (check_value_iff.1 hc))
  | .on v (some n), hc, _, _ => by
    obtain ⟨hv, hnth, hn⟩ := check_nth_iff.1 hc
    exact check_nth_iff.2 ⟨contains_of_permits h hv, h.nth hnth, hn⟩
  | .between s e, hc, hasc, _ => by
    obtain ⟨hs, he, -⟩ := check_between_iff.1 hc
    refine check_between_iff.2 ⟨contains_of_permits h hs, contains_of_permits h he, ?_⟩
    cases hstrict : d'.rule.strict with
    | false => exact .inl rfl
    | true => exact .inr (of_decide_eq_true (hasc hstrict))
  | .every base p, hc, hasc, _ => by
    obtain ⟨hbase, hp, hcb⟩ := check_every_iff.1 hc
    have hne := ne_question_of_isStepBase hbase
    exact check_every_iff.2 ⟨hbase, hp, check_of_permits h hcb hasc hne⟩
  | .list es, hc, hasc, _ => by
    obtain ⟨hne, hall⟩ := check_list_iff.1 hc
    refine check_list_iff.2 ⟨hne, ?_⟩
    intro z hz
    obtain ⟨hm, hcz⟩ := hall z hz
    have hord := fun hstrict => ascends_of_mem (hasc hstrict) hz
    exact ⟨hm, check_of_permits h hcz hord (ne_question_of_isMember hm)⟩
  | .last none, hc, _, _ => check_last_iff.2 (h.last (check_last_iff.1 hc))
  | .last (some w), hc, _, _ => by
    obtain ⟨hlast, hname, hw⟩ := check_lastDay_iff.1 hc
    exact check_lastDay_iff.2 ⟨h.last hlast, h.name.trans hname, contains_of_permits h hw⟩
  | .lastOffset n, hc, _, _ => by
    obtain ⟨hlast, hname, hn⟩ := check_lastOffset_iff.1 hc
    rw [← h.min, ← h.max] at hn
    exact check_lastOffset_iff.2 ⟨h.last hlast, h.name.trans hname, hn⟩
  | .nearestWeekday none, hc, _, _ =>
    check_lastWorkday_iff.2 (h.lastWorkday (check_lastWorkday_iff.1 hc))
  | .nearestWeekday (some day), hc, _, _ => by
    obtain ⟨hworkday, hday⟩ := check_workday_iff.1 hc
    exact check_workday_iff.2 ⟨h.workday hworkday, contains_of_permits h hday⟩

end Expr

open CronSchedule.Expr

namespace Schedule

variable {s t : Schedule} {target : Definition} {d wd : FieldDefinition} {name : FieldName}
  {e : Expr}

theorem settleQuestion_of_ne {D : Definition} (h : e ≠ .question) :
    settleQuestion D name e = e := by
  rw [settleQuestion, decide_eq_false h]
  rfl

/-- No field but the day fields knows the question mark. -/
theorem effective_ne_question (hD : s.definition ∈ Dialect.all) (hv : s.validate = .ok ())
    (hm : name ≠ .dayOfMonth) (hw : name ≠ .dayOfWeek) : s.effective name ≠ .question := by
  have hno : ∀ D ∈ Dialect.all, ∀ d ∈ D.fields, d.name ≠ .dayOfMonth → d.name ≠ .dayOfWeek →
      d.rule.allowsQuestion = false := by decide
  intro hq
  cases he : s.expr? name with
  | none =>
    rw [effective, he, Option.getD_none] at hq
    cases name with
    | _ => cases hq
  | some e =>
    obtain ⟨d, hd⟩ := exists_field?_of_mem (mem_fieldNames_of_expr? he)
    obtain ⟨hdm, rfl⟩ := Definition.mem_of_field? hd
    have hc := check_effective hD hv hd
    rw [hq, check_question_iff, hno _ hD d hdm hm hw] at hc
    cases hc

/-- Outside the day of the week no range wraps where the target wants them in order. -/
def RangesFit (s : Schedule) (target : Definition) : Prop :=
  ∀ d ∈ target.fields, d.name ≠ .dayOfWeek → d.rule.strict = true →
    ∀ e, s.expr? d.name = some e → e.ascends = true

/-- A field that keeps its numbers is allowed in the target once its question mark is settled. -/
theorem check_settle_effective (hD : s.definition ∈ Dialect.all) (hT : target ∈ Dialect.workdays)
    (hv : s.validate = .ok ()) (hfit : s.RangesFit target) (hd : d ∈ target.fields)
    (hw : d.name ≠ .dayOfWeek) :
    check d (settleQuestion target d.name (s.effective d.name)) = .ok () := by
  by_cases hq : s.effective d.name = .question
  · rw [hq]
    exact check_settleQuestion_question (Definition.field?_of_mem hd)
  rw [settleQuestion_of_ne hq]
  cases he : s.expr? d.name with
  | none =>
    rw [effective, he]
    exact check_absentExpr (Dialect.mem_all_of_workdays hT) hd
  | some e =>
    obtain ⟨sd, hsd⟩ := exists_field?_of_mem (mem_fieldNames_of_expr? he)
    obtain ⟨hm, hn⟩ := Definition.mem_of_field? hsd
    rw [effective_of_expr? he] at hq ⊢
    have hc := (validate_eq_ok_iff.1 hv).1 sd hm e (hn ▸ he)
    have hord := fun hstrict => hfit d hd hw hstrict e he
    exact check_of_permits (Dialect.permits hD hT hm hd hn.symm (hn ▸ hw)) hc hord hq

/-- **A draft in any dialect but Cron4j is valid exactly if its day of the week is allowed and it
keeps the constraints**, where the ranges of the other fields fit. -/
theorem IsDraft.validate_iff (h : s.IsDraft target t) (hD : s.definition ∈ Dialect.all)
    (hT : target ∈ Dialect.workdays) (hv : s.validate = .ok ()) (hfit : s.RangesFit target)
    (hwd : target.field? .dayOfWeek = some wd) :
    t.validate = .ok () ↔ check wd (t.effective .dayOfWeek) = .ok () ∧
      ∀ c ∈ target.constraints, t.satisfies c = true := by
  have hall := Dialect.mem_all_of_workdays hT
  have hT' : t.definition ∈ Dialect.all := h.definition_eq.symm ▸ hall
  rw [validate_iff_effective hT', h.definition_eq]
  refine and_congr_left fun _ => ?_
  constructor
  · intro hfields
    obtain ⟨hm, hn⟩ := Definition.mem_of_field? hwd
    exact hn ▸ hfields wd hm
  intro hc d hd
  have hfield := Definition.field?_of_mem hd
  by_cases hw : d.name = .dayOfWeek
  · rw [hw, hwd] at hfield
    cases hfield
    rw [hw]
    exact hc
  have hset := check_settle_effective hD hT hv hfit hd hw
  by_cases hm : d.name = .dayOfMonth
  · obtain ⟨-, -, e, -, -, -, hdom, -⟩ := h.effective_days hD hall
    rw [hm] at hset hfield ⊢
    rw [hdom]
    exact check_reconcileDays_fst hfield hset
  · rw [h.effective_eq hall hm hw (hasField_iff.2 (List.mem_map_of_mem hd))]
    rwa [settleQuestion_of_ne (effective_ne_question hD hv hm hw)] at hset

end Schedule

end CronSchedule
