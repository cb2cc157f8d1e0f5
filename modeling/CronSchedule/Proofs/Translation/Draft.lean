import CronSchedule.Proofs.Translation.Renumber
import CronSchedule.Proofs.Translation.Schedule

/-!
# When a translation succeeds

Translating a valid schedule always comes to a draft: its fields are translated, and the day fields
are reconciled. The draft is the result if it is valid in the target, and the translation fails
otherwise.

* `Schedule.exists_draft`: **each valid schedule has a draft** in each of the four dialects.
* `Schedule.IsDraft.translate_eq_ok_iff`: the draft is the result exactly if it is valid.
* `Schedule.validate_iff_effective`: validity, told in effective expressions.
-/

namespace CronSchedule

open CronSchedule.Expr

namespace Schedule

variable {s t t' : Schedule} {D target : Definition} {d : FieldDefinition} {name : FieldName}
  {dom dow e : Expr}

/-! ### The fields of the target -/

theorem exists_translateField (hS : s.definition ∈ Dialect.all) (hT : target ∈ Dialect.all)
    (hv : s.validate = .ok ()) (hd : d ∈ target.fields) :
    ∃ f, translateField s.definition s d = .ok f := by
  by_cases hw : d.name = .dayOfWeek
  · obtain ⟨sd, hsd, -⟩ := Dialect.exists_required_field _ hS .dayOfWeek (by decide)
    have htd := hw ▸ Definition.field?_of_mem hd
    rw [translateField, hw, hsd, field?_eq]
    cases he : s.expr? .dayOfWeek with
    | none => exact ⟨_, rfl⟩
    | some e =>
      obtain ⟨hm, hn⟩ := Definition.mem_of_field? hsd
      have hc := (validate_eq_ok_iff.1 hv).1 sd hm e (hn ▸ he)
      obtain ⟨y, hy⟩ := exists_renumber (Dialect.isWeekday hS hsd) (Dialect.isWeekday hT htd) hc
      refine ⟨some ⟨.dayOfWeek, y⟩, ?_⟩
      simp only [Option.map_some, if_true, hy]
      rfl
  · rcases translateField_eq (s := s) (Dialect.ne_dayOfYear _ hT d hd) hw with h | ⟨h, -, -⟩
    · exact ⟨_, h⟩
    · exact ⟨_, h⟩

theorem exists_translateFields (hS : s.definition ∈ Dialect.all) (hT : target ∈ Dialect.all)
    (hv : s.validate = .ok ()) {ds : List FieldDefinition} (hds : ∀ d ∈ ds, d ∈ target.fields) :
    ∃ fs, translateFields s.definition s ds = .ok fs := by
  induction ds with
  | nil => exact ⟨[], rfl⟩
  | cons d ds ih =>
    obtain ⟨hd, hds⟩ := List.forall_mem_cons.1 hds
    obtain ⟨f, hf⟩ := exists_translateField hS hT hv hd
    obtain ⟨fs, hfs⟩ := ih hds
    refine ⟨f.toList ++ fs, ?_⟩
    rw [translateFields, hf, hfs]
    rfl

/-! ### Drafts -/

/-- A schedule of the target with the translated fields, before it is checked. -/
def IsDraft (s : Schedule) (target : Definition) (t : Schedule) : Prop :=
  ∃ fs, translateFields s.definition s target.fields = .ok fs ∧
    t = ofAssignment target (reconciled target s fs)

/-- **Each valid schedule has a draft** in each of the four dialects. -/
theorem exists_draft (hS : s.definition ∈ Dialect.all) (hT : target ∈ Dialect.all)
    (hv : s.validate = .ok ()) : ∃ t, s.IsDraft target t := by
  obtain ⟨fs, hfs⟩ := exists_translateFields hS hT hv fun d hd => hd
  exact ⟨_, fs, hfs, rfl⟩

theorem IsDraft.definition_eq (h : s.IsDraft target t) : t.definition = target := by
  obtain ⟨fs, -, rfl⟩ := h
  rfl

/-- **The draft is the result exactly if it is valid.** -/
theorem IsDraft.translate_eq_ok_iff (h : s.IsDraft target t) :
    translate s.definition target s = .ok t' ↔ t' = t ∧ t.validate = .ok () := by
  obtain ⟨fs, hfs, rfl⟩ := h
  rw [translate, hfs]
  simp only [Except.mapError, bind, Except.bind]
  cases (ofAssignment target (reconciled target s fs)).validate with
  | error fault => simp
  | ok u => simp [pure, Except.pure, eq_comm]

/-- Outside the day fields the draft means what the schedule means, where the target has the field.
-/
theorem IsDraft.effective_eq (h : s.IsDraft target t) (hT : target ∈ Dialect.all)
    (hm : name ≠ .dayOfMonth) (hw : name ≠ .dayOfWeek) (hn : target.hasField name = true) :
    t.effective name = s.effective name := by
  obtain ⟨fs, hfs, rfl⟩ := h
  refine effective_reconciled hT hfs hm hw ?_
  intro hno
  rw [hn] at hno
  cases hno

/-- The day fields of the draft are those of the schedule, with the days of the week renumbered,
after they are reconciled. -/
theorem IsDraft.effective_days (h : s.IsDraft target t) (hS : s.definition ∈ Dialect.all)
    (hT : target ∈ Dialect.all) :
    ∃ sd td e, s.definition.field? .dayOfWeek = some sd ∧ target.field? .dayOfWeek = some td ∧
      renumber sd.rule td.rule (s.effective .dayOfWeek) = .ok e ∧
      t.effective .dayOfMonth = (reconcileDays target s (s.effective .dayOfMonth) e).1 ∧
      t.effective .dayOfWeek = (reconcileDays target s (s.effective .dayOfMonth) e).2 := by
  obtain ⟨fs, hfs, ht⟩ := h
  exact effective_reconciled_days hS hT hfs ht

/-! ### Validity -/

/-- A schedule is valid if its fields allow their effective expressions and it keeps the constraints
of its dialect. -/
theorem validate_iff_effective (hD : s.definition ∈ Dialect.all) :
    s.validate = .ok () ↔
      (∀ d ∈ s.definition.fields, (s.effective d.name).check d = .ok ()) ∧
        ∀ c ∈ s.definition.constraints, s.satisfies c = true := by
  constructor
  · intro hv
    refine ⟨?_, (validate_eq_ok_iff.1 hv).2⟩
    exact fun d hd => check_effective hD hv (Definition.field?_of_mem hd)
  · rintro ⟨hfields, hcs⟩
    refine validate_eq_ok_iff.2 ⟨?_, hcs⟩
    intro d hd e he
    have hc := hfields d hd
    rw [effective, he] at hc
    exact hc

theorem allowsQuestion_of_knowsQuestion (hd : D.field? name = some d) :
    d.rule.allowsQuestion = knowsQuestion D name := by
  rw [knowsQuestion, hd]

/-- Settling the question mark leaves an expression that the field allows. -/
theorem check_settleQuestion (hc : check d e = .ok ()) :
    check d (settleQuestion D name e) = .ok () := by
  rw [settleQuestion]
  split
  · rfl
  · exact hc

/-- A field allows the question mark once it is settled, whether it knows it or not. -/
theorem check_settleQuestion_question (hd : D.field? name = some d) :
    check d (settleQuestion D name .question) = .ok () := by
  rw [settleQuestion]
  cases hk : knowsQuestion D name with
  | true => exact check_question_iff.2 ((allowsQuestion_of_knowsQuestion hd).trans hk)
  | false => rfl

/-- Each day field comes out of reconciling with its own expression or with a question mark. -/
theorem reconcileDays_cases (D : Definition) (s : Schedule) (dom dow : Expr) :
    ((reconcileDays D s dom dow).1 = settleQuestion D .dayOfMonth dom ∨
        (reconcileDays D s dom dow).1 = settleQuestion D .dayOfMonth .question) ∧
      ((reconcileDays D s dom dow).2 = settleQuestion D .dayOfWeek dow ∨
        (reconcileDays D s dom dow).2 = settleQuestion D .dayOfWeek .question) := by
  rw [reconcileDays]
  split
  next dom' dow' heq =>
  split at heq
  · split at heq
    · cases heq
      exact ⟨.inr rfl, .inl rfl⟩
    · cases heq
      exact ⟨.inl rfl, .inr rfl⟩
  · cases heq
    exact ⟨.inl rfl, .inl rfl⟩

theorem check_reconcileDays_fst (hd : D.field? .dayOfMonth = some d)
    (hc : check d (settleQuestion D .dayOfMonth dom) = .ok ()) :
    check d (reconcileDays D s dom dow).1 = .ok () := by
  rcases (reconcileDays_cases D s dom dow).1 with h | h
  · rw [h]
    exact hc
  · rw [h]
    exact check_settleQuestion_question hd

theorem check_reconcileDays_snd (hd : D.field? .dayOfWeek = some d)
    (hc : check d (settleQuestion D .dayOfWeek dow) = .ok ()) :
    check d (reconcileDays D s dom dow).2 = .ok () := by
  rcases (reconcileDays_cases D s dom dow).2 with h | h
  · rw [h]
    exact hc
  · rw [h]
    exact check_settleQuestion_question hd

end Schedule

end CronSchedule
