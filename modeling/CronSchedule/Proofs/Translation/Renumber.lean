import CronSchedule.Proofs.Translation.Step
import Mathlib.Data.List.Forall2

/-!
# Renumbered weekdays are allowed

What one weekday field allows becomes something that another one allows, form by form. A range that
the other field wants in order may be split in two, and a step over it becomes the days one by one.
Either is a list, which is fine where the range or the step stands alone; in a list it is a list
inside a list, and no field allows that.

* `Expr.exists_becomes`: each member of a list becomes an expression that the other field allows.
* `Expr.exists_renumber`: renumbering succeeds.
* `Expr.check_renumber_iff`: **the other field allows the result exactly when no member of a list
  becomes a list.**
-/

namespace CronSchedule

/-- A field for the day of the week. It allows the last weekday of a month and the `n`-th one, and
nothing about working days, which are days of the month. -/
structure FieldDefinition.IsWeekday (d : FieldDefinition) : Prop where
  weekly : d.rule.Weekly
  name : d.name = .dayOfWeek
  last : d.rule.allowsLast = true
  nth : d.rule.allowsNth = true
  workday : d.rule.allowsWeekday = false
  lastWorkday : d.rule.allowsLastWeekday = false

theorem FieldDefinition.IsWeekday.consecutive {d : FieldDefinition} (hd : d.IsWeekday) :
    d.rule.Consecutive := hd.weekly.consecutive

theorem Dialect.isWeekday {D : Definition} {d : FieldDefinition} (hD : D ∈ all)
    (hd : D.field? .dayOfWeek = some d) : d.IsWeekday := by
  have h : ∀ D ∈ all, ∀ d ∈ D.fields, d.name = .dayOfWeek →
      d.rule.allowsLast = true ∧ d.rule.allowsNth = true ∧ d.rule.allowsWeekday = false ∧
        d.rule.allowsLastWeekday = false := by decide
  obtain ⟨hm, hn⟩ := Definition.mem_of_field? hd
  obtain ⟨hlast, hnth, hworkday, hlastWorkday⟩ := h D hD d hm hn
  exact ⟨weekly hD hd, hn, hlast, hnth, hworkday, hlastWorkday⟩

namespace Expr

variable {d sd td : FieldDefinition} {x y base : Expr} {s e p v a b : Int}

/-! ### Forms -/

/-- What can stand in a list is neither a list nor a question mark. -/
theorem isMember_eq (h : y ≠ .question) : y.isMember = !y.isList := by
  cases y with
  | question => exact absurd rfl h
  | _ => rfl

theorem isList_of_isStepBase (h : x.isStepBase = true) : x.isList = false := by
  cases x with
  | list => cases h
  | _ => rfl

theorem ne_question_of_isStepBase (h : x.isStepBase = true) : x ≠ .question := by
  rintro rfl
  cases h

theorem ne_question_of_isMember (h : x.isMember = true) : x ≠ .question := by
  rintro rfl
  cases h

theorem ne_question_of_isList (h : x.isList = true) : x ≠ .question := by
  rintro rfl
  cases h

/-! ### Ranges -/

theorem check_rangeOrValue (ha : d.rule.Contains a) (hb : d.rule.Contains b) (hab : a ≤ b) :
    (rangeOrValue a b).isMember = true ∧ check d (rangeOrValue a b) = .ok () := by
  rw [rangeOrValue]
  split
  · exact ⟨rfl, check_value_iff.2 ha⟩
  · exact ⟨rfl, check_between_iff.2 ⟨ha, hb, .inr hab⟩⟩

/-- The form of a range is one that the field allows. -/
theorem check_weekdayRange (hr : d.rule.Consecutive) (ha : d.rule.min ≤ a ∧ a ≤ d.rule.min + 6)
    (hb : d.rule.min ≤ b ∧ b ≤ d.rule.min + 6) :
    check d (weekdayRange d.rule a b) = .ok () ∧
      ((weekdayRange d.rule a b).isStepBase = true ∨ (weekdayRange d.rule a b).isList = true) := by
  have hfirst := hr.contains (v := d.rule.min) (by omega)
  have hlast := hr.contains (v := d.rule.min + 6) (by omega)
  rcases weekdayRange_cases hr ha hb with ⟨c, hc, hin, -, -, hord⟩ | ⟨hsplit, -⟩
  · rw [hc]
    exact ⟨check_between_iff.2 ⟨hr.contains ha, hin, hord⟩, .inl rfl⟩
  · rw [hsplit]
    refine ⟨check_list_iff.2 ⟨List.cons_ne_nil _ _, ?_⟩, .inr rfl⟩
    simp only [List.forall_mem_cons]
    exact ⟨check_rangeOrValue (hr.contains ha) hlast ha.2,
      check_rangeOrValue hfirst (hr.contains hb) hb.1, List.forall_mem_nil _⟩

/-! ### What becomes of an expression -/

/-- One weekday field's expression becomes one that another field allows. -/
structure Becomes (sd td : FieldDefinition) (x y : Expr) : Prop where
  renumber_eq : renumber sd.rule td.rule x = .ok y
  check_eq : check td y = .ok ()
  ne_question : y ≠ .question

/-- The base of a step becomes one, or it is split in two. -/
theorem exists_becomes_base (hs : sd.IsWeekday) (ht : td.IsWeekday) (hx : x.isStepBase = true)
    (hc : check sd x = .ok ()) :
    ∃ y, Becomes sd td x y ∧ (y.isStepBase = true ∨ y.isList = true) := by
  cases x with
  | always => exact ⟨.always, ⟨rfl, rfl, nofun⟩, .inl rfl⟩
  | on v n =>
    cases n with
    | none =>
      have hv := check_value_iff.2 (contains_renumberDay hs.consecutive ht.consecutive v)
      exact ⟨_, ⟨rfl, hv, nofun⟩, .inl rfl⟩
    | some n => cases hx
  | between s e =>
    obtain ⟨hin, hin', -⟩ := check_between_iff.1 hc
    have hren := renumber_between td.rule hs.consecutive hin hin'
    by_cases hlong : 6 ≤ span s e
    · rw [if_pos hlong] at hren
      have hfirst := ht.consecutive.contains (v := td.rule.min) (by omega)
      have hlast := ht.consecutive.contains (v := td.rule.min + 6) (by omega)
      have hweek := check_between_iff.2 ⟨hfirst, hlast, .inr (by omega)⟩
      exact ⟨_, ⟨hren, hweek, nofun⟩, .inl rfl⟩
    · rw [if_neg hlong] at hren
      obtain ⟨hs1, hs2, -⟩ := renumberDay_spec hs.consecutive ht.consecutive s
      obtain ⟨he1, he2, -⟩ := renumberDay_spec hs.consecutive ht.consecutive e
      obtain ⟨hform, hkind⟩ := check_weekdayRange ht.consecutive ⟨hs1, hs2⟩ ⟨he1, he2⟩
      refine ⟨_, ⟨hren, hform, ?_⟩, hkind⟩
      rcases hkind with h | h
      · exact ne_question_of_isStepBase h
      · exact ne_question_of_isList h
  | _ => cases hx

/-- The days of a step, one by one, are allowed. There is one at least, the first of its base. -/
theorem exists_check_weekdayList (hs : sd.IsWeekday) (ht : td.IsWeekday)
    (hc : check sd (.every base p) = .ok ()) :
    ∃ y, weekdayList sd.rule td.rule (.every base p) = .ok y ∧ check td y = .ok () ∧
      y ≠ .question := by
  obtain ⟨hbase, hp, hcb⟩ := check_every_iff.1 hc
  have hspan := hs.consecutive.span
  obtain ⟨s, e, hrange, hin⟩ := exists_stepRange (by omega) hbase hcb
  obtain ⟨vs, y, hy, hmem, hform⟩ := exists_weekdayList td.rule (x := .every base p)
    (stepAdmits_eq hp hrange)
  have hvs : ∀ v ∈ vs, td.rule.Contains v := by
    intro v hv
    obtain ⟨u, -, rfl⟩ := (hmem v).1 hv
    exact contains_renumberDay hs.consecutive ht.consecutive u
  refine ⟨y, hy, ?_⟩
  rcases hform with ⟨v, rfl, rfl⟩ | ⟨-, rfl⟩
  · exact ⟨check_value_iff.2 (hvs v (List.mem_singleton_self v)), nofun⟩
  · have hfirst : renumberDay sd.rule td.rule s ∈ vs := by
      refine (hmem _).2 ⟨s, ⟨hin, decide_eq_true (.inl ⟨Int.le_refl s, id, ?_⟩)⟩, rfl⟩
      rw [Int.sub_self]
      exact Int.dvd_zero p
    refine ⟨check_list_iff.2 ⟨List.ne_nil_of_mem (List.mem_map_of_mem hfirst), ?_⟩, nofun⟩
    intro x hx
    obtain ⟨v, hv, rfl⟩ := List.mem_map.1 hx
    exact ⟨rfl, check_value_iff.2 (hvs v hv)⟩

/-- **What can stand in a list becomes an expression that the other field allows**, though it may be
a list itself. -/
theorem exists_becomes (hs : sd.IsWeekday) (ht : td.IsWeekday) (hx : x.isMember = true)
    (hc : check sd x = .ok ()) : ∃ y, Becomes sd td x y := by
  by_cases hb : x.isStepBase = true
  · obtain ⟨y, hy, -⟩ := exists_becomes_base hs ht hb hc
    exact ⟨y, hy⟩
  cases x with
  | on v n =>
    cases n with
    | none => exact absurd rfl hb
    | some n =>
      obtain ⟨-, -, hn⟩ := check_nth_iff.1 hc
      have hv := contains_renumberDay hs.consecutive ht.consecutive v
      exact ⟨_, rfl, check_nth_iff.2 ⟨hv, ht.nth, hn⟩, nofun⟩
  | every base p =>
    obtain ⟨hbase, hp, hcb⟩ := check_every_iff.1 hc
    obtain ⟨y, hy, hstep | hlist⟩ := exists_becomes_base hs ht hbase hcb
    · have hren := renumber_every_of_not_list (p := p) hy.renumber_eq (isList_of_isStepBase hstep)
      exact ⟨_, hren, check_every_iff.2 ⟨hstep, hp, hy.check_eq⟩, nofun⟩
    · obtain ⟨z, hz, hcz, hne⟩ := exists_check_weekdayList hs ht hc
      exact ⟨z, (renumber_every_of_list hy.renumber_eq hlist).trans hz, hcz, hne⟩
  | last w =>
    cases w with
    | none => exact ⟨_, rfl, check_last_iff.2 ht.last, nofun⟩
    | some w =>
      have hw := contains_renumberDay hs.consecutive ht.consecutive w
      exact ⟨_, rfl, check_lastDay_iff.2 ⟨ht.last, ht.name, hw⟩, nofun⟩
  | lastOffset n =>
    -- a number of days before the last day is for the day of the month
    have hname := (check_lastOffset_iff.1 hc).2.1
    rw [hs.name] at hname
    cases hname
  | nearestWeekday day =>
    cases day with
    | none =>
      rw [check_lastWorkday_iff, hs.lastWorkday] at hc
      cases hc
    | some day =>
      rw [check_workday_iff, hs.workday] at hc
      cases hc.1
  | always | between => exact absurd rfl hb
  | question | list => cases hx

theorem exists_renumberAll (hs : sd.IsWeekday) (ht : td.IsWeekday) {xs : List Expr}
    (hc : ∀ x ∈ xs, x.isMember = true ∧ check sd x = .ok ()) :
    ∃ ys, renumberAll sd.rule td.rule xs = .ok ys ∧ List.Forall₂ (Becomes sd td) xs ys := by
  induction xs with
  | nil => exact ⟨[], rfl, .nil⟩
  | cons x xs ih =>
    obtain ⟨⟨hm, hx⟩, hxs⟩ := List.forall_mem_cons.1 hc
    obtain ⟨y, hy⟩ := exists_becomes hs ht hm hx
    obtain ⟨ys, hys, hall⟩ := ih hxs
    refine ⟨y :: ys, ?_, .cons hy hall⟩
    rw [renumberAll, hy.renumber_eq, hys]
    rfl

/-- **Renumbering succeeds** on what a field allows. -/
theorem exists_renumber (hs : sd.IsWeekday) (ht : td.IsWeekday) (hc : check sd x = .ok ()) :
    ∃ y, renumber sd.rule td.rule x = .ok y := by
  by_cases hm : x.isMember = true
  · obtain ⟨y, hy⟩ := exists_becomes hs ht hm hc
    exact ⟨y, hy.renumber_eq⟩
  cases x with
  | question => exact ⟨_, rfl⟩
  | list xs =>
    obtain ⟨ys, hys, -⟩ := exists_renumberAll hs ht (check_list_iff.1 hc).2
    refine ⟨.list ys, ?_⟩
    rw [renumber, hys]
    rfl
  | _ => exact absurd rfl hm

/-- Nothing but the question mark becomes one. -/
theorem ne_question_of_renumber (hs : sd.IsWeekday) (ht : td.IsWeekday) (hc : check sd x = .ok ())
    (h : renumber sd.rule td.rule x = .ok y) (hx : x ≠ .question) : y ≠ .question := by
  by_cases hm : x.isMember = true
  · obtain ⟨y', hy'⟩ := exists_becomes hs ht hm hc
    rw [hy'.renumber_eq] at h
    cases h
    exact hy'.ne_question
  cases x with
  | question => exact absurd rfl hx
  | list xs =>
    obtain ⟨ys, -, h⟩ := bind_eq_ok_iff.1 h
    cases h
    exact nofun
  | _ => exact absurd rfl hm

/-- No member of a list becomes a list. -/
def StaysFlat (r r' : FieldRule) (x : Expr) : Prop :=
  ∀ xs, x = .list xs → ∀ z ∈ xs, ∀ y, renumber r r' z = .ok y → y.isList = false

/-- No member of a list becomes a list if no range alone and no base of a step does. -/
theorem staysFlat_of_base (hs : sd.IsWeekday) (ht : td.IsWeekday) (hc : check sd x = .ok ())
    (hflat : ∀ z y, z.isStepBase = true → check sd z = .ok () →
      renumber sd.rule td.rule z = .ok y → y.isList = false) :
    StaysFlat sd.rule td.rule x := by
  rintro xs rfl z hz y hy
  obtain ⟨hm, hcz⟩ := (check_list_iff.1 hc).2 z hz
  by_cases hb : z.isStepBase = true
  · exact hflat z y hb hcz hy
  cases z with
  | every base p =>
    obtain ⟨hbase, -, hcb⟩ := check_every_iff.1 hcz
    obtain ⟨base', hbase', -⟩ := exists_becomes_base hs ht hbase hcb
    have hone := hflat base base' hbase hcb hbase'.renumber_eq
    rw [renumber_every_of_not_list hbase'.renumber_eq hone] at hy
    cases hy
    rfl
  | last w =>
    cases w with
    | none | some =>
      cases hy
      rfl
  | on | lastOffset | nearestWeekday =>
    cases hy
    rfl
  | always | between => exact absurd rfl hb
  | question | list => cases hm

/-- The list of what the members become is allowed if there is no list among it. -/
theorem check_list_becomes_iff {xs ys : List Expr} (hne : xs ≠ [])
    (h : List.Forall₂ (Becomes sd td) xs ys) :
    check td (.list ys) = .ok () ↔ StaysFlat sd.rule td.rule (.list xs) := by
  have hmembers : (∀ y ∈ ys, y.isMember = true ∧ check td y = .ok ()) ↔
      ∀ z ∈ xs, ∀ y, renumber sd.rule td.rule z = .ok y → y.isList = false := by
    clear hne
    induction h with
    | nil => exact iff_of_true (List.forall_mem_nil _) (List.forall_mem_nil _)
    | cons hy _ ih =>
      rw [List.forall_mem_cons, List.forall_mem_cons, ih, isMember_eq hy.ne_question,
        Bool.not_eq_true', and_iff_left hy.check_eq]
      refine and_congr_left fun _ => ⟨?_, fun hflat => hflat _ hy.renumber_eq⟩
      intro hflat y' hy'
      rw [hy.renumber_eq] at hy'
      cases hy'
      exact hflat
  have hne' : ys ≠ [] := by
    rintro rfl
    cases h
    exact hne rfl
  rw [check_list_iff, and_iff_right hne', hmembers]
  constructor
  · rintro hall _ ⟨⟩
    exact hall
  · exact fun hflat => hflat xs rfl

/-- **The other field allows a renumbered expression exactly when no member of a list becomes a
list**, and it knows the question mark if that is what the expression is. -/
theorem check_renumber_iff (hs : sd.IsWeekday) (ht : td.IsWeekday) (hc : check sd x = .ok ())
    (h : renumber sd.rule td.rule x = .ok y) :
    check td y = .ok () ↔
      (x = .question → td.rule.allowsQuestion = true) ∧ StaysFlat sd.rule td.rule x := by
  by_cases hm : x.isMember = true
  · obtain ⟨y', hy'⟩ := exists_becomes hs ht hm hc
    rw [hy'.renumber_eq] at h
    cases h
    refine iff_of_true hy'.check_eq ⟨?_, ?_⟩
    · rintro rfl
      cases hm
    · rintro xs rfl
      cases hm
  cases x with
  | question =>
    cases h
    rw [check_question_iff]
    constructor
    · intro hq
      refine ⟨fun _ => hq, ?_⟩
      intro xs hlist
      cases hlist
    · exact fun hq => hq.1 rfl
  | list xs =>
    obtain ⟨hne, hall⟩ := check_list_iff.1 hc
    obtain ⟨ys, hys, hbecome⟩ := exists_renumberAll hs ht hall
    have hren : renumber sd.rule td.rule (.list xs) = .ok (.list ys) := by
      rw [renumber, hys]
      rfl
    rw [hren] at h
    cases h
    rw [check_list_becomes_iff hne hbecome]
    constructor
    · intro hflat
      refine ⟨?_, hflat⟩
      intro hq
      cases hq
    · exact fun hflat => hflat.2
  | _ => exact absurd rfl hm

end Expr

end CronSchedule
