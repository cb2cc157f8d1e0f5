import CronSchedule.Dialect
import CronSchedule.Expr.Admit
import CronSchedule.Expr.Check

/-!
# What a field allows, case by case, and what follows for its questions

* `Expr.check_list_iff` and its siblings: for each form of expression, exactly when a
  field allows it.
* `Expr.admits_total`, `Expr.admitsMonthDay_total`, `Expr.admitsWeekday_total`: **an
  expression that its field allows answers every question**; no step has period zero
  and no working day is sought before the first of a month.
* `Expr.admits_of_lt`: where ranges do not wrap, an expression that its field allows admits all
  numbers below the field or none of them.
* `Dialect.rule_bounds`: outside the day of the week the four dialects count alike.
-/

namespace CronSchedule

/-! ### Results -/

theorem bind_eq_ok_iff {ε α β : Type} {x : Except ε α} {f : α → Except ε β} {b : β} :
    (x >>= f) = .ok b ↔ ∃ a, x = .ok a ∧ f a = .ok b := by
  cases x with
  | error e => simp [bind, Except.bind]
  | ok a => simp [bind, Except.bind]

/-- Two steps, of which the first has nothing to give to the second. -/
theorem seq_eq_ok_iff {ε β : Type} {x : Except ε Unit} {y : Except ε β} {b : β} :
    (x >>= fun _ => y) = .ok b ↔ x = .ok () ∧ y = .ok b := by
  cases x <;> simp [bind, Except.bind]

theorem mapError_eq_ok_iff {ε ε' α : Type} {x : Except ε α} {g : ε → ε'} {a : α} :
    x.mapError g = .ok a ↔ x = .ok a := by
  cases x with
  | error e => exact ⟨nofun, nofun⟩
  | ok b => exact ⟨fun h => by cases h; rfl, fun h => by cases h; rfl⟩

/-- Of two results that are one, the second is what the first is known to be. -/
theorem eq_ok_of_same {ε α : Type} {x y : Except ε α} {a : α} (h : ∃ b, x = .ok b ∧ y = .ok b)
    (hx : x = .ok a) : y = .ok a := by
  obtain ⟨b, hb, hb'⟩ := h
  rw [hx] at hb
  cases hb
  exact hb'

/-- Whether the answer to a question is yes. -/
def isYes {ε : Type} : Except ε Bool → Bool
  | .ok b => b
  | .error _ => false

theorem eq_ok_isYes {ε : Type} {x : Except ε Bool} (h : ∃ b, x = .ok b) : x = .ok (isYes x) := by
  obtain ⟨b, rfl⟩ := h
  rfl

theorem isYes_iff {ε : Type} {x : Except ε Bool} : isYes x = true ↔ x = .ok true := by
  cases x with
  | error e => exact iff_of_false nofun nofun
  | ok b => rw [isYes, Except.ok.injEq]

/-- A test over a list that never fails on a member has an answer. -/
theorem anyM_total {ε α : Type} {test : α → Except ε Bool} {l : List α}
    (h : ∀ a ∈ l, ∃ b, test a = .ok b) : ∃ b, l.anyM test = .ok b := by
  induction l with
  | nil => exact ⟨false, rfl⟩
  | cons a l ih =>
    obtain ⟨b, hb⟩ := h a List.mem_cons_self
    cases b with
    | true => exact ⟨true, by simp [hb, bind, Except.bind, pure, Except.pure]⟩
    | false =>
      obtain ⟨b, hl⟩ := ih fun x hx => h x (List.mem_cons_of_mem a hx)
      exact ⟨b, by simp [hb, bind, Except.bind, hl]⟩

namespace Expr

variable {d : FieldDefinition}

/-! ### What a field allows -/

-- the equations of the check are for the lemmas of this module only
attribute [local simp] check checkMembers

@[simp] theorem check_question_iff :
    check d .question = .ok () ↔ d.rule.allowsQuestion = true := by
  rw [check, requireSign_eq_ok_iff]

@[simp] theorem check_value_iff {v : Int} :
    check d (.on v none) = .ok () ↔ d.rule.Contains v := by
  rw [check, requireInRange_eq_ok_iff]

@[simp] theorem check_nth_iff {v n : Int} :
    check d (.on v (some n)) = .ok () ↔
      d.rule.Contains v ∧ d.rule.allowsNth = true ∧ 1 ≤ n ∧ n ≤ 5 := by
  simp only [check, seq_eq_ok_iff, requireInRange_eq_ok_iff, requireSign_eq_ok_iff,
    require_eq_ok_iff, Bool.and_eq_true, decide_eq_true_eq]

@[simp] theorem check_between_iff {s e : Int} :
    check d (.between s e) = .ok () ↔
      d.rule.Contains s ∧ d.rule.Contains e ∧ (d.rule.strict = false ∨ s ≤ e) := by
  simp [check, seq_eq_ok_iff, requireInRange_eq_ok_iff, require_eq_ok_iff]

@[simp] theorem check_every_iff {base : Expr} {p : Int} :
    check d (.every base p) = .ok () ↔
      base.isStepBase = true ∧ 1 ≤ p ∧ check d base = .ok () := by
  simp [check, seq_eq_ok_iff, require_eq_ok_iff]

theorem checkMembers_iff {whole : Expr} {es : List Expr} :
    checkMembers d whole es = .ok () ↔ ∀ e ∈ es, e.isMember = true ∧ check d e = .ok () := by
  induction es with
  | nil => simp [checkMembers]
  | cons e es ih => simp [checkMembers, seq_eq_ok_iff, require_eq_ok_iff, ih, and_assoc]

@[simp] theorem check_list_iff {es : List Expr} :
    check d (.list es) = .ok () ↔
      es ≠ [] ∧ ∀ e ∈ es, e.isMember = true ∧ check d e = .ok () := by
  simp [check, seq_eq_ok_iff, require_eq_ok_iff, checkMembers_iff]

@[simp] theorem check_last_iff : check d (.last none) = .ok () ↔ d.rule.allowsLast = true := by
  rw [check, requireSign_eq_ok_iff]

@[simp] theorem check_lastDay_iff {w : Int} :
    check d (.last (some w)) = .ok () ↔
      d.rule.allowsLast = true ∧ d.name = .dayOfWeek ∧ d.rule.Contains w := by
  simp [check, seq_eq_ok_iff, requireSign_eq_ok_iff, require_eq_ok_iff, requireInRange_eq_ok_iff]

@[simp] theorem check_lastOffset_iff {n : Int} :
    check d (.lastOffset n) = .ok () ↔
      d.rule.allowsLast = true ∧ d.name = .dayOfMonth ∧ 0 ≤ n ∧ n ≤ d.rule.max - d.rule.min := by
  simp [check, seq_eq_ok_iff, requireSign_eq_ok_iff, require_eq_ok_iff]

@[simp] theorem check_lastWorkday_iff :
    check d (.nearestWeekday none) = .ok () ↔ d.rule.allowsLastWeekday = true := by
  rw [check, requireSign_eq_ok_iff]

@[simp] theorem check_workday_iff {day : Int} :
    check d (.nearestWeekday (some day)) = .ok () ↔
      d.rule.allowsWeekday = true ∧ d.rule.Contains day := by
  simp [check, seq_eq_ok_iff, requireSign_eq_ok_iff, requireInRange_eq_ok_iff]

/-- A member of an expression that the field allows is one that the field allows. -/
theorem check_of_mem_members {e x : Expr} (hc : check d e = .ok ()) (hx : x ∈ e.members) :
    check d x = .ok () := by
  cases e with
  | list es => exact ((check_list_iff.1 hc).2 x hx).2
  | _ =>
    cases List.mem_singleton.1 hx
    exact hc

/-- The base of a step that the field allows has a range that starts with a number of the field. -/
theorem exists_stepRange {e : Expr} (hle : d.rule.min ≤ d.rule.max) (he : e.isStepBase = true)
    (hc : check d e = .ok ()) :
    ∃ first final, stepRange? d.rule.min d.rule.max e = some (first, final) ∧
      d.rule.Contains first := by
  cases e with
  | always => exact ⟨_, _, rfl, Int.le_refl _, hle⟩
  | on v n =>
    cases n with
    | none => exact ⟨_, _, rfl, check_value_iff.1 hc⟩
    | some n => cases he
  | between first final => exact ⟨_, _, rfl, (check_between_iff.1 hc).1⟩
  | _ => cases he

/-! ### Questions have answers -/

theorem anyAdmits_eq (lo hi v : Int) (es : List Expr) :
    anyAdmits lo hi v es = es.anyM (admits lo hi v) := by
  induction es with
  | nil => rfl
  | cons e es ih =>
    rw [anyAdmits, List.anyM, ih]
    congr 1
    funext b
    cases b <;> rfl

theorem anyAdmitsMonthDay_eq (r : FieldRule) (day : Date) (es : List Expr) :
    anyAdmitsMonthDay r day es = es.anyM (admitsMonthDay r day) := by
  induction es with
  | nil => rfl
  | cons e es ih =>
    rw [anyAdmitsMonthDay, List.anyM, ih]
    congr 1
    funext b
    cases b <;> rfl

theorem anyAdmitsWeekday_eq (r : FieldRule) (day : Date) (es : List Expr) :
    anyAdmitsWeekday r day es = es.anyM (admitsWeekday r day) := by
  induction es with
  | nil => rfl
  | cons e es ih =>
    rw [anyAdmitsWeekday, List.anyM, ih]
    congr 1
    funext b
    cases b <;> rfl

theorem onStep_of_pos {p : Int} (h : 1 ≤ p) (n : Int) : onStep p n = .ok (n % p == 0) := by
  rw [onStep, if_neg (by omega)]

theorem stepAdmits_total {p : Int} (h : 1 ≤ p) (lo hi : Int) (base : Expr) (v : Int) :
    ∃ b, stepAdmits lo hi base p v = .ok b := by
  unfold stepAdmits
  cases stepRange? lo hi base with
  | none => exact ⟨false, rfl⟩
  | some q =>
    obtain ⟨s, e⟩ := q
    simp only [onStep_of_pos h]
    split
    · split
      · exact ⟨_, rfl⟩
      · exact ⟨false, rfl⟩
    · split
      · exact ⟨_, rfl⟩
      · split
        · exact ⟨_, rfl⟩
        · exact ⟨false, rfl⟩

theorem admits_total_of_member (lo hi v : Int) {e : Expr} (hm : e.isMember = true)
    (h : check d e = .ok ()) : ∃ b, admits lo hi v e = .ok b := by
  cases e with
  | on w n => cases n <;> exact ⟨_, rfl⟩
  | every base p =>
    rw [check_every_iff] at h
    exact stepAdmits_total h.2.1 lo hi base v
  | list es => simp [isMember] at hm
  | always | question | between | last | lastOffset | nearestWeekday => exact ⟨_, rfl⟩

/-- **An allowed expression says of every number whether it admits it.** -/
theorem admits_total (lo hi v : Int) {e : Expr} (h : check d e = .ok ()) :
    ∃ b, admits lo hi v e = .ok b := by
  cases e with
  | list es =>
    rw [check_list_iff] at h
    rw [admits, anyAdmits_eq]
    exact anyM_total fun e he => admits_total_of_member lo hi v (h.2 e he).1 (h.2 e he).2
  | question => exact ⟨true, rfl⟩
  | _ => exact admits_total_of_member lo hi v rfl h

theorem isNearestWorkday_total {day : Int} (h : 1 ≤ day) (date : Date) :
    ∃ b, isNearestWorkday date day = .ok b := by
  unfold isNearestWorkday
  split
  · exact ⟨false, rfl⟩
  · rw [if_neg (by omega)]
    exact ⟨_, rfl⟩

theorem admitsMonthDay_total_of_member {r : FieldRule} (hr : 1 ≤ d.rule.min) (date : Date)
    {e : Expr} (hm : e.isMember = true) (h : check d e = .ok ()) :
    ∃ b, admitsMonthDay r date e = .ok b := by
  cases e with
  | last w => cases w <;> exact ⟨_, rfl⟩
  | lastOffset n => exact ⟨_, rfl⟩
  | nearestWeekday day =>
    cases day with
    | none => exact ⟨_, rfl⟩
    | some day =>
      rw [check_workday_iff] at h
      exact isNearestWorkday_total (by have := h.2.1; omega) date
  | list es => simp [isMember] at hm
  | always | question | on | between | every =>
    exact admits_total_of_member r.min r.max date.day hm h

/-- **An allowed expression of the day of the month says of every date whether it admits
it**, where the field counts from one. -/
theorem admitsMonthDay_total {r : FieldRule} (hr : 1 ≤ d.rule.min) (date : Date) {e : Expr}
    (h : check d e = .ok ()) : ∃ b, admitsMonthDay r date e = .ok b := by
  cases e with
  | list es =>
    rw [check_list_iff] at h
    rw [admitsMonthDay, anyAdmitsMonthDay_eq]
    exact anyM_total fun e he => admitsMonthDay_total_of_member hr date (h.2 e he).1 (h.2 e he).2
  | question => exact ⟨true, rfl⟩
  | _ => exact admitsMonthDay_total_of_member hr date rfl h

theorem admitsWeekday_total_of_member (r : FieldRule) (date : Date) {e : Expr}
    (hm : e.isMember = true) (h : check d e = .ok ()) : ∃ b, admitsWeekday r date e = .ok b := by
  cases e with
  | last w => cases w <;> exact ⟨_, rfl⟩
  | on w n =>
    cases n with
    | none => exact anyM_total fun v _ => admits_total_of_member r.min r.max v hm h
    | some n => exact ⟨_, rfl⟩
  | list es => simp [isMember] at hm
  | always | question | between | every | lastOffset | nearestWeekday =>
    exact anyM_total fun v _ => admits_total_of_member r.min r.max v hm h

/-- **An allowed expression of the day of the week says of every date whether it admits
it.** -/
theorem admitsWeekday_total (r : FieldRule) (date : Date) {e : Expr} (h : check d e = .ok ()) :
    ∃ b, admitsWeekday r date e = .ok b := by
  cases e with
  | list es =>
    rw [check_list_iff] at h
    rw [admitsWeekday, anyAdmitsWeekday_eq]
    exact anyM_total fun e he => admitsWeekday_total_of_member r date (h.2 e he).1 (h.2 e he).2
  | question => exact anyM_total fun v _ => ⟨true, rfl⟩
  | _ => exact admitsWeekday_total_of_member r date rfl h

/-! ### Numbers below a field -/

section Below

variable {v v' : Int} {e : Expr} (hstrict : d.rule.strict = true)
  (hle : d.rule.min ≤ d.rule.max) (hv : v < d.rule.min) (hv' : v' < d.rule.min)

include hstrict hle hv

/-- The range of a step lies within the field and does not wrap. -/
theorem stepAdmits_of_lt {base : Expr} (hc : check d base = .ok ()) (p : Int) :
    stepAdmits d.rule.min d.rule.max base p v = .ok false := by
  have hrange : ∀ s e, stepRange? d.rule.min d.rule.max base = some (s, e) →
      d.rule.min ≤ s ∧ s ≤ e := by
    intro s e hse
    cases base with
    | always =>
      obtain ⟨rfl, rfl⟩ := Prod.mk.inj (Option.some.inj hse)
      exact ⟨Int.le_refl _, hle⟩
    | on w nth =>
      obtain ⟨rfl, rfl⟩ := Prod.mk.inj (Option.some.inj hse)
      cases nth with
      | none => exact check_value_iff.1 hc
      | some n => exact (check_nth_iff.1 hc).1
    | between a b =>
      obtain ⟨rfl, rfl⟩ := Prod.mk.inj (Option.some.inj hse)
      obtain ⟨hcontains, -, hordered⟩ := check_between_iff.1 hc
      exact ⟨hcontains.1, hordered.resolve_left (by simp [hstrict])⟩
    | question | every | list | last | lastOffset | nearestWeekday => cases hse
  rw [stepAdmits]
  cases hse : stepRange? d.rule.min d.rule.max base with
  | none => rfl
  | some q =>
    obtain ⟨s, e⟩ := q
    have h := hrange s e hse
    simp only
    rw [if_pos h.2, if_neg (by omega)]

include hv'

theorem admits_of_lt_of_member (hm : e.isMember = true) (hc : check d e = .ok ()) :
    admits d.rule.min d.rule.max v e = admits d.rule.min d.rule.max v' e := by
  cases e with
  | on w nth =>
    cases nth with
    | none =>
      have hcontains := check_value_iff.1 hc
      unfold FieldRule.Contains at hcontains
      have hne : (w == v) = false := beq_eq_false_iff_ne.2 (by omega)
      have hne' : (w == v') = false := beq_eq_false_iff_ne.2 (by omega)
      rw [admits, admits, hne, hne']
    | some n => rfl
  | between a b =>
    obtain ⟨hcontains, -, hwraps⟩ := check_between_iff.1 hc
    have hordered := hwraps.resolve_left (by simp [hstrict])
    have hout : ∀ u < d.rule.min, (decide (a ≤ u) && decide (u ≤ b)) = false := by
      intro u hu
      have hlt : ¬ a ≤ u := by
        have := hcontains.1
        omega
      rw [decide_eq_false hlt, Bool.false_and]
    rw [admits, admits, if_pos hordered, if_pos hordered, hout v hv, hout v' hv']
  | every base p =>
    have hbase := (check_every_iff.1 hc).2.2
    rw [admits, admits, stepAdmits_of_lt hstrict hle hv hbase,
      stepAdmits_of_lt hstrict hle hv' hbase]
  | list es => cases hm
  | always | question | last | lastOffset | nearestWeekday => rfl

/-- **Where ranges do not wrap an allowed expression admits all numbers below its field or none of
them.** -/
theorem admits_of_lt (hc : check d e = .ok ()) :
    admits d.rule.min d.rule.max v e = admits d.rule.min d.rule.max v' e := by
  cases e with
  | list es =>
    have hmembers := (check_list_iff.1 hc).2
    rw [admits, admits, anyAdmits_eq, anyAdmits_eq]
    clear hc
    induction es with
    | nil => rfl
    | cons e es ih =>
      obtain ⟨⟨hm, hce⟩, hrest⟩ := List.forall_mem_cons.1 hmembers
      rw [List.anyM, List.anyM, admits_of_lt_of_member hstrict hle hv hv' hm hce, ih hrest]
  | question => rfl
  | _ => exact admits_of_lt_of_member hstrict hle hv hv' rfl hc

end Below

end Expr

/-! ### The four dialects -/

namespace Dialect

/-- The four dialects. -/
def all : List Definition := [unix, cron4j, quartz, spring]

theorem unix_mem_all : unix ∈ all := List.mem_cons_self

theorem quartz_mem_all : quartz ∈ all := by simp [all]

theorem spring_mem_all : spring ∈ all := by simp [all]

/-- The constraints of the four dialects. -/
theorem mem_constraints : ∀ D ∈ all, ∀ c ∈ D.constraints, c = .oneDayField ∨ c = .questionMark := by
  simp [all, unix, cron4j, quartz, spring]

/-- The least and the greatest number of a field, where the dialects agree on them. -/
def bounds? : FieldName → Option (Int × Int)
  | .second | .minute => some (0, 59)
  | .hour => some (0, 23)
  | .dayOfMonth => some (1, 31)
  | .month => some (1, 12)
  | .year => some (1970, 2099)
  | .dayOfWeek | .dayOfYear => none

/-- Outside the day of the week the dialects count alike. -/
theorem rule_bounds : ∀ D ∈ all, ∀ d ∈ D.fields, ∀ b ∈ bounds? d.name,
    d.rule.min = b.1 ∧ d.rule.max = b.2 := by
  decide

/-- Ranges of years do not wrap. -/
theorem strict_year : ∀ D ∈ all, ∀ d ∈ D.fields, d.name = .year → d.rule.strict = true := by
  decide

/-- The fields that every schedule of a dialect has. -/
theorem exists_required_field : ∀ D ∈ all,
    ∀ name ∈ [FieldName.minute, .hour, .dayOfMonth, .month, .dayOfWeek],
      ∃ d, D.field? name = some d ∧ d.optional = false := by
  have h : ∀ D ∈ all, ∀ name ∈ [FieldName.minute, .hour, .dayOfMonth, .month, .dayOfWeek],
      (D.field? name).any (!·.optional) = true := by decide
  intro D hD name hn
  obtain ⟨d, hd, ho⟩ := (Option.any_eq_true _ _).1 (h D hD name hn)
  exact ⟨d, hd, by simpa using ho⟩

end Dialect

end CronSchedule
