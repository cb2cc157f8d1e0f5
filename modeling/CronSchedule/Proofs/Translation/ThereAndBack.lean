import CronSchedule.Proofs.Translation.ToUnix
import CronSchedule.Proofs.Translation.Wraparound
import Mathlib

/-!
# From Unix to Quartz and back

A range of weekdays in Unix ends with 7 if it ends with Sunday after some other day, and is in
order. In Quartz Sunday is 1, and the range wraps if it ends there. A range that wraps to Sunday is
one that ends with 7 again on the way back, so no member of a list is split and the way back is
open. Seconds and years come in and are dropped again, and so is the question mark.

* `Expr.splits_renumber_quartz`: what Unix weekdays become in Quartz is not split in Unix.
* `Schedule.IsDraft.rangesFit_back`: a draft has the ranges of its source.
* `Timetable.isMatch_thereAndBack`: **the schedule that comes back fires when the first one did.**
-/

namespace CronSchedule

namespace Expr

variable {r r' : FieldRule} {x y : Expr} {a b : Int}

theorem hasStep_rangeOrValue : (rangeOrValue a b).hasStep = false := by
  rw [rangeOrValue]
  split
  · rfl
  · rfl

theorem hasStep_weekdayRange : (weekdayRange r a b).hasStep = false := by
  rw [weekdayRange]
  split
  · rfl
  · split
    · rfl
    · simp only [hasStep, anyHasStep, hasStep_rangeOrValue, Bool.or_false]

mutual

/-- Renumbering brings no step in. -/
theorem hasStep_renumber : ∀ {x y : Expr}, renumber r r' x = .ok y → x.hasStep = false →
    y.hasStep = false
  | .between s e, _, h, _ => by
    obtain ⟨week, -, h⟩ := bind_eq_ok_iff.1 h
    cases week with
    | true =>
      cases h
      rfl
    | false =>
      cases h
      exact hasStep_weekdayRange
  | .list xs, _, h, hx => by
    obtain ⟨ys, hys, h⟩ := bind_eq_ok_iff.1 h
    cases h
    exact anyHasStep_renumberAll hys hx
  | .every _ _, _, _, hx => by cases hx
  | .always, _, h, _ | .question, _, h, _ | .on _ _, _, h, _ | .last none, _, h, _
  | .last (some _), _, h, _ | .lastOffset _, _, h, _ | .nearestWeekday _, _, h, _ => by
    cases h
    rfl

theorem anyHasStep_renumberAll : ∀ {xs ys : List Expr}, renumberAll r r' xs = .ok ys →
    anyHasStep xs = false → anyHasStep ys = false
  | [], _, h, _ => by
    cases h
    rfl
  | x :: xs, _, h, hx => by
    obtain ⟨y, hy, h⟩ := bind_eq_ok_iff.1 h
    obtain ⟨ys, hys, h⟩ := bind_eq_ok_iff.1 h
    cases h
    rw [anyHasStep, Bool.or_eq_false_iff] at hx ⊢
    exact ⟨hasStep_renumber hy hx.1, anyHasStep_renumberAll hys hx.2⟩

end

/-- Quartz counts the weekdays one more than Unix, and Sunday is 1 by either of its numbers. -/
theorem renumberDay_quartz (a : Int) :
    renumberDay unixWeekday.rule quartzWeekday.rule a = a % 7 + 1 := by
  obtain ⟨h1, h2, hday⟩ :=
    renumberDay_spec unixWeekday_isWeekday.consecutive quartzWeekday_isWeekday.consecutive a
  rw [quartzWeekday_isWeekday.consecutive.toIso_eq,
    unixWeekday_isWeekday.consecutive.toIso_eq] at hday
  have hmin : quartzWeekday.rule.min = 1 := rfl
  have hone : unixWeekday.rule.monday = 1 := rfl
  have htwo : quartzWeekday.rule.monday = 2 := rfl
  omega

/-- A range in order from Unix is not split on its way back: in Quartz it is in order, or it ends
with Sunday. -/
theorem rangeSplits_of_le (ha : 0 ≤ a) (hab : a ≤ b) (hb : b ≤ 7) :
    rangeSplits (a % 7 + 1) (b % 7 + 1) = false := by
  rw [Bool.eq_false_iff, rangeSplits, Ne, Bool.and_eq_true, decide_eq_true_eq, decide_eq_true_eq]
  omega

/-- **What Unix weekdays without a step become in Quartz is not split in Unix.** -/
theorem splits_renumber_quartz (hc : check unixWeekday x = .ok ()) (hx : x.hasStep = false)
    (h : renumber unixWeekday.rule quartzWeekday.rule x = .ok y) : y.splits = false := by
  cases x with
  | between s e =>
    obtain ⟨hs, he, hord⟩ := check_between_iff.1 hc
    have hse : s ≤ e := hord.resolve_left nofun
    rw [renumber_between quartzWeekday.rule unixWeekday_isWeekday.consecutive hs he] at h
    split at h
    · cases h
      rfl
    · have hone : ∀ a b, weekdayRange quartzWeekday.rule a b = .between a b :=
        fun a b => if_pos (.inr rfl)
      rw [hone, renumberDay_quartz s, renumberDay_quartz e] at h
      cases h
      exact rangeSplits_of_le hs.1 hse he.2
  | every => cases hx
  | list xs =>
    obtain ⟨ys, -, h⟩ := bind_eq_ok_iff.1 h
    cases h
    rfl
  | last w =>
    cases w with
    | none | some =>
      cases h
      rfl
  | _ =>
    cases h
    rfl

/-- Only a list of Unix weekdays becomes a list in Quartz, if there is no step. -/
theorem exists_list_of_renumber_quartz {ys : List Expr} (hx : x.hasStep = false)
    (h : renumber unixWeekday.rule quartzWeekday.rule x = .ok (.list ys)) :
    ∃ xs, x = .list xs ∧ renumberAll unixWeekday.rule quartzWeekday.rule xs = .ok ys := by
  cases x with
  | list xs =>
    obtain ⟨ys', hys, h⟩ := bind_eq_ok_iff.1 h
    cases h
    exact ⟨xs, rfl, hys⟩
  | between s e => cases isList_renumber_of_wraps rfl rfl h
  | every => cases hx
  | last w =>
    cases w with
    | none | some => cases h
  | _ => cases h

end Expr

open CronSchedule.Expr

namespace Schedule

variable {s q t : Schedule} {target : Definition} {name : FieldName} {e : Expr}

theorem ascends_settleQuestion {D : Definition} (h : e.ascends = true) :
    (settleQuestion D name e).ascends = true := by
  rw [settleQuestion]
  split
  · rfl
  · exact h

/-- **A draft has the ranges of its source**, so they are in order where the source wants it. -/
theorem IsDraft.rangesFit_back (h : s.IsDraft target t) (hS : s.definition ∈ Dialect.all)
    (hT : target ∈ Dialect.all) (hv : s.validate = .ok ()) : t.RangesFit s.definition := by
  intro d hd hw hstrict e he
  have hasc := ascends_of_check hstrict (check_effective hS hv (Definition.field?_of_mem hd))
  have heff := effective_of_expr? he
  by_cases hm : d.name = .dayOfMonth
  · rw [hm] at heff hasc
    obtain ⟨-, -, e', -, -, -, hdom, -⟩ := h.effective_days hS hT
    rw [← heff, hdom]
    rcases (reconcileDays_cases target s (s.effective .dayOfMonth) e').1 with hc | hc
    · rw [hc]
      exact ascends_settleQuestion hasc
    · rw [hc]
      exact ascends_settleQuestion rfl
  · have hmem := mem_fieldNames_of_expr? he
    rw [h.definition_eq] at hmem
    rw [← heff, h.effective_eq hT hm hw (hasField_iff.2 hmem)]
    exact hasc

/-- No member of a list of weekdays that comes from Unix without a step is split on its way back. -/
theorem IsDraft.splits_eq_false (h : s.IsDraft Dialect.quartz q) (hs : s.definition = Dialect.unix)
    (hv : s.validate = .ok ()) (hstep : (s.effective .dayOfWeek).hasStep = false) :
    ∀ es, q.expr? .dayOfWeek = some (.list es) → ∀ e ∈ es, e.splits = false := by
  intro es hes z hz
  have hS : s.definition ∈ Dialect.all := hs ▸ Dialect.unix_mem_all
  have hfield : s.definition.field? .dayOfWeek = some unixWeekday := by
    rw [hs]
    rfl
  obtain ⟨sd, td, e, hsd, htd, hren, -, hdow⟩ := h.effective_days hS Dialect.quartz_mem_all
  rw [hfield] at hsd
  cases hsd
  cases htd
  rw [effective_of_expr? hes] at hdow
  have he : e = .list es := by
    have hkeep : ∀ x, settleQuestion Dialect.quartz .dayOfWeek x = x := by
      intro x
      exact if_neg (by rw [show knowsQuestion Dialect.quartz .dayOfWeek = true from rfl]; simp)
    rcases (reconcileDays_cases Dialect.quartz s (s.effective .dayOfMonth) e).2 with hc | hc
    · rw [← hdow, hkeep] at hc
      exact hc.symm
    · rw [← hdow, hkeep] at hc
      cases hc
  rw [he] at hren
  obtain ⟨xs, hxs, hall⟩ := exists_list_of_renumber_quartz hstep hren
  have hc := check_effective hS hv hfield
  rw [hxs] at hc hstep
  obtain ⟨x, hx, hxz⟩ := exists_of_mem_renumberAll hall hz
  exact splits_renumber_quartz ((check_list_iff.1 hc).2 x hx).2 (hasStep_of_mem hstep hx) hxz

/-- **The way back loses nothing either.** -/
theorem Lossless.back (hs : s.Lossless target) (hS : s.definition ∈ Dialect.all)
    (hT : target ∈ Dialect.all) (h : translate s.definition target s = .ok t) :
    t.Lossless s.definition := by
  -- what the source does not have comes back as what a missing field stands for
  have hmiss : ∀ {name : FieldName} {e : Expr}, absentExpr name = e →
      name ∈ [FieldName.second, .minute, .hour, .month, .year] →
      s.definition.hasField name = false → t.expr? name = none ∨ t.expr? name = some e := by
    intro name e ha hname hno
    have hfine : name ≠ .dayOfMonth ∧ name ≠ .dayOfWeek := by
      constructor
      · rintro rfl
        revert hname
        decide
      · rintro rfl
        revert hname
        decide
    have hkeep := effective_translate hT h hfine.1 hfine.2 (hs.effective_eq_absentExpr hT hname)
    rw [effective_of_not_hasField hno, ha] at hkeep
    exact expr?_of_effective hkeep
  obtain ⟨hdom, sd, td, e, -, -, hren, hdow⟩ := days_translate hS hT h fun _ _ => hs.oneDay
  refine ⟨hmiss rfl (by decide), hmiss rfl (by decide), ?_, ?_⟩
  · rw [isUnspecified_eq t rfl, isUnspecified_eq t rfl, hdom.isUnspecified_eq,
      hdow.isUnspecified_eq, isUnspecified_renumber hren, ← isUnspecified_eq s rfl,
      ← isUnspecified_eq s rfl]
    exact hs.oneDay
  · intro e' he'
    rw [effective_of_expr? he'] at hdow
    rcases hdow with rfl | ⟨hany, -⟩
    · exact hasStep_renumber hren (hasStep_effective hs.noStep)
    · cases e' with
      | always | question => rfl
      | _ => cases hany

/-- A Unix schedule without weekday steps is translated to Quartz and back. -/
theorem exists_translate_back (hs : s.definition = Dialect.unix) (hv : s.validate = .ok ())
    (hstep : ∀ e, s.expr? .dayOfWeek = some e → e.hasStep = false) :
    ∃ q, translate Dialect.unix Dialect.quartz s = .ok q ∧ q.definition = Dialect.quartz ∧
      q.validate = .ok () ∧
      ∃ t, translate Dialect.quartz Dialect.unix q = .ok t ∧ t.definition = Dialect.unix ∧
        t.validate = .ok () := by
  have hS : s.definition ∈ Dialect.all := hs ▸ Dialect.unix_mem_all
  have hQ := Dialect.quartz_mem_all
  obtain ⟨q, hq⟩ := exists_draft hS hQ hv
  obtain ⟨hvq, -⟩ := hq.validate_of_wraps hS List.mem_cons_self hv
  have hqd := hq.definition_eq
  have hqD : q.definition ∈ Dialect.all := hqd.symm ▸ hQ
  obtain ⟨t, ht⟩ := exists_draft hqD Dialect.unix_mem_all hvq
  have hfit := hs ▸ hq.rangesFit_back hS hQ hv
  have hwhole := hq.splits_eq_false hs hv (hasStep_effective hstep)
  have hvt : t.validate = .ok () := by
    rw [ht.validate_unix_iff hqD hvq hfit, ht.check_dayOfWeek_iff hqd hvq]
    exact hwhole
  have htrans := hq.translate_eq_ok_iff.2 ⟨rfl, hvq⟩
  have hback := ht.translate_eq_ok_iff.2 ⟨rfl, hvt⟩
  rw [hs] at htrans
  rw [hqd] at hback
  exact ⟨q, htrans, hqd, hvq, t, hback, ht.definition_eq, hvt⟩

end Schedule

namespace Timetable

open Schedule LocalTime

/-- **From Unix to Quartz and back.** A valid Unix schedule without weekday steps, and with at most
one of its day fields restricted, is translated to a valid Quartz schedule and back to a valid Unix
schedule, and at one offset for all time, as in UTC, a moment is a fire time of what comes back if
and only if it is one of the schedule. -/
theorem isMatch_thereAndBack {s : Schedule} (hs : s.definition = Dialect.unix)
    (hv : s.validate = .ok ()) (hstep : ∀ e, s.expr? .dayOfWeek = some e → e.hasStep = false)
    (hone : s.isUnspecified .dayOfMonth = true ∨ s.isUnspecified .dayOfWeek = true)
    {maxYears : Int} (hn : 1 ≤ maxYears) :
    ∃ q s', translate Dialect.unix Dialect.quartz s = .ok q ∧ q.definition = Dialect.quartz ∧
      q.validate = .ok () ∧ translate Dialect.quartz Dialect.unix q = .ok s' ∧
      s'.definition = Dialect.unix ∧ s'.validate = .ok () ∧
      ∃ t t', of? s maxYears = .ok t ∧ of? s' maxYears = .ok t' ∧
        ∀ m : Moment, ∀ offset, m.zone = Zone.fixed offset → WithinDay offset →
          2 ≤ (date m.time).year → (date m.time).year ≤ 9998 →
          ∃ b, t.isMatch m = .ok b ∧ t'.isMatch m = .ok b := by
  have hU := Dialect.unix_mem_all
  have hQ := Dialect.quartz_mem_all
  obtain ⟨q, hq, hqd, hvq, s', hs', hsd', hvs'⟩ := exists_translate_back hs hv hstep
  have hthere : s.Lossless Dialect.quartz := ⟨nofun, nofun, hone, hstep⟩
  have hback := hthere.back (hs ▸ hU) hQ (hs ▸ hq)
  obtain ⟨t, ht, hts, -, hsound⟩ := exists_of_validate (hs ▸ hU) hv hn
  obtain ⟨u, -, hu, -, -⟩ := exists_of_validate (hqd ▸ hQ) hvq hn
  obtain ⟨t', ht', hts', -, -⟩ := exists_of_validate (hsd' ▸ hU) hvs' hn
  have hagree : t.Agree u := by
    subst hts hu
    exact agree_translate (hs ▸ hU) hQ hv (hs ▸ hq) hthere
  have hagree' : u.Agree t' := by
    subst hu hts'
    exact agree_translate (hqd ▸ hQ) hU hvq (hqd ▸ hs') (hs ▸ hback)
  have hall := hagree.trans hagree'
  subst hts hts'
  exact ⟨q, t'.schedule, hq, hqd, hvq, hs', hsd', hvs', t, t', ht, ht',
    isMatch_congr (hs ▸ hU) (hsd' ▸ hU) ht ht' hsound hall.effective hall.day⟩

/-- At six on Wednesday and from Friday to Sunday. -/
def longWeekend : Schedule :=
  .ofAssignment Dialect.unix fun
    | .minute => some (.value 0)
    | .hour => some (.value 6)
    | .dayOfMonth | .month => some .always
    | .dayOfWeek => some (.list [.value 3, .between 5 7])
    | _ => none

/-- What `longWeekend` fires at. -/
def longWeekendTable : Timetable := ⟨longWeekend, defaultYears, [0], [0], [6], intsBetween 1 12⟩

/-- A Sunday at six in UTC. -/
def sundaySix : Moment := ⟨Zone.fixed 0, 1700373600000000, false⟩

/-- Sunday is the last day of the range in Unix and the first day of the week in Quartz. -/
theorem isMatch_thereAndBack_longWeekend :
    longWeekend.validate = .ok () ∧
      ∃ q s', translate Dialect.unix Dialect.quartz longWeekend = .ok q ∧
        q.definition = Dialect.quartz ∧ q.validate = .ok () ∧
        translate Dialect.quartz Dialect.unix q = .ok s' ∧ s'.definition = Dialect.unix ∧
        s'.validate = .ok () ∧
        ∃ t t', of? longWeekend defaultYears = .ok t ∧ of? s' defaultYears = .ok t' ∧
          t.isMatch sundaySix = .ok true ∧ t'.isMatch sundaySix = .ok true := by
  have hv : longWeekend.validate = .ok () := by rfl
  have hstep : ∀ e, longWeekend.expr? .dayOfWeek = some e → e.hasStep = false := by
    intro e he
    cases he
    rfl
  obtain ⟨q, s', hq, hqd, hvq, hs', hsd, hvs, t, t', ht, ht', hm⟩ :=
    isMatch_thereAndBack rfl hv hstep (.inl rfl) (by decide : 1 ≤ defaultYears)
  have htable : of? longWeekend defaultYears = .ok longWeekendTable := by rfl
  obtain rfl := Except.ok.inj (htable.symm.trans ht)
  have hfires : longWeekendTable.isMatch sundaySix = .ok true := by cbv
  have hsame := hm sundaySix 0 rfl (by decide) (by decide) (by decide)
  exact ⟨hv, q, s', hq, hqd, hvq, hs', hsd, hvs, longWeekendTable, t', ht, ht', hfires,
    eq_ok_of_same hsame hfires⟩

end Timetable

end CronSchedule
