import CronSchedule.Proofs.Calendar
import CronSchedule.Proofs.Zone.Change
import CronSchedule.Proofs.Zone.Posix
import CronSchedule.Zone.Moment

/-!
# The moments that a clock time stands for

In a zone whose changes lie more than two days apart, a moment is known by its instant.

* `Zone.Spaced.offset_momentAt`: the moment that the clocks show at an instant has the offset
  of that instant.
* `Zone.Spaced.instantsOf_eq`: away from the ends of the calendar the moments of a clock time
  are found, and they are `Zone.resolve`.
* `Zone.Spaced.instantsOf_movesBack`: **where the clock is only ever moved back, a clock time
  stands for the instants of its two readings.**
-/

namespace CronSchedule

open LocalTime

/-- A clock time days away from the ends of the calendar, so that its instants can be shown. -/
def Inner (clock : Int) : Prop := -62135000000 ≤ clock ∧ clock ≤ 253402000000

instance (clock : Int) : Decidable (Inner clock) := inferInstanceAs (Decidable (_ ∧ _))

theorem seconds_mul (u : Int) : seconds (u * 1000000) = u := by
  unfold seconds
  omega

theorem seconds_mul_of_micros {t : Int} (h : micros t = 0) : seconds t * 1000000 = t := by
  unfold micros at h
  unfold seconds
  omega

theorem inner_of_year {t : Int} (h : 2 ≤ (date t).year) (h' : (date t).year ≤ 9998) :
    Inner (seconds t) := by
  have hl := le_of_two_le_year h
  have hu := lt_of_year_le h'
  unfold Inner seconds
  omega

theorem inRange_mul_iff {u : Int} :
    InRange (u * 1000000) ↔ -62135596800 ≤ u ∧ u ≤ 253402300799 := by
  unfold InRange
  rw [first_eq, last_eq]
  omega

theorem Moment.inRange_eq_ok {t : Int} (h : InRange t) : Moment.inRange t = .ok t := by
  rw [Moment.inRange, if_pos h]

namespace Zone

/-- What the clocks show at an instant. -/
def clockAt (z : Zone) (u : Int) : Int := u + z.offsetAt u

/-- The instant of a clock time read with a fold. -/
def instantOf (z : Zone) (clock : Int) (second : Bool) : Int := clock - z.localOffset clock second

/-- The moment that the clocks show at an instant. -/
def momentAt (z : Zone) (u : Int) : Moment := ⟨z, z.clockAt u * 1000000, z.inSecondPass u⟩

/-- The moments of a clock time, where both readings can be shown. -/
def resolve (z : Zone) (clock : Int) : List Moment :=
  if z.clockAt (z.instantOf clock false) = clock ∧
      z.instantOf clock false ≠ z.instantOf clock true then
    [z.momentAt (z.instantOf clock false), z.momentAt (z.instantOf clock true)]
  else [z.momentAt (z.instantOf clock false)]

/-- An instant whose UTC time and whose clock time are times of the calendar. -/
def Shown (z : Zone) (u : Int) : Prop := InRange (u * 1000000) ∧ InRange (z.clockAt u * 1000000)

instance (z : Zone) (u : Int) : Decidable (z.Shown u) := inferInstanceAs (Decidable (_ ∧ _))

@[simp] theorem zone_momentAt (z : Zone) (u : Int) : (z.momentAt u).zone = z := rfl

@[simp] theorem time_momentAt (z : Zone) (u : Int) : (z.momentAt u).time = z.clockAt u * 1000000 :=
  rfl

variable {z : Zone} {P : Change → Prop} {c : Change} {clock : Int}

/-! ### Readings -/

theorem ChangeNear.withinDay_localOffset (h : z.ChangeNear clock c) (second : Bool) :
    WithinDay (z.localOffset clock second) := by
  rw [h.localOffset, Change.localOffset]
  by_cases hs : c.start + (if second then min c.before c.after else max c.before c.after) ≤ clock
  · rw [if_pos hs]
    exact h.after
  · rw [if_neg hs]
    exact h.before

theorem Spaced.instantOf_near (hz : z.Spaced P) (clock : Int) (second : Bool) :
    clock - 86400 < z.instantOf clock second ∧ z.instantOf clock second < clock + 86400 := by
  obtain ⟨c, hc⟩ := hz.exists_changeNear clock
  have := hc.withinDay_localOffset second
  unfold WithinDay at this
  unfold instantOf
  omega

theorem Spaced.clockAt_near (hz : z.Spaced P) (u : Int) :
    u - 86400 < z.clockAt u ∧ z.clockAt u < u + 86400 := by
  have := hz.withinDay_offsetAt u
  unfold WithinDay at this
  unfold clockAt
  omega

/-- What the clocks show at an instant, read with the pass that they are in, is that instant. -/
theorem Spaced.instantOf_clockAt (hz : z.Spaced P) (u : Int) :
    z.instantOf (z.clockAt u) (z.inSecondPass u) = u := by
  obtain ⟨c, hc⟩ := hz.exists_changeNear (z.clockAt u)
  have hu := hz.clockAt_near u
  have ho := hc.offsetAt u (by omega) (by omega)
  unfold instantOf
  rw [hc.localOffset, hc.inSecondPass u rfl, Change.localOffset]
  unfold clockAt
  rw [ho, Change.inSecondPass, Change.offsetAt]
  by_cases hs : c.start ≤ u
  · by_cases hp : u - c.start < c.before - c.after
    · simp only [hs, hp, decide_true, Bool.and_self, if_true]
      rw [if_pos (by omega)]
      omega
    · simp only [hs, hp, decide_true, decide_false, Bool.and_false, if_true, Bool.false_eq_true,
        if_false]
      rw [if_pos (by omega)]
      omega
  · simp only [hs, decide_false, Bool.false_and, Bool.false_eq_true, if_false]
    rw [if_neg (by omega)]
    omega

/-- **An instant at which the clocks show a time is the instant of one of its readings.** -/
theorem Spaced.eq_instantOf (hz : z.Spaced P) {u : Int} (h : z.clockAt u = clock) :
    u = z.instantOf clock false ∨ u = z.instantOf clock true := by
  have hu := hz.instantOf_clockAt u
  rw [h] at hu
  cases hp : z.inSecondPass u with
  | false => exact .inl (by rw [hp] at hu; exact hu.symm)
  | true => exact .inr (by rw [hp] at hu; exact hu.symm)

theorem Spaced.offset_momentAt (hz : z.Spaced P) (u : Int) :
    (z.momentAt u).offset = z.offsetAt u := by
  have hu := hz.instantOf_clockAt u
  unfold instantOf clockAt at hu
  rw [Moment.offset, zone_momentAt, time_momentAt, seconds_mul, clockAt]
  show z.localOffset _ (z.inSecondPass u) = _
  omega

theorem Spaced.instant_momentAt (hz : z.Spaced P) (u : Int) :
    (z.momentAt u).instant = u * 1000000 := by
  rw [Moment.instant, hz.offset_momentAt, time_momentAt, clockAt]
  omega

theorem Spaced.posix_momentAt (hz : z.Spaced P) {u : Int} (hu : u.natAbs < 2 ^ 53) :
    (z.momentAt u).posix = u * Posix.unitsPerSecond := by
  rw [Moment.posix, hz.instant_momentAt, Posix.ofMicros_whole hu]

/-! ### Moments of a clock time -/

theorem ofInstant_eq (u : Int) :
    Moment.ofInstant z (u * 1000000) =
      if z.Shown u then .ok (z.momentAt u) else .error .dateRange := by
  have hm : u * 1000000 + z.offsetAt u * 1000000 = z.clockAt u * 1000000 := by
    unfold clockAt
    omega
  simp only [Moment.ofInstant, Moment.inRange, Shown]
  by_cases h1 : InRange (u * 1000000)
  · simp only [h1, if_true, true_and, bind, Except.bind, pure, Except.pure, seconds_mul, hm]
    by_cases h2 : InRange (z.clockAt u * 1000000)
    · simp only [h2, if_true]
      rfl
    · simp only [h2, if_false]
  · simp only [h1, if_false, false_and]
    rfl

theorem normalize_eq {u : Int} {m : Moment} (hu : u.natAbs < 2 ^ 53)
    (hm : m.instant = u * 1000000) :
    m.normalize = if m.zone.Shown u then .ok (m.zone.momentAt u) else .error .dateRange := by
  rw [Moment.normalize, Moment.ofPosix, Moment.posix, hm, Posix.ofMicros_whole hu,
    Posix.toMicros_whole, ofInstant_eq]

theorem instant_reading (z : Zone) (clock : Int) (second : Bool) :
    (Moment.mk z (clock * 1000000) second).instant = z.instantOf clock second * 1000000 := by
  simp only [Moment.instant, Moment.offset, seconds_mul, instantOf]
  omega

theorem Spaced.normalize_reading (hz : z.Spaced P) (h : InRange (clock * 1000000)) (second : Bool) :
    (Moment.mk z (clock * 1000000) second).normalize =
      if z.Shown (z.instantOf clock second) then .ok (z.momentAt (z.instantOf clock second))
      else .error .dateRange := by
  have hn := hz.instantOf_near clock second
  have hr := inRange_mul_iff.1 h
  exact normalize_eq (by omega) (instant_reading z clock second)

/-- If the moments of a clock time can be shown, they are those of its readings. -/
theorem Spaced.eq_resolve (hz : z.Spaced P) (h : InRange (clock * 1000000)) {l : List Moment}
    (hl : Moment.instantsOf z (clock * 1000000) = .ok l) : l = z.resolve clock := by
  have h1 := hz.instantOf_near clock false
  have h2 := hz.instantOf_near clock true
  have hr := inRange_mul_iff.1 h
  simp only [Moment.instantsOf, hz.normalize_reading h, bind, Except.bind, pure, Except.pure] at hl
  unfold resolve
  by_cases hs : z.Shown (z.instantOf clock false)
  · simp only [hs, if_true, time_momentAt] at hl
    by_cases hc : z.clockAt (z.instantOf clock false) = clock
    · simp only [hc, ne_eq, not_true_eq_false, if_false] at hl
      by_cases hs' : z.Shown (z.instantOf clock true)
      · simp only [hs', if_true, hz.posix_momentAt (u := z.instantOf clock false) (by omega),
          hz.posix_momentAt (u := z.instantOf clock true) (by omega), Posix.unitsPerSecond_eq] at hl
        by_cases he : z.instantOf clock false = z.instantOf clock true
        · rw [if_neg (by simp [he])]
          rw [if_pos (by rw [he])] at hl
          exact (Except.ok.inj hl).symm
        · rw [if_pos ⟨hc, he⟩]
          rw [if_neg (by omega)] at hl
          exact (Except.ok.inj hl).symm
      · simp [hs'] at hl
    · have hc' : z.clockAt (z.instantOf clock false) * 1000000 ≠ clock * 1000000 := by omega
      rw [if_neg (by simp [hc])]
      simp only [hc', ne_eq, not_false_eq_true, if_true] at hl
      exact (Except.ok.inj hl).symm
  · simp [hs] at hl

theorem Spaced.shown_of_near (hz : z.Spaced P) (h : Inner clock) {u : Int}
    (hu : clock - 86400 < u ∧ u < clock + 86400) : z.Shown u := by
  have hclock := hz.clockAt_near u
  unfold Inner at h
  unfold Shown
  rw [inRange_mul_iff, inRange_mul_iff]
  omega

theorem Spaced.shown_instantOf (hz : z.Spaced P) (h : Inner clock) (second : Bool) :
    z.Shown (z.instantOf clock second) :=
  hz.shown_of_near h (hz.instantOf_near clock second)

/-- Away from the ends of the calendar the moments of a clock time can be shown. -/
theorem Spaced.instantsOf_eq (hz : z.Spaced P) (h : Inner clock) :
    Moment.instantsOf z (clock * 1000000) = .ok (z.resolve clock) := by
  have hr : InRange (clock * 1000000) := by
    unfold Inner at h
    rw [inRange_mul_iff]
    omega
  have hl : ∃ l, Moment.instantsOf z (clock * 1000000) = .ok l := by
    simp only [Moment.instantsOf, hz.normalize_reading hr, hz.shown_instantOf h, if_true, bind,
      Except.bind, pure, Except.pure]
    split
    · exact ⟨_, rfl⟩
    · exact ⟨_, rfl⟩
  obtain ⟨l, hl⟩ := hl
  rw [hl, hz.eq_resolve hr hl]

/-! ### Clocks that are moved back -/

section MovesBack

variable {limit : Int}

theorem movesBack_of_changeNear (hz : z.Spaced (Change.MovesBack limit))
    (h : z.ChangeNear clock c) : c.after ≤ c.before := by
  rcases h.change with hc | hc
  · exact (hz.changes c hc).1
  · omega

/-- Where the clock is only ever moved back, it shows every time. -/
theorem Spaced.clockAt_instantOf (hz : z.Spaced (Change.MovesBack limit)) (clock : Int)
    (second : Bool) : z.clockAt (z.instantOf clock second) = clock := by
  obtain ⟨c, hc⟩ := hz.exists_changeNear clock
  have hn := hz.instantOf_near clock second
  have hb := movesBack_of_changeNear hz hc
  unfold clockAt
  rw [hc.offsetAt _ (by omega) (by omega)]
  unfold instantOf
  rw [hc.localOffset, Change.localOffset, Change.offsetAt]
  by_cases hs : c.start + (if second then min c.before c.after else max c.before c.after) ≤ clock
  · rw [if_pos hs, if_pos (by cases second <;> simp at hs <;> omega)]
    omega
  · rw [if_neg hs, if_neg (by cases second <;> simp at hs <;> omega)]
    omega

theorem Spaced.instantOf_false_le (hz : z.Spaced (Change.MovesBack limit)) (clock : Int) :
    z.instantOf clock false ≤ z.instantOf clock true := by
  obtain ⟨c, hc⟩ := hz.exists_changeNear clock
  have hb := movesBack_of_changeNear hz hc
  unfold instantOf
  rw [hc.localOffset, hc.localOffset, Change.localOffset, Change.localOffset]
  simp only [Bool.false_eq_true, if_true, if_false]
  split <;> split <;> omega

/-- Away from the ends of the calendar, a time of a clock that is only ever moved back stands
for the instants of its two readings. -/
theorem Spaced.instantsOf_movesBack (hz : z.Spaced (Change.MovesBack limit)) (h : Inner clock) :
    Moment.instantsOf z (clock * 1000000) = .ok
      (if z.instantOf clock false = z.instantOf clock true then
        [z.momentAt (z.instantOf clock false)]
      else [z.momentAt (z.instantOf clock false), z.momentAt (z.instantOf clock true)]) := by
  rw [hz.instantsOf_eq h, resolve]
  simp only [hz.clockAt_instantOf, true_and, ne_eq, ite_not]

theorem Spaced.instantOf_of_repeats (hz : z.Spaced (Change.MovesBack limit)) (hc : c ∈ z.changes)
    (h : c.Repeats clock) :
    z.instantOf clock false = clock - c.before ∧ z.instantOf clock true = clock - c.after := by
  have hn := hz.changeNear_of_repeats hc h
  have hb := movesBack_of_changeNear hz hn
  unfold Change.Repeats at h
  unfold instantOf
  rw [hn.localOffset, hn.localOffset, Change.localOffset, Change.localOffset]
  simp only [Bool.false_eq_true, if_true, if_false]
  rw [if_neg (by omega), if_pos (by omega)]
  exact ⟨rfl, rfl⟩

/-- Where the clock does not show a later time at a later instant, a change repeats the times
between. -/
theorem Spaced.exists_repeats_of_lt (hz : z.Spaced P) {u u' : Int} (hu : u < u')
    (hclock : z.clockAt u' ≤ z.clockAt u) :
    ∃ c ∈ z.changes, ∀ y, z.clockAt u' ≤ y → y ≤ z.clockAt u → c.Repeats y := by
  obtain ⟨c, hc⟩ := hz.exists_changeNear (z.clockAt u')
  have hd := hz.withinDay_offsetAt u
  have hd' := hz.withinDay_offsetAt u'
  unfold WithinDay at hd hd'
  unfold clockAt at hc hclock ⊢
  -- both instants are near the clock time, with the change between them
  have h := hc.offsetAt u (by omega) (by omega)
  have h' := hc.offsetAt u' (by omega) (by omega)
  rw [h, h', Change.offsetAt, Change.offsetAt] at hclock
  obtain ⟨hs, hs'⟩ : u < c.start ∧ c.start ≤ u' := by
    split at hclock <;> split at hclock <;> omega
  rw [if_pos hs', if_neg (by omega)] at hclock
  refine ⟨c, hc.change.resolve_right (by omega), ?_⟩
  intro y hy hy'
  rw [h', Change.offsetAt, if_pos hs'] at hy
  rw [h, Change.offsetAt, if_neg (by omega)] at hy'
  unfold Change.Repeats
  omega

/-- Later clock times, read with the same fold, have later instants. -/
theorem Spaced.instantOf_lt (hz : z.Spaced (Change.MovesBack limit)) {a b : Int} (h : a < b)
    (second : Bool) : z.instantOf a second < z.instantOf b second := by
  by_contra hlt
  have hca := hz.clockAt_instantOf a second
  have hcb := hz.clockAt_instantOf b second
  have hne : z.instantOf b second ≠ z.instantOf a second := by
    intro heq
    rw [heq, hca] at hcb
    omega
  have hu : z.instantOf b second < z.instantOf a second := by omega
  obtain ⟨c, hc, hr⟩ := hz.exists_repeats_of_lt hu (by omega)
  rw [hca, hcb] at hr
  -- in the repeated hour the fold takes both to the same pass
  have ha := hz.instantOf_of_repeats hc (hr a (by omega) (by omega))
  have hb := hz.instantOf_of_repeats hc (hr b (by omega) (by omega))
  cases second <;> omega

end MovesBack

end Zone

end CronSchedule
