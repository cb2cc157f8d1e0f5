import CronSchedule.Proofs.Search.SkippedHour

/-!
# Matches

`Timetable.isMatch` goes back from a moment to the clock times that can stand for it: the one that
is shown, and the one from which the clock was moved here if it was moved ahead in the six hours
before.

* `Zone.Spaced.readBack_iff`: these are the time that is shown and a time that was skipped less than
  six hours after the start of its gap.
* `Timetable.firesAt_iff`: the clock times that stand for a moment are the time that is shown and
  all that are skipped and pushed to it.
* `Timetable.isMatch_iff`: **where no jump is longer than six hours, the matches are the moments at
  which the schedule fires.**
-/

namespace CronSchedule

open LocalTime Moment Zone

/-- A clock time so far from the ends of the calendar that those some days before and after it are
inner times. -/
def Innermost (clock : Int) : Prop := -62134000000 ≤ clock ∧ clock ≤ 253401000000

theorem Innermost.inner {clock : Int} (h : Innermost clock) : Inner clock := by
  unfold Innermost at h
  unfold Inner
  omega

theorem innermost_of_year {t : Int} (h : 2 ≤ (date t).year) (h' : (date t).year ≤ 9998) :
    Innermost (seconds t) := by
  have hl := le_of_two_le_year h
  have hu := lt_of_year_le h'
  unfold Innermost seconds
  omega

namespace Zone

variable {z : Zone} {P : Change → Prop} {c : Change} {u w : Int}

/-! ### Going back from an instant -/

/-- How far the clock was moved ahead in the six hours before an instant. -/
def jump (z : Zone) (u : Int) : Int := max (z.offsetAt u - z.offsetAt (u - 21600)) 0

/-- The clock times that a match looks at for an instant: the one that is shown, and the one from
which the clock jumped, if that stands for the instant. -/
def ReadBack (z : Zone) (u w : Int) : Prop :=
  z.clockAt u = w ∨ z.jump u ≠ 0 ∧ z.clockAt u - z.jump u = w ∧ z.instantOf w false = u

theorem Spaced.jump_near (hz : z.Spaced P) (u : Int) : 0 ≤ z.jump u ∧ z.jump u < 172800 := by
  have ho := hz.withinDay_offsetAt u
  have ho' := hz.withinDay_offsetAt (u - 21600)
  unfold WithinDay at ho ho'
  unfold jump
  omega

/-- At the instant of a skipped time the jump is seen if the gap began less than six hours before.
-/
theorem Spaced.jump_of_skips (hz : z.Spaced P) (hc : c ∈ z.changes) (hw : c.Skips w)
    (hle : c.after - c.before ≤ 86400) :
    z.jump (w - c.before) =
      if w < c.start + c.before + 21600 then c.after - c.before else 0 := by
  unfold Change.Skips at hw
  obtain ⟨d, hd⟩ := hz.exists_changeNear (w - c.before)
  obtain rfl := hd.unique c hc (by omega) (by omega)
  have hnow := hd.offsetAt (w - c.before) (by omega) (by omega)
  have hearlier := hd.offsetAt (w - c.before - 21600) (by omega) (by omega)
  rw [Change.offsetAt, if_pos (by omega)] at hnow
  rw [Change.offsetAt] at hearlier
  rw [jump, hnow, hearlier]
  by_cases hsoon : w < c.start + c.before + 21600
  · rw [if_neg (by omega), if_pos hsoon]
    omega
  · rw [if_pos (by omega), if_neg hsoon]
    omega

/-- **A match looks at the time that is shown and at one that was skipped less than six hours after
the start of its gap.** -/
theorem Spaced.readBack_iff (hz : z.Spaced (Change.MovesBy 86400)) :
    z.ReadBack u w ↔ z.clockAt u = w ∨
      ∃ c ∈ z.changes, c.Skips w ∧ w - c.before = u ∧ w < c.start + c.before + 21600 := by
  constructor
  · rintro (hshown | ⟨hjump, hback, hi⟩)
    · exact .inl hshown
    · rcases hz.clockAt_instantOf_or w with hshown | ⟨c, hc, hskips⟩
      · rw [hi] at hshown
        exact .inl hshown
      · right
        have hpush := (hz.instantOf_of_skips hc hskips).1
        have hu : w - c.before = u := by omega
        have hseen := hz.jump_of_skips hc hskips (hz.changes c hc).1
        rw [hu] at hseen
        refine ⟨c, hc, hskips, hu, ?_⟩
        by_contra hlate
        rw [if_neg hlate] at hseen
        exact hjump hseen
  · rintro (hshown | ⟨c, hc, hskips, rfl, hsoon⟩)
    · exact .inl hshown
    · right
      obtain ⟨hi, hpushed⟩ := hz.instantOf_of_skips hc hskips
      have hseen := hz.jump_of_skips hc hskips (hz.changes c hc).1
      rw [if_pos hsoon] at hseen
      rw [hi, Change.pushed] at hpushed
      unfold Change.Skips at hskips
      exact ⟨by omega, by omega, hi⟩

end Zone

namespace Moment.Whole

variable {m : Moment} {P : Change → Prop} {clock u : Int}

/-- The skipped time from which a moment that the clock shows is reached. -/
theorem skipped?_eq (h : m.Whole clock u) (hz : m.zone.Spaced P) (hu : m.zone.clockAt u = clock)
    (hi : Innermost clock) :
    m.skipped? = .ok
      (if m.zone.jump u ≠ 0 ∧ m.zone.instantOf (clock - m.zone.jump u) false = u then
        some ((clock - m.zone.jump u) * 1000000)
      else none) := by
  have hj := hz.jump_near u
  have hn := h.near hz
  have hjump : m.forwardJump = .ok (m.zone.jump u) := by
    rw [h.forwardJump_eq hz hi.inner, jump, ← hu, clockAt]
    congr 2
    omega
  unfold Innermost at hi
  rw [skipped?, hjump]
  by_cases hzero : m.zone.jump u = 0
  · rw [if_neg fun hne => hne.1 hzero]
    simp only [bind, Except.bind, hzero, if_true]
    rfl
  obtain ⟨rest, hrest⟩ := m.zone.exists_resolve_eq_cons (clock - m.zone.jump u)
  have horigin := hz.instantOf_near (clock - m.zone.jump u) false
  have hp := h.posix_eq (by omega)
  have hp' := hz.posix_momentAt (u := m.zone.instantOf (clock - m.zone.jump u) false) (by omega)
  have htime : m.time - m.zone.jump u * 1000000 = (clock - m.zone.jump u) * 1000000 := by
    rw [h.time]
    omega
  have hr : InRange ((clock - m.zone.jump u) * 1000000) := by
    rw [inRange_mul_iff]
    omega
  have hmoments := hz.instantsOf_eq (show Inner (clock - m.zone.jump u) by unfold Inner; omega)
  simp only [bind, Except.bind, hzero, if_false, htime, inRange_eq_ok hr, hmoments, hrest, pure,
    Except.pure, hp, hp', time_momentAt]
  by_cases hsame : m.zone.instantOf (clock - m.zone.jump u) false = u
  · rw [if_pos, if_pos ⟨hzero, hsame⟩]
    simp only [hsame, hu, Bool.and_eq_true, decide_eq_true_eq, beq_self_eq_true, and_true]
    omega
  · rw [if_neg, if_neg fun hs => hsame hs.2]
    simp only [Bool.and_eq_true, beq_iff_eq, Posix.unitsPerSecond_eq]
    omega

end Moment.Whole

namespace Timetable

variable {t : Timetable} {m n : Moment} {z : Zone} {P : Change → Prop} {clock u w : Int}

/-! ### Going on to the moments of a fire time -/

/-- What a fire time at the instant of a moment is: the time that is shown, or one that is skipped
and pushed there. -/
theorem FireOf.shown_or_pushed (h : m.Whole clock u) (hz : m.zone.Spaced P) (hi : Innermost clock)
    {time : Int} (hfire : t.FireOf m.zone time n) (heq : n.posix = m.posix) :
    ∃ w, time = w * 1000000 ∧
      (m.zone.clockAt u = w ∨ ∃ c ∈ m.zone.changes, c.Skips w ∧ w - c.before = u) := by
  have hnear := h.near hz
  unfold Innermost at hi
  obtain ⟨w, rfl, hr, -, hn⟩ := hfire.exists_resolve hz
  obtain ⟨v, rfl, hv, hshown⟩ := hz.exists_of_mem_resolve hn
  rw [inRange_mul_iff] at hr
  rw [hz.posix_momentAt (by omega), h.posix_eq (by omega), Posix.unitsPerSecond_eq] at heq
  obtain rfl : v = u := by omega
  refine ⟨w, rfl, hshown.imp_right ?_⟩
  rintro ⟨hv, c, hc, hskips⟩
  exact ⟨c, hc, hskips, by rw [hv, (hz.instantOf_of_skips hc hskips).1]⟩

/-- **A schedule fires at an instant if it fires at the clock time that is shown or at one that is
skipped and pushed there.** -/
theorem firesAt_iff (h : m.Whole clock u) (hz : m.zone.Spaced P) (hi : Innermost clock) :
    (∃ time n, t.FireOf m.zone time n ∧ n.posix = m.posix) ↔
      ∃ w, (m.zone.clockAt u = w ∨ ∃ c ∈ m.zone.changes, c.Skips w ∧ w - c.before = u) ∧
        t.fires (w * 1000000) = .ok true := by
  constructor
  · rintro ⟨time, n, hfire, heq⟩
    obtain ⟨w, rfl, hw⟩ := hfire.shown_or_pushed h hz hi heq
    exact ⟨w, hw, hfire.fires⟩
  · rintro ⟨w, hw, hf⟩
    have hnear := h.near hz
    unfold Innermost at hi
    obtain ⟨hn, hi'⟩ : m.zone.momentAt u ∈ m.zone.resolve w ∧ Inner w := by
      rcases hw with hshown | ⟨c, hc, hskips, rfl⟩
      · have hclock := hz.clockAt_near u
        exact ⟨hz.momentAt_mem_resolve hshown, by unfold Inner; omega⟩
      · have hb := (hz.withinDay_of_mem hc).1
        unfold WithinDay at hb
        rw [← (hz.instantOf_of_skips hc hskips).1]
        exact ⟨first_mem_resolve m.zone w, by unfold Inner; omega⟩
    refine ⟨_, _, fireOf_of_mem_resolve hz hi' hf hn, ?_⟩
    rw [hz.posix_momentAt (by omega), h.posix_eq (by omega)]

/-! ### Matches -/

/-- A match is asked of the clock times that the instant is read back to. -/
theorem isMatch_eq (ht : t.Sound) (h : m.Whole clock u) (hz : m.zone.Spaced P)
    (hu : m.zone.clockAt u = clock) (hi : Innermost clock) :
    ∃ b, t.isMatch m = .ok b ∧
      (b = true ↔ ∃ w, m.zone.ReadBack u w ∧ t.fires (w * 1000000) = .ok true) := by
  have hm : micros m.time = 0 := by
    rw [h.time, micros]
    omega
  simp only [isMatch, hm, h.skipped?_eq hz hu hi, bind, Except.bind, ne_eq, not_true_eq_false,
    if_false]
  obtain ⟨b, hb⟩ : ∃ b, t.fires (clock * 1000000) = .ok b := ⟨_, fires_eq ht _⟩
  obtain ⟨b', hb'⟩ : ∃ b, t.fires ((clock - m.zone.jump u) * 1000000) = .ok b :=
    ⟨_, fires_eq ht _⟩
  rw [h.time, hb]
  cases b with
  | true => exact ⟨true, rfl, fun _ => ⟨clock, .inl hu, hb⟩, fun _ => rfl⟩
  | false =>
    by_cases hback : m.zone.jump u ≠ 0 ∧ m.zone.instantOf (clock - m.zone.jump u) false = u
    · simp only [Bool.false_eq_true, if_false, if_pos hback]
      refine ⟨b', hb', ?_, ?_⟩
      · rintro rfl
        exact ⟨_, .inr ⟨hback.1, by rw [hu], hback.2⟩, hb'⟩
      · rintro ⟨w, hshown | ⟨-, hw, -⟩, hf⟩
        · rw [← hshown, hu, hb] at hf
          cases hf
        · rw [← hw, hu, hb'] at hf
          exact Except.ok.inj hf
    · simp only [Bool.false_eq_true, if_false, if_neg hback]
      refine ⟨false, rfl, fun h => absurd h Bool.false_ne_true, ?_⟩
      rintro ⟨w, hshown | ⟨hjump, rfl, hi⟩, hf⟩
      · rw [← hshown, hu, hb] at hf
        cases hf
      · rw [hu] at hi
        exact absurd ⟨hjump, hi⟩ hback

/-- **A match is a moment at which the schedule fires, where no jump is longer than six hours.** It
fires at the local time that is shown, in either pass, or at one that is skipped and pushed there.
-/
theorem isMatch_iff {s : Schedule} (hD : s.definition ∈ Dialect.all) (hv : s.validate = .ok ())
    {maxYears : Int} (hn : 1 ≤ maxYears) (hz : m.zone.Spaced (Change.MovesBy 21600))
    (hy : 2 ≤ (date m.time).year) (hy' : (date m.time).year ≤ 9998)
    (hshown : ∃ u, m.zone.clockAt u = LocalTime.seconds m.time) :
    ∃ t, of? s maxYears = .ok t ∧ ∃ b, t.isMatch m = .ok b ∧
      (b = true ↔ micros m.time = 0 ∧ ∃ time n, t.FireOf m.zone time n ∧ n.posix = m.posix) ∧
      (micros m.time = 0 → ∀ time n, t.FireOf m.zone time n → n.posix = m.posix →
        time = m.time ∨ ∃ c ∈ m.zone.changes, c.Skips (LocalTime.seconds time) ∧
          c.pushed (LocalTime.seconds time) = LocalTime.seconds m.time) := by
  obtain ⟨t, ht, -, -, hsound⟩ := exists_of_validate hD hv hn
  refine ⟨t, ht, ?_⟩
  by_cases hm : micros m.time = 0
  swap
  · refine ⟨false, ?_, ?_, fun h0 => absurd h0 hm⟩
    · rw [isMatch, if_pos hm]
      rfl
    · exact ⟨nofun, fun h0 => absurd h0.1 hm⟩
  have h : m.Whole (LocalTime.seconds m.time)
      (m.zone.instantOf (LocalTime.seconds m.time) m.secondPass) :=
    ⟨(seconds_mul_of_micros hm).symm, rfl⟩
  obtain ⟨u, hu⟩ := hshown
  have hclock := hz.clockAt_instantOf_of_shown hu m.secondPass
  have hi := innermost_of_year hy hy'
  obtain ⟨b, hb, hmatch⟩ := isMatch_eq hsound h hz hclock hi
  refine ⟨b, hb, ?_, ?_⟩
  · rw [hmatch, firesAt_iff h hz hi]
    have hday : m.zone.Spaced (Change.MovesBy 86400) := hz.imp fun c hc => hc.mono (by decide)
    constructor
    · rintro ⟨w, hback, hf⟩
      refine ⟨hm, w, (hday.readBack_iff.1 hback).imp_right ?_, hf⟩
      rintro ⟨c, hc, hskips, hw, -⟩
      exact ⟨c, hc, hskips, hw⟩
    · rintro ⟨-, w, hw, hf⟩
      refine ⟨w, hday.readBack_iff.2 (hw.imp_right ?_), hf⟩
      -- a gap of six hours at most ends before the six hours are over
      rintro ⟨c, hc, hskips, hw⟩
      have hlim := (hz.changes c hc).1
      have hend := hskips.2
      exact ⟨c, hc, hskips, hw, by omega⟩
  · intro _ time n hfire heq
    obtain ⟨w, rfl, hw⟩ := hfire.shown_or_pushed h hz hi heq
    rw [seconds_mul]
    rcases hw with hw | ⟨c, hc, hskips, hw⟩
    · left
      rw [← hw, hclock, seconds_mul_of_micros hm]
    · obtain ⟨hpush, hpushed⟩ := hz.instantOf_of_skips hc hskips
      rw [hpush, hw, hclock] at hpushed
      exact .inr ⟨c, hc, hskips, hpushed.symm⟩

/-- At twenty to three it fires, as ten past two is skipped and pushed there. -/
theorem isMatch_twentyToThreePushed :
    ∃ t, of? twiceAtTwo defaultYears = .ok t ∧ t.isMatch twentyToThreePushed = .ok true := by
  have hy : (date twentyToThreePushed.time).year = 2024 := by rfl
  obtain ⟨t, ht, b, hb, hmatch, -⟩ := isMatch_iff (s := twiceAtTwo) (m := twentyToThreePushed)
    List.mem_cons_self (by rfl) (by decide : 1 ≤ defaultYears)
    (spaced_halfHourForward.imp fun c hc => hc.movesBy) (by omega) (by omega)
    ⟨1728142800, by decide⟩
  obtain rfl := Except.ok.inj (of?_twiceAtTwo.symm.trans ht)
  obtain rfl := hmatch.2 ⟨by decide, _, _, fireOf_twentyToThreePushed, rfl⟩
  exact ⟨_, ht, hb⟩

end Timetable

end CronSchedule
