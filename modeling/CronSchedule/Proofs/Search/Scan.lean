import CronSchedule.Proofs.Search.Pick

/-!
# A search in a zone whose clock is only ever moved back

There each clock time has two passes, equal outside the repeated hours, and a search picks from
them.

* `Timetable.consider_none`, `Timetable.consider_far`: one step of the search.
* `Timetable.search_eq_pick`: **the search finds the moment of the instant that
  `Direction.pick` takes.**
-/

namespace CronSchedule

open LocalTime Moment Zone

namespace Direction

/-- The fold of the pass that a search meets first in a repeated hour. -/
def nearFold (dir : Direction) : Bool :=
  match dir with
  | forward => false
  | backward => true

/-- The instant of the pass of a clock time that a search meets first. -/
def near (dir : Direction) (z : Zone) (clock : Int) : Int := z.instantOf clock dir.nearFold

/-- The instant of the other pass. -/
def far (dir : Direction) (z : Zone) (clock : Int) : Int := z.instantOf clock !dir.nearFold

variable {dir : Direction} {z : Zone} {limit : Int}

theorem passes (dir : Direction) (hz : z.Spaced (Change.MovesBack limit)) :
    dir.Passes (dir.near z) (dir.far z) := by
  constructor
  · intro x
    have := hz.instantOf_false_le x
    cases dir <;> simp only [near, far, nearFold, key, Bool.not_false, Bool.not_true] <;> omega
  · intro x y h
    cases dir <;> simp only [key, near] at h ⊢
    · exact hz.instantOf_lt h _
    · exact Int.neg_lt_neg (hz.instantOf_lt (by omega) _)
  · intro x y h
    cases dir <;> simp only [key, far] at h ⊢
    · exact hz.instantOf_lt h _
    · exact Int.neg_lt_neg (hz.instantOf_lt (by omega) _)

theorem arrange_passes (dir : Direction) (z : Zone) (clock : Int) :
    dir.arrange (if z.instantOf clock false = z.instantOf clock true then
        [z.momentAt (z.instantOf clock false)]
      else [z.momentAt (z.instantOf clock false), z.momentAt (z.instantOf clock true)]) =
      if dir.near z clock = dir.far z clock then [z.momentAt (dir.near z clock)]
      else [z.momentAt (dir.near z clock), z.momentAt (dir.far z clock)] := by
  by_cases h : z.instantOf clock false = z.instantOf clock true
  · cases dir <;> simp [near, far, nearFold, arrange, h]
  · cases dir <;> simp [near, far, nearFold, arrange, h, Ne.symm h]

theorem clockAt_near (hz : z.Spaced (Change.MovesBack limit)) (clock : Int) :
    z.clockAt (dir.near z clock) = clock := hz.clockAt_instantOf clock _

theorem clockAt_far (hz : z.Spaced (Change.MovesBack limit)) (clock : Int) :
    z.clockAt (dir.far z clock) = clock := hz.clockAt_instantOf clock _

theorem near_bounds (dir : Direction) (hz : z.Spaced (Change.MovesBack limit)) {clock : Int}
    (h : Inner clock) :
    (dir.near z clock).natAbs < 2 ^ 53 := by
  have := hz.instantOf_near clock dir.nearFold
  unfold Inner at h
  unfold near
  omega

theorem far_bounds (dir : Direction) (hz : z.Spaced (Change.MovesBack limit)) {clock : Int}
    (h : Inner clock) :
    (dir.far z clock).natAbs < 2 ^ 53 := by
  have := hz.instantOf_near clock !dir.nearFold
  unfold Inner at h
  unfold far
  omega

end Direction

namespace Timetable

open Direction

variable {dir : Direction} {z : Zone} {limit ref : Int} {t : Timetable}

/-! ### One step of the search -/

theorem consider_none (hz : z.Spaced (Change.MovesBack limit)) (hr : Posix.Sharp ref) {w : Int}
    (hw : Inner w) :
    consider dir z (Posix.ofMicros ref) none (w * 1000000) =
      if dir.ahead ref (dir.near z w) then .error (.done (z.momentAt (dir.near z w)))
      else if dir.ahead ref (dir.far z w) then .ok (some (z.momentAt (dir.far z w)))
      else .ok none := by
  have hn := near_bounds dir hz hw
  have hf := far_bounds dir hz hw
  have hle := (passes dir hz).near_le w
  have hc := closer_momentAt dir hz hf hn
  have hcl : dir.precedes (dir.far z w) (dir.near z w) = false := precedes_eq_false_iff.2 hle
  simp only [consider, hz.instantsOf_movesBack hw, orFail_ok, bind, Except.bind, pure, Except.pure,
    arrange_passes]
  by_cases he : dir.near z w = dir.far z w
  · rw [← he]
    cases h1 : dir.ahead ref (dir.near z w) <;>
      simp [markFirst, eligible_momentAt hz hn hr, h1, improve, clockAt_near hz]
    rfl
  · cases h1 : dir.ahead ref (dir.near z w) <;> cases h2 : dir.ahead ref (dir.far z w) <;>
      simp [he, markFirst, eligible_momentAt hz hn hr, eligible_momentAt hz hf hr, h1, h2, improve,
        clockAt_near hz, hc, hcl] <;> rfl

/-- Once a far pass is the best moment found, the next clock time ends the search. -/
theorem consider_far (hz : z.Spaced (Change.MovesBack limit)) (hr : Posix.Sharp ref) {v w : Int}
    (hv : Inner v) (hw : Inner w) (hvw : dir.key v < dir.key w) :
    consider dir z (Posix.ofMicros ref) (some (z.momentAt (dir.far z v))) (w * 1000000) =
      .error (.done (z.momentAt (dir.settle ref (dir.near z) (dir.far z v) (some w)))) := by
  have hn := near_bounds dir hz hw
  have hf := far_bounds dir hz hw
  have hb := far_bounds dir hz hv
  have hp := passes dir hz
  have hc1 := closer_momentAt dir hz hn hb
  have hc2 : dir.closer (z.momentAt (dir.far z w)) (z.momentAt (dir.far z v)) = false := by
    rw [closer_momentAt dir hz hf hb, precedes_eq_false_iff]
    exact Int.le_of_lt (hp.far_lt v w hvw)
  have hc3 : dir.closer (z.momentAt (dir.far z w)) (z.momentAt (dir.near z w)) = false := by
    rw [closer_momentAt dir hz hf hn, precedes_eq_false_iff]
    exact hp.near_le w
  have ht : dir.precedes (w * 1000000) (v * 1000000) = false := by
    rw [precedes_eq_false_iff, key_mul, key_mul]
    omega
  simp only [consider, hz.instantsOf_movesBack hw, orFail_ok, bind, Except.bind, pure, Except.pure,
     arrange_passes, time_momentAt, clockAt_far hz, ht, settle]
  by_cases he : dir.near z w = dir.far z w
  · rw [← he] at hc2
    rw [if_pos he]
    rw [hc2] at hc1
    cases h1 : dir.ahead ref (dir.near z w) <;>
      simp [markFirst, eligible_momentAt hz hn hr, h1, hc2, ← hc1]
    all_goals rfl
  · rw [if_neg he]
    cases h1 : dir.ahead ref (dir.near z w) <;> cases h2 : dir.ahead ref (dir.far z w) <;>
      cases h3 : dir.precedes (dir.near z w) (dir.far z v) <;>
        simp [markFirst, eligible_momentAt hz hn hr, eligible_momentAt hz hf hr, h1, h2, improve,
          clockAt_near hz, hc1, hc2, hc3, h3] <;> rfl

/-! ### The whole search -/

theorem outcome_scan (hz : z.Spaced (Change.MovesBack limit)) (hr : Posix.Sharp ref)
    {ws : List Int} (hs : dir.Sorted ws) (hi : ∀ w ∈ ws, Inner w) :
    outcome (ws.foldlM (fun best w =>
      consider dir z (Posix.ofMicros ref) best (w * 1000000)) none) =
        .ok ((dir.pick ref (dir.near z) (dir.far z) ws).map z.momentAt) := by
  induction ws with
  | nil => rfl
  | cons w ws ih =>
    have hw := hi w List.mem_cons_self
    rw [List.foldlM_cons, consider_none hz hr hw, pick]
    by_cases h1 : dir.ahead ref (dir.near z w) = true
    · rw [if_pos h1, if_pos h1]
      rfl
    · rw [if_neg h1, if_neg h1]
      by_cases h2 : dir.ahead ref (dir.far z w) = true
      · rw [if_pos h2, if_pos h2]
        cases ws with
        | nil => rfl
        | cons v ws =>
          have hv := hi v (by simp)
          simp only [bind, Except.bind, List.foldlM_cons,
            consider_far hz hr hw hv (hs.lt v List.mem_cons_self)]
          rfl
      · rw [if_neg h2, if_neg h2]
        exact ih hs.tail fun v hv => hi v (List.mem_cons_of_mem w hv)

/-- **The search finds the moment of the instant that is picked from the passes of the clock
times it meets.** -/
theorem search_eq_pick (ht : t.Sound) {m : Moment} (hz : m.zone.Spaced (Change.MovesBack limit))
    (hr : Posix.Sharp m.instant) {start : Int} (hs : searchStart dir m = .ok start)
    (hi : ∀ w ∈ t.clocks dir start, Inner w) :
    t.search dir m = .ok ((dir.pick m.instant (dir.near m.zone) (dir.far m.zone)
      (t.clocks dir start)).map m.zone.momentAt) := by
  rw [search_of_start hs, walk_eq_foldlM ht, times_eq_map ht, List.foldlM_map]
  exact outcome_scan hz hr (sorted_clocks ht start) hi

end Timetable

end CronSchedule
