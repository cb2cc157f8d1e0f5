import CronSchedule.Proofs.Search.SkippedHour
import CronSchedule.Proofs.Timetable.Cycle
import CronSchedule.Timetable.Occurrences

/-!
# Series of fire times

A series asks for the next fire time again and again, each time from the one before. Where the clock
is only ever moved forward the next fire time is the nearest one, so a series misses nothing, and
two fire times at one instant are one moment of it. A schedule of every year that fires at all fires
within forty years, so no search comes to the end of the years that it looks at.

* `Timetable.Perennial.next_cases`: the next fire time is the nearest one, or the schedule never
  fires.
* `Timetable.Perennial.exists_lists`: the steps of a series up to a limit.
* `Timetable.between_movesForward`: **the fire times between two moments are all of them, in the
  order of their instants.**
-/

namespace CronSchedule

open LocalTime Moment Zone

namespace Timetable

/-- A schedule of every year, which is searched a hundred years ahead, in a zone whose clock is only
ever moved forward. -/
structure Perennial (t : Timetable) (z : Zone) : Prop where
  sound : t.Sound
  everyYear : t.EveryYear
  maxYears : t.maxYears = 100
  spaced : z.Spaced (Change.MovesForward 21600)

variable {t : Timetable} {z : Zone} {m n : Moment} {clock u : Int}

/-! ### One step of a series -/

/-- The next fire time after a moment is at an instant, and it is the nearest one of all. -/
structure Follows (t : Timetable) (m : Moment) (v : Int) : Prop where
  next : t.next m = .ok (some (m.zone.momentAt v))
  fires : t.FiresAt m.zone (m.zone.momentAt v)
  inRange : InRange (v * 1000000)
  lt : m.instant < v * 1000000
  least : ∀ n, t.FiresAt m.zone n → m.instant < n.instant → v * 1000000 ≤ n.instant

/-- A series finds the moments of a list, and these are all fire times after a moment up to a limit.
-/
structure Lists (t : Timetable) (m : Moment) (limit : Int) (l : List Moment) : Prop where
  take : ∀ k, t.occurrencesUntil limit k m = .ok (l.take k)
  sorted : l.Pairwise fun a b => a.instant < b.instant
  mem : ∀ n, n ∈ l ↔ t.FiresAt m.zone n ∧ m.instant < n.instant ∧ n.instant ≤ limit

section

variable {limit v : Int} {l : List Moment}

theorem lists_of_next_eq_none (h : t.next m = .ok none) (hnone : ∀ n, ¬ t.FiresAt m.zone n) :
    t.Lists m limit [] := by
  constructor
  · intro k
    cases k with
    | zero => rfl
    | succ k =>
      rw [occurrencesUntil, h]
      rfl
  · exact List.Pairwise.nil
  · intro n
    simp only [List.not_mem_nil, false_iff]
    exact fun hn => hnone n hn.1

theorem Follows.lists_of_lt (h : t.Follows m v) (hz : m.zone.Spaced (Change.MovesForward 21600))
    (hlt : limit < v * 1000000) : t.Lists m limit [] := by
  constructor
  · intro k
    cases k with
    | zero => rfl
    | succ k =>
      simp only [occurrencesUntil, h.next, Moment.utc, hz.instant_momentAt, inRange_eq_ok h.inRange,
        bind, Except.bind, if_pos hlt]
      rfl
  · exact List.Pairwise.nil
  · intro n
    simp only [List.not_mem_nil, false_iff]
    rintro ⟨hn, hlo, hhi⟩
    have := h.least n hn hlo
    omega

theorem Follows.lists_cons (h : t.Follows m v) (hz : m.zone.Spaced (Change.MovesForward 21600))
    (hle : v * 1000000 ≤ limit) (hl : t.Lists (m.zone.momentAt v) limit l) :
    t.Lists m limit (m.zone.momentAt v :: l) := by
  have hv := hz.instant_momentAt v
  have hlt := h.lt
  constructor
  · intro k
    cases k with
    | zero => rfl
    | succ k =>
      simp only [occurrencesUntil, h.next, Moment.utc, hv, inRange_eq_ok h.inRange, bind,
        Except.bind, if_neg (Int.not_lt.2 hle), hl.take k]
      rfl
  · refine List.pairwise_cons.2 ⟨fun n hn => ?_, hl.sorted⟩
    exact ((hl.mem n).1 hn).2.1
  · intro n
    rw [List.mem_cons, hl.mem]
    constructor
    · rintro (rfl | ⟨hn, hlo, hhi⟩)
      · exact ⟨h.fires, by omega, by omega⟩
      · exact ⟨hn, by omega, hhi⟩
    · rintro ⟨hn, hlo, hhi⟩
      -- a fire time at the instant of the next one is the next one
      have hleast := h.least n hn hlo
      obtain ⟨time, hfire⟩ := hn
      obtain ⟨x, -, rfl, -⟩ := hfire.exists_instant hz
      have hx := hz.instant_momentAt (m.zone.instantOf x false)
      rcases Int.lt_or_eq_of_le (show v ≤ m.zone.instantOf x false by omega) with hvx | hvx
      · exact .inr ⟨⟨time, hfire⟩, by omega, hhi⟩
      · exact .inl (by rw [hvx])

end

namespace Perennial

/-- A fire time after the next year and before the last year of a search. -/
theorem exists_fireOf (h : t.Perennial m.zone) (hw : m.Whole clock u)
    (hy : 2 ≤ (date m.time).year) (hy' : (date m.time).year ≤ 9898) (hfires : t.FiresAt m.zone n) :
    ∃ time n', t.FireOf m.zone time n' ∧ Direction.forward.eligible n'.posix m.posix = true ∧
      (date time).year + 2 ≤ (date m.time).year + t.maxYears := by
  obtain ⟨time, hfire⟩ := hfires
  obtain ⟨x, hm, hf, hlt, hle⟩ :=
    exists_fires_after h.everyYear hfire.whole hfire.fires ((date m.time).year + 1)
  have hx := seconds_mul_of_micros hm
  have hi : Inner (LocalTime.seconds x) := inner_of_year (by omega) (by omega)
  rw [← hx] at hf hlt hle
  refine ⟨_, _, fireOf_instant h.spaced hi hf, ?_, by have := h.maxYears; omega⟩
  -- more than a year lies between the clock times, less than a day between each and its instant
  have hfar : ¬ LocalTime.seconds x * 1000000 ≤ m.time + 31536000000000 := by
    intro hnear
    have := year_le_succ hnear
    omega
  have hnear := h.spaced.instantOf_near (LocalTime.seconds x) false
  have hu := hw.near h.spaced
  have hc := hw.time
  have hmin := hw.inner hy (by omega)
  unfold Inner at hi hmin
  have hsharp := hw.sharp (by omega)
  refine (Direction.eligible_momentAt h.spaced (by omega) hsharp).trans (hw.ahead_iff.2 ?_)
  simp only [Direction.key]
  omega

/-- **The next fire time is the nearest one, and there is none only if the schedule never fires.**
-/
theorem next_cases (h : t.Perennial m.zone) (hw : m.Whole clock u) (hy : 2 ≤ (date m.time).year)
    (hy' : (date m.time).year ≤ 9898) :
    (∃ v, t.Follows m v) ∨ t.next m = .ok none ∧ ∀ n, ¬ t.FiresAt m.zone n := by
  have hmax := h.maxYears
  have hyears : t.WithinYears .forward m := by
    simp only [WithinYears, Direction.leastYear, Direction.greatestYear, hmax]
    omega
  have hs : t.SkipSetting .forward m clock u := ⟨h.sound, hw, h.spaced, hyears, by omega⟩
  by_cases hex : ∃ n, t.FiresAt m.zone n
  · left
    obtain ⟨n₀, hn₀⟩ := hex
    obtain ⟨n, hfound, hnearest⟩ := hs.search_forward (h.exists_fireOf hw hy hy' hn₀)
    have hseek := hfound
    rw [hs.search_eq] at hseek
    obtain ⟨v, hv, rfl⟩ := Option.map_eq_some_iff.1 (Except.ok.inj hseek)
    obtain ⟨hahead, w, hw', hwv⟩ := (Direction.seek_sound hv).resolve_left (Option.some_ne_none v).symm
    have hi := hs.inner_of_mem hw'
    have hvb := hs.natAbs_instantOf_lt hw'
    have hnear := h.spaced.instantOf_near w false
    rw [hwv] at hvb hnear
    unfold Inner at hi
    refine ⟨v, hfound, hnearest.fires, inRange_mul_iff.2 (by omega), ?_, ?_⟩
    · rw [hw.ahead_iff] at hahead
      simp only [Direction.key] at hahead
      rw [hw.instant_eq]
      omega
    · intro n hn hlt
      obtain ⟨time, hfire⟩ := hn
      obtain ⟨x, -, rfl, hxb⟩ := hfire.exists_instant h.spaced
      rw [h.spaced.instant_momentAt, hw.instant_eq] at hlt
      have hax := hs.eligible_iff hxb
      rw [hw.ahead_iff.2 (by simp only [Direction.key]; omega)] at hax
      have hle := (hs.closer_iff hxb hvb).1 (hnearest.nearest _ ⟨time, hfire⟩ hax)
      simp only [Direction.key] at hle
      rw [h.spaced.instant_momentAt]
      omega
  · right
    rw [not_exists] at hex
    refine ⟨?_, hex⟩
    rw [next, hs.search_eq]
    cases hseek : Direction.forward.seek m.instant m.zone none (t.metAcross .forward m clock u) with
    | none => rfl
    | some v =>
      obtain ⟨-, w, hw', -⟩ :=
        (Direction.seek_sound hseek).resolve_left (Option.some_ne_none v).symm
      exact absurd ⟨_, hs.fireOf_of_mem hw'⟩ (hex _)

/-- **The fire times up to a limit are all of them**, in the order of their instants. -/
theorem exists_lists (h : t.Perennial z) {limit : Int} (hl : limit ≤ 249000000000000000)
    (hz : m.zone = z) (hw : m.Whole clock u) (hu : -62000000000 ≤ u) (hu' : u ≤ 249000000000) :
    ∃ l, t.Lists m limit l := by
  -- each step brings the moment nearer to the limit
  induction hk : (limit - u * 1000000).toNat using Nat.strong_induction_on
    generalizing m clock u with
  | _ k ih =>
    subst hz
    have hnear := hw.near h.spaced
    have hc := hw.time
    have hy : ¬ (date m.time).year < 2 := by
      rw [year_lt_iff, show startOfYear 2 = -62104060800000000 by decide]
      omega
    have hy' : (date m.time).year < 9899 := by
      rw [year_lt_iff, show startOfYear 9899 = 250215091200000000 by decide]
      omega
    rcases h.next_cases hw (by omega) (by omega) with ⟨v, hv⟩ | ⟨hnext, hnone⟩
    · by_cases hlt : limit < v * 1000000
      · exact ⟨[], hv.lists_of_lt h.spaced hlt⟩
      · have huv := hv.lt
        rw [hw.instant_eq] at huv
        have hwv : (m.zone.momentAt v).Whole (m.zone.clockAt v) v :=
          ⟨rfl, (h.spaced.instantOf_clockAt v).symm⟩
        obtain ⟨l, hlists⟩ := ih (limit - v * 1000000).toNat (by omega) (zone_momentAt _ v) hwv
          (by omega) (by omega) rfl
        exact ⟨_, hv.lists_cons h.spaced (by omega) hlists⟩
    · exact ⟨[], lists_of_next_eq_none hnext hnone⟩

end Perennial

/-- **The fire times between two moments are all of them, each instant once and in order.** -/
theorem between_movesForward {s : Schedule} (hD : s.definition ∈ Dialect.all)
    (hv : s.validate = .ok ()) (hyear : s.expr? .year = none) {start stop : Moment}
    (hz : start.zone.Spaced (Change.MovesForward 21600)) (hm : micros start.time = 0)
    (hy : 102 ≤ (date start.time).year ∧ (date start.time).year ≤ 9850)
    (hy' : 102 ≤ (date stop.time).year ∧ (date stop.time).year ≤ 9850)
    (ho : WithinDay stop.offset) :
    ∃ t, of? s defaultYears = .ok t ∧ ∃ l : List Moment,
      (∀ k, t.between k (some start.stamp) (some stop.stamp) = .ok (l.take k)) ∧
        l.Pairwise (fun a b => a.instant < b.instant) ∧
          ∀ n, n ∈ l ↔ t.FiresAt start.zone n ∧ start.instant < n.instant ∧
            n.instant ≤ stop.instant := by
  obtain ⟨t, ht, rfl, hmax, hsound⟩ := exists_of_validate hD hv (by decide : 1 ≤ defaultYears)
  have h : t.Perennial start.zone := ⟨hsound, everyYear_of_expr? hyear, hmax, hz⟩
  have hw : start.Whole (LocalTime.seconds start.time)
      (start.zone.instantOf (LocalTime.seconds start.time) start.secondPass) :=
    ⟨(seconds_mul_of_micros hm).symm, rfl⟩
  have hnear := hw.near hz
  have hc := hw.time
  have hbounds : ∀ m : Moment, 102 ≤ (date m.time).year ∧ (date m.time).year ≤ 9850 →
      -58948387200000000 ≤ m.time ∧ m.time < 248700326400000000 := by
    intro m hm
    have hlo := year_lt_iff (t := m.time) (y := 102)
    have hhi := year_lt_iff (t := m.time) (y := 9851)
    rw [show startOfYear 102 = -58948387200000000 by decide] at hlo
    rw [show startOfYear 9851 = 248700326400000000 by decide] at hhi
    omega
  have hstart := hbounds start hy
  have hstop := hbounds stop hy'
  have hlimit : stop.instant = stop.time - stop.offset * 1000000 := rfl
  unfold WithinDay at ho
  have hr : InRange stop.instant := by
    unfold InRange
    rw [first_eq, last_eq]
    omega
  obtain ⟨l, hlists⟩ :=
    h.exists_lists (show stop.instant ≤ 249000000000000000 by omega) rfl hw (by omega) (by omega)
  refine ⟨t, ht, l, fun k => ?_, hlists.sorted, hlists.mem⟩
  cases k with
  | zero => rfl
  | succ k =>
    rw [between, if_neg (Nat.succ_ne_zero k)]
    simp only [Stamp.moment, Moment.stamp, Moment.utc, bind, Except.bind, inRange_eq_ok hr]
    exact hlists.take _

/-- The stop, in UTC. -/
def twentyToThreeUtc : Moment := ⟨fixed 0, 1728142800000000, false⟩

/-- From a skipped time on, both fire times of the night are listed, the pushed one up to which the
window goes as well. -/
theorem between_skippedTwenty :
    ∃ t, of? twiceAtTwo defaultYears = .ok t ∧ ∃ l : List Moment,
      (∀ k, t.between k (some skippedTwenty.stamp) (some twentyToThreeUtc.stamp) =
        .ok (l.take k)) ∧ twentyFiveToThree ∈ l ∧ twentyToThreePushed ∈ l := by
  have hy : (date skippedTwenty.time).year = 2024 := by rfl
  have hy' : (date twentyToThreeUtc.time).year = 2024 := by rfl
  obtain ⟨t, ht, l, htake, -, hmem⟩ := between_movesForward (s := twiceAtTwo) List.mem_cons_self
    (by rfl) (by rfl) spaced_halfHourForward (by rfl : micros skippedTwenty.time = 0) (by omega)
    (show 102 ≤ (date twentyToThreeUtc.time).year ∧ _ by omega) (by decide)
  obtain rfl := Except.ok.inj (of?_twiceAtTwo.symm.trans ht)
  refine ⟨_, ht, l, htake, (hmem _).2 ⟨⟨_, fireOf_twentyFiveToThree⟩, ?_⟩,
    (hmem _).2 ⟨⟨_, fireOf_twentyToThreePushed⟩, ?_⟩⟩
  · decide +kernel
  · decide +kernel

end Timetable

end CronSchedule
