import CronSchedule.Proofs.Timetable.Walk
import CronSchedule.Proofs.Zone.Resolve
import CronSchedule.Timetable.Search
import Mathlib.Tactic.ByContra

/-!
# What a search meets and what it should find

A search walks through clock times and compares the instants of their moments. Where it starts at a
whole second, all of this is told in whole seconds.

* `Direction.ahead`: whether an instant is on the searched side of another.
* `Timetable.clocks` are the clock times that a search meets, in seconds, and `Timetable.outcome` is
  its answer.
* `Timetable.Nearest` is what a search should find: the nearest of all moments at which the schedule
  fires.
* `Timetable.mem_clocks_of_le`: **a search meets every fire time from its start up to a year before
  the last year it looks at.**
-/

namespace CronSchedule

open LocalTime Moment Zone

namespace Direction

variable {dir : Direction} {z : Zone} {P : Change → Prop} {xs : List Int} {ref : Int}

/-- A number that grows along the way. -/
def key (dir : Direction) (a : Int) : Int :=
  match dir with
  | forward => a
  | backward => -a

theorem precedes_iff {a b : Int} : dir.precedes a b = true ↔ dir.key a < dir.key b := by
  cases dir <;> simp [precedes, key]

theorem precedes_eq_false_iff {a b : Int} : dir.precedes a b = false ↔ dir.key b ≤ dir.key a := by
  cases dir <;> simp [precedes, key]

theorem key_mul (dir : Direction) (a k : Int) : dir.key (a * k) = dir.key a * k := by
  cases dir with
  | forward => rfl
  | backward => exact (Int.neg_mul a k).symm

theorem key_inj {a b : Int} (h : dir.key a = dir.key b) : a = b := by
  cases dir <;> simp only [key] at h <;> omega

/-- Whether an instant, in seconds, is on the searched side of one in microseconds. -/
def ahead (dir : Direction) (ref u : Int) : Bool := dir.precedes ref (u * 1000000)

theorem ahead_iff {u : Int} : dir.ahead ref u = true ↔ dir.key ref < dir.key u * 1000000 := by
  rw [ahead, precedes_iff, key_mul]

/-- Clock times in the order of the way. -/
def Sorted (dir : Direction) (xs : List Int) : Prop :=
  xs.Pairwise fun a b => dir.precedes a b = true

theorem Sorted.tail {x : Int} (h : dir.Sorted (x :: xs)) : dir.Sorted xs :=
  (List.pairwise_cons.1 h).2

theorem Sorted.lt {x : Int} (h : dir.Sorted (x :: xs)) : ∀ y ∈ xs, dir.key x < dir.key y :=
  fun y hy => precedes_iff.1 ((List.pairwise_cons.1 h).1 y hy)

theorem eligible_momentAt (hz : z.Spaced P) {u ref : Int}
    (hu : u.natAbs < 2 ^ 53) (hr : Posix.Sharp ref) :
    dir.eligible (z.momentAt u).posix (Posix.ofMicros ref) = dir.ahead ref u := by
  rw [hz.posix_momentAt hu, Bool.eq_iff_iff]
  cases dir with
  | forward =>
    simp only [eligible, ahead, precedes, decide_eq_true_eq, Posix.ofMicros_lt_iff hr]
  | backward =>
    simp only [eligible, ahead, precedes, decide_eq_true_eq, Posix.lt_ofMicros_iff hr]

theorem closer_momentAt (dir : Direction) (hz : z.Spaced P) {u v : Int}
    (hu : u.natAbs < 2 ^ 53) (hv : v.natAbs < 2 ^ 53) :
    dir.closer (z.momentAt u) (z.momentAt v) = dir.precedes u v := by
  rw [closer, hz.posix_momentAt hu, hz.posix_momentAt hv, Bool.eq_iff_iff, precedes_iff,
    precedes_iff, key_mul, key_mul, Posix.unitsPerSecond_eq]
  omega

end Direction

namespace Moment

variable {m : Moment} {P : Change → Prop}

theorem withinDay_offset (hz : m.zone.Spaced P) : WithinDay m.offset := by
  obtain ⟨c, hc⟩ := hz.exists_changeNear (LocalTime.seconds m.time)
  exact hc.withinDay_localOffset m.secondPass

/-- The jump before a moment is told from the offset at some instant before it. -/
theorem exists_forwardJump (hz : m.zone.Spaced P) (hi : Inner (LocalTime.seconds m.time)) :
    ∃ u, m.forwardJump = .ok (max (m.offset - m.zone.offsetAt u) 0) := by
  have ho := withinDay_offset hz
  have hinstant : m.instant = m.time - m.offset * 1000000 := rfl
  unfold WithinDay at ho
  unfold Inner LocalTime.seconds at hi
  have hx := Posix.toMicros_subSeconds_near (x := m.instant) (s := probeSeconds) (by omega)
    (by decide)
  rw [← Moment.posix, show probeSeconds = 21600 from rfl] at hx
  rw [forwardJump, ofPosix, ofInstant, show probeSeconds = 21600 from rfl]
  generalize Posix.toMicros (Posix.subSeconds m.posix 21600) = x at hx
  have ho' := hz.withinDay_offsetAt (LocalTime.seconds x)
  unfold WithinDay at ho'
  have hr : InRange x := by
    unfold InRange
    rw [first_eq, last_eq]
    omega
  have hr' : InRange (x + m.zone.offsetAt (LocalTime.seconds x) * 1000000) := by
    unfold InRange
    rw [first_eq, last_eq]
    omega
  refine ⟨LocalTime.seconds x, ?_⟩
  -- the clock time is read back with the offset of its instant
  have hclock : LocalTime.seconds (x + m.zone.offsetAt (LocalTime.seconds x) * 1000000) =
      m.zone.clockAt (LocalTime.seconds x) := by
    unfold clockAt LocalTime.seconds
    omega
  have hback := hz.instantOf_clockAt (LocalTime.seconds x)
  unfold instantOf at hback
  have hearlier : m.zone.localOffset (m.zone.clockAt (LocalTime.seconds x))
      (m.zone.inSecondPass (LocalTime.seconds x)) = m.zone.offsetAt (LocalTime.seconds x) := by
    rw [clockAt] at hback ⊢
    omega
  simp only [inRange_eq_ok hr, inRange_eq_ok hr', bind, Except.bind, pure, Except.pure, Moment.offset,
    hclock, hearlier]

end Moment

/-! ### A moment of a whole second -/

/-- A moment of a whole second, its clock time in seconds and its instant. -/
structure Moment.Whole (m : Moment) (clock u : Int) : Prop where
  time : m.time = clock * 1000000
  instant : u = m.zone.instantOf clock m.secondPass

namespace Moment.Whole

variable {m : Moment} {clock u : Int} {dir : Direction} {P : Change → Prop}

theorem wholeSecond_eq (h : m.Whole clock u) : wholeSecond m.time = clock * 1000000 := by
  rw [LocalTime.wholeSecond_eq, h.time, seconds_mul]

theorem instant_eq (h : m.Whole clock u) : m.instant = u * 1000000 := by
  obtain ⟨z, time, second⟩ := m
  obtain ⟨rfl, rfl⟩ := h
  exact instant_reading z clock second

theorem posix_eq (h : m.Whole clock u) (hu : u.natAbs < 2 ^ 53) :
    m.posix = u * Posix.unitsPerSecond := by
  rw [Moment.posix, h.instant_eq, Posix.ofMicros_whole hu]

theorem sharp (h : m.Whole clock u) (hu : u.natAbs < 2 ^ 53) : Posix.Sharp m.instant := by
  rw [h.instant_eq]
  unfold Posix.Sharp
  omega

theorem near (h : m.Whole clock u) (hz : m.zone.Spaced P) :
    clock - 86400 < u ∧ u < clock + 86400 := by
  rw [h.instant]
  exact hz.instantOf_near clock _

theorem ahead_iff (h : m.Whole clock u) {v : Int} :
    dir.ahead m.instant v = true ↔ dir.key u < dir.key v := by
  rw [Direction.ahead_iff, h.instant_eq, Direction.key_mul]
  omega

theorem inner (h : m.Whole clock u) (hy : 2 ≤ (date m.time).year)
    (hy' : (date m.time).year ≤ 9998) : Inner clock := by
  have hi := inner_of_year hy hy'
  rwa [h.time, seconds_mul] at hi

theorem natAbs_lt (h : m.Whole clock u) (hz : m.zone.Spaced P) (hi : Inner clock) :
    u.natAbs < 2 ^ 53 := by
  have hn := h.near hz
  unfold Inner at hi
  omega

theorem offset_eq_sub (h : m.Whole clock u) : m.offset = clock - u := by
  have hi := h.instant
  unfold instantOf at hi
  rw [Moment.offset, h.time, seconds_mul]
  omega

/-- How far the clock was moved forward in the six hours before a moment. -/
theorem forwardJump_eq (h : m.Whole clock u) (hz : m.zone.Spaced P) (hi : Inner clock) :
    m.forwardJump = .ok (max (clock - u - m.zone.offsetAt (u - 21600)) 0) := by
  have hn := h.near hz
  have he := hz.clockAt_near (u - 21600)
  unfold Inner at hi
  have hs : m.zone.Shown (u - 21600) := by
    unfold Shown
    rw [inRange_mul_iff, inRange_mul_iff]
    omega
  simp only [Moment.forwardJump, ofPosix, h.posix_eq (by omega), probeSeconds]
  rw [Posix.subSeconds_whole (by omega), Posix.toMicros_whole, ofInstant_eq,
    show u - 6 * 3600 = u - 21600 by omega, if_pos hs]
  simp only [bind, Except.bind, pure, Except.pure, hz.offset_momentAt, h.offset_eq_sub]

end Moment.Whole

namespace Timetable

variable {t : Timetable} {dir : Direction} {m n : Moment} {z : Zone} {P : Change → Prop}
  {clock a w : Int}

open Direction

/-! ### What a search should find -/

/-- A moment that a fire time stands for. -/
structure FireOf (t : Timetable) (z : Zone) (time : Int) (n : Moment) : Prop where
  inRange : InRange time
  whole : micros time = 0
  fires : t.fires time = .ok true
  moment : ∃ l, instantsOf z time = .ok l ∧ n ∈ l

/-- A moment at which the schedule fires in a zone. -/
def FiresAt (t : Timetable) (z : Zone) (n : Moment) : Prop := ∃ time, t.FireOf z time n

/-- A moment of a fire time is one of those that its clock time stands for. -/
theorem FireOf.exists_resolve (hz : z.Spaced P) {time : Int} (h : t.FireOf z time n) :
    ∃ w, time = w * 1000000 ∧ InRange (w * 1000000) ∧ t.fires (w * 1000000) = .ok true ∧
      n ∈ z.resolve w := by
  obtain ⟨hr, hm, hf, l, hl, hn⟩ := h
  obtain ⟨w, rfl⟩ : ∃ w, time = w * 1000000 := ⟨_, (seconds_mul_of_micros hm).symm⟩
  obtain rfl := hz.eq_resolve hr hl
  exact ⟨w, rfl, hr, hf, hn⟩

theorem fireOf_of_mem_resolve (hz : z.Spaced P) (hi : Inner w)
    (hf : t.fires (w * 1000000) = .ok true) (hn : n ∈ z.resolve w) :
    t.FireOf z (w * 1000000) n := by
  refine ⟨?_, by unfold micros; omega, hf, _, hz.instantsOf_eq hi, hn⟩
  unfold Inner at hi
  rw [inRange_mul_iff]
  omega

/-- The nearest of all moments at which the schedule fires, strictly on the searched side. -/
structure Nearest (t : Timetable) (dir : Direction) (m n : Moment) : Prop where
  fires : t.FiresAt m.zone n
  eligible : dir.eligible n.posix m.posix = true
  nearest : ∀ n', t.FiresAt m.zone n' → dir.eligible n'.posix m.posix = true →
    dir.closer n' n = false

/-- The years that a search looks at lie within the years 2 to 9998. -/
def WithinYears (t : Timetable) (dir : Direction) (m : Moment) : Prop :=
  (2 ≤ (date m.time).year ∧ (date m.time).year ≤ 9998) ∧
    2 ≤ dir.leastYear (date m.time).year t.maxYears ∧
      dir.greatestYear (date m.time).year t.maxYears ≤ 9998

/-! ### The clock times of the search -/

/-- The clock times that a search meets, in seconds. -/
def clocks (t : Timetable) (dir : Direction) (start : Int) : List Int :=
  (t.times dir start).map LocalTime.seconds

theorem times_eq_map (ht : t.Sound) (dir : Direction) (start : Int) :
    t.times dir start = (t.clocks dir start).map (· * 1000000) := by
  rw [clocks, List.map_map]
  refine (List.map_id _).symm.trans (List.map_congr_left ?_)
  intro x hx
  exact (seconds_mul_of_micros (((enumerates_times ht dir start).mem x).1 hx).1.1).symm

theorem mem_clocks (ht : t.Sound) {start w : Int} :
    w ∈ t.clocks dir start ↔
      t.Walked dir start (w * 1000000) ∧
        dir.precedes (w * 1000000) (wholeSecond start) = false := by
  have h := (enumerates_times ht dir start).mem (w * 1000000)
  rw [times_eq_map ht] at h
  simpa using h

theorem sorted_clocks (ht : t.Sound) (start : Int) : dir.Sorted (t.clocks dir start) := by
  have h := (enumerates_times ht dir start).sorted
  rw [times_eq_map ht, List.pairwise_map] at h
  refine h.imp fun hab => ?_
  rw [precedes_iff, key_mul, key_mul] at hab
  rw [precedes_iff]
  omega

/-- The clock times that a search meets lie within the years 2 to 9998 and the days before them,
wherever in two days before its moment it starts. -/
theorem bounds_of_mem_clocks (ht : t.Sound) (hy : t.WithinYears dir m)
    (ha : dir.key (LocalTime.seconds m.time) - 172800 ≤ dir.key a ∧
      dir.key a ≤ dir.key (LocalTime.seconds m.time))
    (hw : w ∈ t.clocks dir (a * 1000000)) : -62105000000 ≤ w ∧ w ≤ 253371000000 := by
  obtain ⟨⟨-, -, h1, h2⟩, h3⟩ := (mem_clocks ht).1 hw
  have hm := wholeSecond_eq m.time
  rw [WithinYears, ← date_wholeSecond, hm] at hy
  obtain ⟨⟨hy1, hy2⟩, hy3, hy4⟩ := hy
  have h4 := le_of_two_le_year hy1
  have h5 := lt_of_year_le hy2
  rw [wholeSecond, micros, Int.mul_emod_left, Int.sub_zero, precedes_eq_false_iff, key_mul,
    key_mul] at h3
  generalize LocalTime.seconds m.time = clock at *
  cases dir with
  | forward =>
    simp only [key, leastYear, greatestYear] at *
    have hay := year_mono (show a * 1000000 ≤ clock * 1000000 by omega)
    have h6 := lt_of_year_le (show (date (w * 1000000)).year ≤ 9998 by omega)
    omega
  | backward =>
    simp only [key, leastYear, greatestYear] at *
    have hay := year_mono (show clock * 1000000 ≤ a * 1000000 by omega)
    have h6 := le_of_two_le_year (show 2 ≤ (date (w * 1000000)).year by omega)
    omega

theorem inner_of_mem_clocks (ht : t.Sound) (hy : t.WithinYears dir m) (hm : m.time = clock * 1000000)
    (ha : dir.key clock - 172800 ≤ dir.key a ∧ dir.key a ≤ dir.key clock)
    (hw : w ∈ t.clocks dir (a * 1000000)) : Inner w := by
  have hb := bounds_of_mem_clocks ht hy (by rwa [hm, seconds_mul]) hw
  unfold Inner
  omega

/-- **A search meets a fire time that does not come before its start**, up to a year before the last
year it looks at. -/
theorem mem_clocks_of_le (ht : t.Sound) (hy : t.WithinYears dir m) (hm : m.time = clock * 1000000)
    (ha : dir.key clock - 172800 ≤ dir.key a ∧ dir.key a ≤ dir.key clock)
    (hf : t.fires (w * 1000000) = .ok true) (hw : dir.key a ≤ dir.key w)
    (hyw : dir.key (date (w * 1000000)).year + 1 ≤ dir.key (date m.time).year + t.maxYears) :
    w ∈ t.clocks dir (a * 1000000) := by
  obtain ⟨-, hy3, hy4⟩ := hy
  rw [mem_clocks ht, Walked, wholeSecond, micros, micros, Int.mul_emod_left, Int.mul_emod_left,
    Int.sub_zero, precedes_eq_false_iff, key_mul, key_mul]
  rw [hm] at hy3 hy4 hyw
  refine ⟨⟨rfl, hf, ?_⟩, by omega⟩
  cases dir with
  | forward =>
    simp only [key, leastYear, greatestYear] at *
    have haw := year_mono (show a * 1000000 ≤ w * 1000000 by omega)
    have hay := year_le_succ (show clock * 1000000 ≤ a * 1000000 + 31536000000000 by omega)
    omega
  | backward =>
    simp only [key, leastYear, greatestYear] at *
    have haw := year_mono (show w * 1000000 ≤ a * 1000000 by omega)
    have hay := year_le_succ (show a * 1000000 ≤ clock * 1000000 + 31536000000000 by omega)
    omega

/-! ### The answer of a search -/

/-- The answer of a search whose walk has ended. -/
def outcome : Except (Halt Moment) (Option Moment) → Except TimeError (Option Moment)
  | .ok best => .ok best
  | .error (.done best) => .ok (some best)
  | .error (.failed e) => .error e

theorem search_of_start {m : Moment} {start : Int} (h : searchStart dir m = .ok start) :
    t.search dir m = outcome (t.walk dir start (consider dir m.zone m.posix) none) := by
  simp only [search, h, bind, Except.bind]
  generalize t.walk dir start (consider dir m.zone m.posix) none = r
  rcases r with (⟨best⟩ | ⟨e⟩) | best <;> rfl

end Timetable

end CronSchedule
