import CronSchedule.Proofs.Search.Scan
import Mathlib.Order.Bounds.Defs
import Mathlib.Data.Set.Basic

/-!
# Searches in a zone with one offset for all time

* `Timetable.search_fixed`: a search finds the nearest clock time on the searched side at
  which the schedule fires, among those of the years that it looks at.
* `Timetable.next_last_fixed`: **the next fire time is the least fire time after the moment and
  the last fire time is the greatest one before it, and there is none exactly where there is no
  such time.**
-/

namespace CronSchedule

open LocalTime Moment Zone

theorem Zone.spaced_fixed {offset : Int} (h : WithinDay offset) :
    (fixed offset).Spaced (Change.MovesBack 0) := by
  constructor
  · exact h
  · intro t ht
    cases ht
  · exact List.Pairwise.nil
  · intro c hc
    cases hc

variable {offset : Int} {m : Moment}

theorem Moment.offset_fixed (hz : m.zone = fixed offset) : m.offset = offset := by
  rw [Moment.offset, hz, localOffset_fixed]

theorem Moment.forwardJump_fixed (hz : m.zone = fixed offset) (ho : WithinDay offset)
    (hi : Inner (LocalTime.seconds m.time)) : m.forwardJump = .ok 0 := by
  obtain ⟨u, hu⟩ := exists_forwardJump (hz ▸ spaced_fixed ho) hi
  rw [hu, offset_fixed hz, hz, offsetAt_fixed, Int.sub_self, Int.max_self]

/-- No time is skipped in a zone with one offset, so a moment is a fire time if the schedule fires
at its local time. -/
theorem Timetable.isMatch_fixed (hz : m.zone = fixed offset) (ho : WithinDay offset)
    (hi : Inner (LocalTime.seconds m.time)) (t : Timetable) :
    t.isMatch m = if micros m.time ≠ 0 then .ok false else t.fires m.time := by
  have hskip : m.skipped? = .ok none := by
    rw [skipped?, forwardJump_fixed hz ho hi]
    rfl
  rw [isMatch, hskip]
  by_cases hm : micros m.time ≠ 0
  · rw [if_pos hm, if_pos hm]
    rfl
  · rw [if_neg hm, if_neg hm]
    cases t.fires m.time with
    | error e => rfl
    | ok b =>
      cases b with
      | true => rfl
      | false => rfl

namespace Direction

variable {dir : Direction} {S : Set Int}

/-- The first of a set of times on the way. -/
def IsNearest (dir : Direction) (S : Set Int) (w : Int) : Prop :=
  w ∈ S ∧ ∀ v ∈ S, dir.precedes v w = false

theorem IsNearest.unique {v w : Int} (hv : dir.IsNearest S v) (hw : dir.IsNearest S w) : v = w := by
  have h1 := precedes_eq_false_iff.1 (hv.2 w hw.1)
  have h2 := precedes_eq_false_iff.1 (hw.2 v hv.1)
  exact key_inj (Int.le_antisymm h1 h2)

theorem isNearest_forward {w : Int} : forward.IsNearest S w ↔ IsLeast S w := by
  simp [IsNearest, IsLeast, lowerBounds, precedes]

theorem isNearest_backward {w : Int} : backward.IsNearest S w ↔ IsGreatest S w := by
  simp [IsNearest, IsGreatest, upperBounds, precedes]

/-- An answer that is right where there is one, and is missing only where it must be. -/
theorem eq_some_iff_isNearest {r : Option Int} (h : ∀ w ∈ r, dir.IsNearest S w)
    (h' : r = none → S = ∅) : (∀ w, r = some w ↔ dir.IsNearest S w) ∧ (r = none ↔ S = ∅) := by
  cases r with
  | none =>
    obtain rfl := h' rfl
    refine ⟨fun w => ⟨fun hw => ?_, fun hw => absurd hw.1 (Set.notMem_empty w)⟩, by simp⟩
    cases hw
  | some w =>
    have hw := h w rfl
    refine ⟨fun v => ⟨fun hv => h v hv, fun hv => by rw [hw.unique hv]⟩, ?_⟩
    simp only [reduceCtorEq, false_iff]
    rintro rfl
    exact Set.notMem_empty w hw.1

end Direction

namespace Timetable

variable {t : Timetable} {dir : Direction}

theorem searchStart_fixed (hz : m.zone = fixed offset) (ho : WithinDay offset)
    (hi : Inner (LocalTime.seconds m.time)) : searchStart dir m = .ok (wholeSecond m.time) := by
  have hw := wholeSecond_eq m.time
  have hr : InRange (wholeSecond m.time) := by
    rw [hw, inRange_mul_iff]
    unfold Inner at hi
    omega
  have hm := (spaced_fixed ho).instantsOf_movesBack hi
  simp only [instantOf, localOffset_fixed, if_true] at hm
  rw [← hz, ← hw] at hm
  cases dir with
  | forward =>
    simp only [searchStart, hm, bind, Except.bind, forwardJump_fixed hz ho hi, Int.zero_mul,
      Int.sub_zero, inRange_eq_ok hr]
  | backward =>
    simp only [searchStart, hm, bind, Except.bind, pure, Except.pure]

/-- The fire times on the searched side of a moment, within the years that a search looks at. -/
def reach (t : Timetable) (dir : Direction) (m : Moment) : Set Int :=
  {w | micros w = 0 ∧ t.fires w = .ok true ∧ dir.precedes m.time w = true ∧
    dir.key (date w).year ≤ dir.key (date m.time).year + t.maxYears}

/-- The search meets the fire times in its reach. -/
theorem mem_clocks_of_reach (ht : t.Sound) (hy : 1 ≤ (date m.time).year - t.maxYears)
    (hy' : (date m.time).year + t.maxYears ≤ 9999) {w : Int} (h : w * 1000000 ∈ t.reach dir m) :
    w ∈ t.clocks dir (wholeSecond m.time) := by
  obtain ⟨h0, hf, hp, hle⟩ := h
  have hs := wholeSecond_le m.time
  rw [mem_clocks ht, Walked, date_wholeSecond]
  refine ⟨⟨h0, hf, ?_⟩, ?_⟩
  · cases dir <;> simp only [Direction.key, Direction.precedes, decide_eq_true_eq,
      Direction.leastYear, Direction.greatestYear] at *
    · have := year_mono (Int.le_of_lt hp)
      omega
    · have := year_mono (Int.le_of_lt hp)
      omega
  · have h1 := micros_wholeSecond m.time
    have h2 := micros_wholeSecond (wholeSecond m.time)
    have h3 := wholeSecond_le (wholeSecond m.time)
    unfold micros at h0 h1 h2
    rw [Direction.precedes_eq_false_iff]
    rw [Direction.precedes_iff] at hp
    cases dir <;> simp only [Direction.key] at * <;> omega

/-- What the search meets on the searched side is in its reach. -/
theorem reach_of_mem_clocks (ht : t.Sound) {w : Int}
    (h : w ∈ t.clocks dir (wholeSecond m.time))
    (hp : dir.precedes m.time (w * 1000000) = true) : w * 1000000 ∈ t.reach dir m := by
  obtain ⟨⟨h0, hf, hle, hge⟩, -⟩ := (mem_clocks ht).1 h
  rw [date_wholeSecond] at hle hge
  refine ⟨h0, hf, hp, ?_⟩
  cases dir <;> simp only [Direction.key, Direction.leastYear, Direction.greatestYear] at * <;>
    omega

/-- **A search finds the nearest fire time in its reach, and none exactly where there is
none.** -/
theorem search_fixed (dir : Direction) (ht : t.Sound) (hz : m.zone = fixed offset)
    (ho : WithinDay offset)
    (hy : 2 ≤ (date m.time).year - t.maxYears) (hy' : (date m.time).year + t.maxYears ≤ 9998)
    (hn : 1 ≤ t.maxYears) (hs : Posix.Sharp m.instant) :
    ∃ r : Option Int, t.search dir m = .ok (r.map fun w => ⟨m.zone, w, false⟩) ∧
      (∀ w, r = some w ↔ dir.IsNearest (t.reach dir m) w) ∧ (r = none ↔ t.reach dir m = ∅) := by
  have hl := le_of_two_le_year (t := m.time) (by omega)
  have hu := lt_of_year_le (t := m.time) (by omega)
  have hi : Inner (LocalTime.seconds m.time) := inner_of_year (by omega) (by omega)
  have hsp := spaced_fixed ho
  -- both readings of a clock time are one
  have hnear : ∀ w, dir.near m.zone w = w - offset := fun w => by rw [hz]; rfl
  have hfar : ∀ w, dir.far m.zone w = w - offset := fun w => by rw [hz]; rfl
  have hahead : ∀ w, dir.ahead m.instant (w - offset) = dir.precedes m.time (w * 1000000) :=
    fun w => by
      rw [Bool.eq_iff_iff, Direction.ahead_iff, Direction.precedes_iff, Moment.instant,
        offset_fixed hz]
      cases dir <;> simp only [Direction.key] <;> omega
  have hinner : ∀ w ∈ t.clocks dir (wholeSecond m.time), Inner w := by
    intro w hw
    obtain ⟨⟨-, -, h1, h2⟩, -⟩ := (mem_clocks ht).1 hw
    rw [date_wholeSecond] at h1 h2
    have hw1 : 2 ≤ (date (w * 1000000)).year ∧ (date (w * 1000000)).year ≤ 9998 := by
      cases dir <;> simp only [Direction.leastYear, Direction.greatestYear] at h1 h2 <;> omega
    rw [← seconds_mul w]
    exact inner_of_year hw1.1 hw1.2
  have hse := search_eq_pick ht (hz ▸ hsp) hs (searchStart_fixed hz ho hi) hinner
  cases hp : dir.pick m.instant (dir.near m.zone) (dir.far m.zone)
      (t.clocks dir (wholeSecond m.time)) with
  | none =>
    rw [hp] at hse
    refine ⟨none, hse, Direction.eq_some_iff_isNearest (by simp) fun _ =>
      Set.eq_empty_of_forall_notMem fun v hv => ?_⟩
    have hv0 := seconds_mul_of_micros hv.1
    have hmem := mem_clocks_of_reach ht (by omega) (by omega) (hv0.symm ▸ hv)
    have := (Direction.pick_eq_none (Direction.passes dir (hz ▸ hsp))).1 hp _ hmem
    rw [hfar, hahead, hv0, hv.2.2.1] at this
    cases this
  | some n =>
    rw [hp] at hse
    obtain ⟨ha, w, hw, hn⟩ := Direction.pick_sound hp
    obtain rfl : n = w - offset := by rcases hn with rfl | rfl; exacts [hnear w, hfar w]
    rw [hahead] at ha
    refine ⟨some (w * 1000000), hse.trans ?_,
      Direction.eq_some_iff_isNearest ?_ fun h => by cases h⟩
    · simp [hz, momentAt, clockAt]
    · intro w' hw'
      obtain rfl : w * 1000000 = w' := by simpa using hw'
      refine ⟨reach_of_mem_clocks ht hw ha, ?_⟩
      intro v hv
      have hv0 := seconds_mul_of_micros hv.1
      have hmem := mem_clocks_of_reach ht (by omega) (by omega) (hv0.symm ▸ hv)
      have hav : dir.ahead m.instant (dir.far m.zone (LocalTime.seconds v)) = true := by
        rw [hfar, hahead, hv0]
        exact hv.2.2.1
      have hle :=
        Direction.pick_le (Direction.passes dir (hz ▸ hsp)) (sorted_clocks ht _) hp hmem hav
      rw [hfar] at hle
      rw [← hv0, Direction.precedes_eq_false_iff]
      cases dir <;> simp only [Direction.key] at hle ⊢ <;> omega

/-- **The next fire time is the least fire time after the moment, the last one the greatest
before it, and there is none exactly where there is no such time within the years searched.** The
offset is a whole number of seconds, as in every `Zone`. Finer ones are outside the model; there
even a whole second of the clock may fail to be `Posix.Sharp`. -/
theorem next_last_fixed {s : Schedule} (hD : s.definition ∈ Dialect.all) (hv : s.validate = .ok ())
    {maxYears : Int} (hn : 1 ≤ maxYears) (hz : m.zone = fixed offset) (ho : WithinDay offset)
    (hy : 2 ≤ (date m.time).year - maxYears) (hy' : (date m.time).year + maxYears ≤ 9998)
    (hm : micros m.time = 0 ∨ m.instant.natAbs < 2 ^ 34 * 1000000) :
    ∃ t, of? s maxYears = .ok t ∧
      (∃ r : Option Int, t.next m = .ok (r.map fun w => ⟨m.zone, w, false⟩) ∧
        (∀ w, r = some w ↔ IsLeast {v | micros v = 0 ∧ t.fires v = .ok true ∧ m.time < v ∧
          (date v).year ≤ (date m.time).year + maxYears} w) ∧
        (r = none ↔ {v | micros v = 0 ∧ t.fires v = .ok true ∧ m.time < v ∧
          (date v).year ≤ (date m.time).year + maxYears} = ∅)) ∧
      (∃ r : Option Int, t.last m = .ok (r.map fun w => ⟨m.zone, w, false⟩) ∧
        (∀ w, r = some w ↔ IsGreatest {v | micros v = 0 ∧ t.fires v = .ok true ∧ v < m.time ∧
          (date m.time).year - maxYears ≤ (date v).year} w) ∧
        (r = none ↔ {v | micros v = 0 ∧ t.fires v = .ok true ∧ v < m.time ∧
          (date m.time).year - maxYears ≤ (date v).year} = ∅)) := by
  obtain ⟨t, ht, -, rfl, hsound⟩ := exists_of_validate hD hv hn
  have hs : Posix.Sharp m.instant := by
    have hl := le_of_two_le_year (t := m.time) (by omega)
    have hu := lt_of_year_le (t := m.time) (by omega)
    rw [Moment.instant, offset_fixed hz] at hm ⊢
    unfold WithinDay at ho
    unfold micros at hm
    unfold Posix.Sharp
    omega
  obtain ⟨r, hr, hnext⟩ := search_fixed .forward hsound hz ho hy hy' hn hs
  obtain ⟨r', hr', hlast⟩ := search_fixed .backward hsound hz ho hy hy' hn hs
  have hS : t.reach .forward m = {v | micros v = 0 ∧ t.fires v = .ok true ∧ m.time < v ∧
      (date v).year ≤ (date m.time).year + t.maxYears} := by
    simp only [reach, Direction.precedes, Direction.key, decide_eq_true_eq]
  have hS' : t.reach .backward m = {v | micros v = 0 ∧ t.fires v = .ok true ∧ v < m.time ∧
      (date m.time).year - t.maxYears ≤ (date v).year} := by
    ext v
    simp only [reach, Direction.precedes, Direction.key, decide_eq_true_eq, Set.mem_ofPred_eq]
    have he : -(date v).year ≤ -(date m.time).year + t.maxYears ↔
        (date m.time).year - t.maxYears ≤ (date v).year := by omega
    rw [he]
  simp only [hS, Direction.isNearest_forward] at hnext
  simp only [hS', Direction.isNearest_backward] at hlast
  exact ⟨t, ht, ⟨r, hr, hnext⟩, r', hr', hlast⟩

/-- Every day at noon. -/
def atNoon : Schedule :=
  .ofAssignment Dialect.unix fun
    | .minute => some (.value 0)
    | .hour => some (.value 12)
    | .dayOfMonth | .month | .dayOfWeek => some .always
    | _ => none

/-- What `atNoon` fires at. -/
def noonTable : Timetable := ⟨atNoon, defaultYears, [0], [0], [12], intsBetween 1 12⟩

theorem of?_atNoon : of? atNoon defaultYears = .ok noonTable := by rfl

/-- An hour ahead of UTC, a microsecond past noon. -/
def pastNoon : Moment := ⟨fixed 3600, 1700049600000001, false⟩

/-- The fire times around it are the noon of the next day and the noon that has just passed. -/
theorem next_last_pastNoon :
    atNoon.validate = .ok () ∧ (date pastNoon.time).year = 2023 ∧
      of? atNoon defaultYears = .ok noonTable ∧
      noonTable.next pastNoon = .ok (some ⟨fixed 3600, 1700136000000000, false⟩) ∧
      IsLeast {v | micros v = 0 ∧ noonTable.fires v = .ok true ∧ pastNoon.time < v ∧
        (date v).year ≤ (date pastNoon.time).year + defaultYears} 1700136000000000 ∧
      noonTable.last pastNoon = .ok (some ⟨fixed 3600, 1700049600000000, false⟩) ∧
      IsGreatest {v | micros v = 0 ∧ noonTable.fires v = .ok true ∧ v < pastNoon.time ∧
        (date pastNoon.time).year - defaultYears ≤ (date v).year} 1700049600000000 := by
  have hv : atNoon.validate = .ok () := by rfl
  have hy : (date pastNoon.time).year = 2023 := by decide
  obtain ⟨t, ht, ⟨r, hr, hnext, -⟩, l, hl, hlast, -⟩ := next_last_fixed (s := atNoon)
    (m := pastNoon) List.mem_cons_self hv (by decide : 1 ≤ defaultYears) rfl
    (by decide : WithinDay 3600) (by rw [hy]; decide) (by rw [hy]; decide) (.inr (by decide))
  obtain rfl := Except.ok.inj (of?_atNoon.symm.trans ht)
  have hrun : noonTable.next pastNoon = .ok (some ⟨fixed 3600, 1700136000000000, false⟩) := by
    decide +kernel
  have hrun' : noonTable.last pastNoon = .ok (some ⟨fixed 3600, 1700049600000000, false⟩) := by
    decide +kernel
  -- an answer of the search is told by its clock time
  have htime : ∀ {x : Except TimeError (Option Moment)} {r : Option Int} {w : Int},
      x = .ok (some ⟨fixed 3600, w, false⟩) →
        x = .ok (r.map fun v => ⟨pastNoon.zone, v, false⟩) → r = some w := by
    rintro _ r w rfl h
    cases r with
    | none => cases h
    | some v =>
      cases h
      rfl
  exact ⟨hv, hy, of?_atNoon, hrun, (hnext _).1 (htime hrun hr), hrun',
    (hlast _).1 (htime hrun' hl)⟩

end Timetable

end CronSchedule
