import CronSchedule.Proofs.Search.Backward
import CronSchedule.Proofs.Timetable.Cycle
import Mathlib.Order.Bounds.Basic

/-!
# Searches from beside a gap

A time that is skipped as the clock moves forward stands for the same instant as some time that is
shown. A search ahead starts at what the offset before the change makes of the instant, so it is one
search for both. A search back starts at the clock time itself: from the time that is shown it comes
to the fire times after the gap, from the skipped time it does not.

* `Timetable.BesideGap.search_forward`: **the search ahead is that of the instant.**
* `Timetable.BesideGap.last_of_firing`, `Timetable.BesideGap.last_of_isGreatest`,
  `Timetable.BesideGap.last_of_unseen`: **the search back finds the last fire time after the gap, or
  else the last one that is ahead, or else nothing.**
-/

namespace CronSchedule

open LocalTime Moment Zone

namespace Timetable

open Direction

/-- The fire times from one clock time up to another, in seconds. -/
def firing (t : Timetable) (lo hi : Int) : Set Int :=
  {x | (lo ≤ x ∧ x < hi) ∧ t.fires (x * 1000000) = .ok true}

/-- The fire times before a clock time in the years that a search back from a year looks at. -/
def seenFrom (t : Timetable) (year clock : Int) : Set Int :=
  {x | (x < clock ∧ t.fires (x * 1000000) = .ok true) ∧
    year ≤ (date (x * 1000000)).year + t.maxYears}

variable {t : Timetable} {c : Change} {q : Moment} {a u x y : Int}

/-- A moment at a change that moves the clock forward, with its clock time and its instant. The
clock time is what the offset before the change or the one after it gives. A search back from the
moment looks at no year before the calendar. -/
structure BesideGap (t : Timetable) (c : Change) (q : Moment) (a u : Int) : Prop where
  sound : t.Sound
  dialect : t.schedule.definition ∈ Dialect.all
  valid : t.schedule.validate = .ok ()
  maxYears : t.maxYears = 100
  whole : q.Whole a u
  spaced : q.zone.Spaced (Change.MovesBy 21600)
  mem : c ∈ q.zone.changes
  before_lt : c.before < c.after
  lower : c.start - 21600 ≤ u
  upper : u < c.start + (c.after - c.before)
  clock : a = u + c.before ∨ a = u + c.after
  least : 101 ≤ (date q.time).year
  greatest : (date q.time).year ≤ 9851

namespace BesideGap

variable (h : t.BesideGap c q a u)

include h

theorem day : q.zone.Spaced (Change.MovesBy 86400) := h.spaced.imp fun _ hd => hd.mono (by decide)

theorem innermost : Innermost a := by
  have hleast := h.least
  have hgreatest := h.greatest
  have hi := innermost_of_year (t := q.time) (by omega) (by omega)
  rwa [h.whole.time, seconds_mul] at hi

/-- The instant lies within six hours of the change, and the clock time within the jump. -/
theorem bounds : (c.start - 21600 ≤ u ∧ u < c.start + (c.after - c.before)) ∧
    (u + c.before ≤ a ∧ a ≤ u + c.after) ∧ c.after - c.before ≤ 21600 := by
  have hclock := h.clock
  have hmoved := h.before_lt
  exact ⟨⟨h.lower, h.upper⟩, by omega, (h.spaced.changes c h.mem).1⟩

theorem natAbs_lt : u.natAbs < 2 ^ 53 := h.whole.natAbs_lt h.spaced h.innermost.inner

theorem posix_eq : q.posix = u * Posix.unitsPerSecond := h.whole.posix_eq h.natAbs_lt

/-- The clock time stands for one moment. -/
theorem exists_resolve : ∃ n, q.zone.resolve a = [n] := by
  obtain ⟨hu, ha, hjump⟩ := h.bounds
  by_cases hgap : a < c.start + c.after
  · exact ⟨_, h.day.resolve_before h.mem h.before_lt (by omega) hgap⟩
  · exact ⟨_, h.day.resolve_after h.mem h.before_lt (by omega) (by omega)⟩

/-! ### Searching ahead -/

theorem forwardJump : q.forwardJump = .ok (a - (u + c.before)) := by
  obtain ⟨hu, ha, hjump⟩ := h.bounds
  have hearlier := h.day.clockAt_of_near h.mem (u := u - 21600) (by omega) (by omega)
  rw [clockAt, Change.offsetAt, if_neg (by omega)] at hearlier
  rw [h.whole.forwardJump_eq h.spaced h.innermost.inner, Int.max_eq_left (by omega)]
  congr 1
  omega

/-- A search ahead starts at what the offset before the change makes of the instant. -/
theorem searchStart_forward : searchStart forward q = .ok ((u + c.before) * 1000000) := by
  obtain ⟨n, hn⟩ := h.exists_resolve
  obtain ⟨hu, ha, hjump⟩ := h.bounds
  have hi := h.innermost
  unfold Innermost at hi
  have hstart : a * 1000000 - (a - (u + c.before)) * 1000000 = (u + c.before) * 1000000 := by omega
  have hr : InRange ((u + c.before) * 1000000) := by
    rw [inRange_mul_iff]
    omega
  simp only [searchStart, h.whole.wholeSecond_eq, h.spaced.instantsOf_eq h.innermost.inner, hn,
    h.forwardJump, bind, Except.bind, hstart, inRange_eq_ok hr]

/-- **A search ahead is the same for the moments of one instant.** -/
theorem search_forward : t.search forward q =
    outcome (t.walk forward ((u + c.before) * 1000000)
      (consider forward q.zone (u * Posix.unitsPerSecond)) none) := by
  rw [search_of_start h.searchStart_forward, h.posix_eq]

/-! ### Searching back -/

/-- A search back starts at the clock time itself. -/
theorem searchStart_backward : searchStart backward q = .ok (a * 1000000) := by
  obtain ⟨n, hn⟩ := h.exists_resolve
  simp only [searchStart, h.whole.wholeSecond_eq, h.spaced.instantsOf_eq h.innermost.inner, hn,
    bind, Except.bind]
  rfl

theorem search_backward : t.search backward q =
    outcome ((t.clocks backward (a * 1000000)).foldlM
      (fun best w => consider backward q.zone q.posix best (w * 1000000)) none) := by
  rw [search_of_start h.searchStart_backward, walk_eq_foldlM h.sound, times_eq_map h.sound,
    List.foldlM_map]

theorem mem_clocks_iff : x ∈ t.clocks backward (a * 1000000) ↔
    t.fires (x * 1000000) = .ok true ∧ x ≤ a ∧
      1 ≤ (date (x * 1000000)).year ∧ (date q.time).year ≤ (date (x * 1000000)).year + 100 := by
  have hmono : x ≤ a → (date (x * 1000000)).year ≤ (date q.time).year := by
    intro hle
    rw [h.whole.time]
    exact year_mono (by omega)
  rw [mem_clocks h.sound, Walked, wholeSecond, micros, micros, Int.mul_emod_left, Int.mul_emod_left,
    Int.sub_zero, precedes_eq_false_iff, ← h.whole.time]
  simp only [leastYear, greatestYear, key, h.maxYears, h.whole.time] at hmono ⊢
  constructor
  · rintro ⟨⟨-, hf, hy, -⟩, hle⟩
    exact ⟨hf, by omega, by omega, by omega⟩
  · rintro ⟨hf, hle, hy, hy'⟩
    have := hmono hle
    exact ⟨⟨trivial, hf, by omega, by omega⟩, by omega⟩

theorem bounds_of_mem (hx : x ∈ t.clocks backward (a * 1000000)) :
    -62135596800 ≤ x ∧ x ≤ 253401000000 := by
  obtain ⟨-, hle, hy, -⟩ := h.mem_clocks_iff.1 hx
  have hi := h.innermost
  unfold Innermost at hi
  have hstart : ¬ x * 1000000 < startOfYear 1 := by
    intro hlt
    have := year_lt_iff.2 hlt
    omega
  rw [show startOfYear 1 = -62135596800000000 by decide] at hstart
  omega

theorem inner_of_mem (hx : x ∈ t.clocks backward (a * 1000000))
    (hy : 2 ≤ (date (x * 1000000)).year) : Inner x := by
  have hb := h.bounds_of_mem hx
  have hl := le_of_two_le_year hy
  unfold Inner
  omega

theorem eligible_iff {p : Int} (hp : p.natAbs < 2 ^ 53) :
    backward.eligible (q.zone.momentAt p).posix q.posix = true ↔ p < u := by
  rw [h.posix_eq, h.spaced.posix_momentAt hp, eligible, precedes_iff, Posix.unitsPerSecond_eq]
  simp only [key]
  omega

/-- What comes before the start of a search ahead is ahead of a search back. -/
theorem allAhead_of_lt (hx : x ∈ t.clocks backward (a * 1000000)) (hlt : x < u + c.before) :
    backward.AllAhead q.zone q.posix x := by
  intro n hn
  have hb := h.bounds_of_mem hx
  obtain ⟨hu, ha, hjump⟩ := h.bounds
  obtain ⟨v, rfl, hnear, hv⟩ := h.day.exists_lt_of_mem_resolve h.mem (by omega) h.upper hlt hn
  exact (h.eligible_iff (by omega)).2 hv

/-- From there to the end of the gap nothing is. -/
theorem noneAhead_of_lt (hx : x ∈ t.clocks backward (a * 1000000)) (hle : u + c.before ≤ x)
    (hlt : x < c.start + c.after) : backward.NoneAhead q.zone q.posix x := by
  intro n hn
  have hb := h.bounds_of_mem hx
  obtain ⟨hu, ha, hjump⟩ := h.bounds
  obtain ⟨hwb, -⟩ := h.spaced.withinDay_of_mem h.mem
  unfold WithinDay at hwb
  rw [h.day.resolve_before h.mem h.before_lt (by omega) hlt] at hn
  obtain rfl := List.mem_singleton.1 hn
  rw [← Bool.not_eq_true, h.eligible_iff (by omega)]
  omega

/-- After the gap a clock time stands for an earlier instant if it comes before the last one. -/
theorem eligible_after (hx : x ∈ t.clocks backward (a * 1000000)) (hge : c.start + c.after ≤ x) :
    q.zone.resolve x = [q.zone.momentAt (x - c.after)] ∧
      (backward.eligible (q.zone.momentAt (x - c.after)).posix q.posix = true ↔ x < u + c.after) := by
  have hb := h.bounds_of_mem hx
  obtain ⟨-, hle, -⟩ := h.mem_clocks_iff.1 hx
  obtain ⟨hu, ha, hjump⟩ := h.bounds
  obtain ⟨-, hwa⟩ := h.spaced.withinDay_of_mem h.mem
  unfold WithinDay at hwa
  refine ⟨h.day.resolve_after h.mem h.before_lt hge (by omega), ?_⟩
  rw [h.eligible_iff (by omega)]
  omega

/-- A schedule that fires before a moment of the year 101 fires in two earlier years after the first
one of the calendar. -/
theorem exists_early (hy : (date q.time).year = 101) (hx : x ∈ t.clocks backward (a * 1000000)) :
    ∃ x₁ ∈ t.clocks backward (a * 1000000), ∃ x₂ ∈ t.clocks backward (a * 1000000),
      (41 < (date (x₁ * 1000000)).year ∧ (date (x₁ * 1000000)).year ≤ 81) ∧
        1 < (date (x₂ * 1000000)).year ∧ (date (x₂ * 1000000)).year ≤ 41 := by
  obtain ⟨hf, hle, -, -⟩ := h.mem_clocks_iff.1 hx
  have hyx : (date (x * 1000000)).year ≤ 101 := by
    rw [← hy, h.whole.time]
    exact year_mono (by omega)
  have hadmits : ∀ year ≤ 101, t.admitsYear year = .ok true := by
    intro year hyear
    rw [admitsYear_of_lt h.dialect h.valid (show year < 1970 by omega)
      (show (date (x * 1000000)).year < 1970 by omega), admitsYear_of_fires hf]
  have hm : micros (x * 1000000) = 0 := by
    unfold micros
    omega
  have hfind : ∀ year, 1 ≤ year → year ≤ 41 → ∃ x' ∈ t.clocks backward (a * 1000000),
      year < (date (x' * 1000000)).year ∧ (date (x' * 1000000)).year ≤ year + 40 := by
    intro year hyear hyear'
    obtain ⟨x', hm', hf', hlt', hle'⟩ :=
      exists_fires_within (fun y (_ : year < y) hy => hadmits y (by omega)) hm hf
    have hx' := seconds_mul_of_micros hm'
    refine ⟨LocalTime.seconds x', h.mem_clocks_iff.2 ⟨by rw [hx', hf'], ?_, ?_, ?_⟩, ?_, ?_⟩
    · by_contra hlate
      have hmono := year_mono (show q.time ≤ x' by rw [h.whole.time]; omega)
      omega
    · rw [hx']
      omega
    · rw [hx']
      omega
    · rw [hx']
      exact hlt'
    · rw [hx']
      exact hle'
  obtain ⟨x₁, hx₁, hlt₁, hle₁⟩ := hfind 41 (by decide) (by decide)
  obtain ⟨x₂, hx₂, hlt₂, hle₂⟩ := hfind 1 (by decide) (by decide)
  exact ⟨x₁, hx₁, x₂, hx₂, ⟨hlt₁, hle₁⟩, hlt₂, hle₂⟩

section First

variable (hx : x ∈ t.clocks backward (a * 1000000))
  (hahead : backward.AllAhead q.zone q.posix x)
  (hbehind : ∀ w ∈ t.clocks backward (a * 1000000), x < w → backward.NoneAhead q.zone q.posix w)

include hx hbehind

/-- So the first clock time ahead and a fire time before it come after the first year. -/
theorem exists_early_le (hy : (date q.time).year = 101) :
    ∃ x₁ ≤ x, ∃ x₂ ∈ t.clocks backward (a * 1000000), x₂ < x₁ ∧
      2 ≤ (date (x₁ * 1000000)).year ∧ 2 ≤ (date (x₂ * 1000000)).year := by
  obtain ⟨x₁, hx₁, x₂, hx₂, ⟨hlt₁, hle₁⟩, hlt₂, hle₂⟩ := h.exists_early hy hx
  have hordered := lt_of_year_lt (show (date (x₂ * 1000000)).year < (date (x₁ * 1000000)).year by
    omega)
  refine ⟨x₁, ?_, x₂, hx₂, by omega, by omega, by omega⟩
  by_contra hlt
  obtain ⟨hu, ha, hjump⟩ := h.bounds
  -- a time of twenty years before is ahead
  have hfar : x₁ < u + c.before := by
    by_contra hnear
    have := year_le_succ (show q.time ≤ x₁ * 1000000 + 31536000000000 by rw [h.whole.time]; omega)
    omega
  exact (h.allAhead_of_lt hx₁ hfar).not_noneAhead (hbehind x₁ hx₁ (by omega))

include hahead

/-- The first clock time ahead is away from the start of the calendar. -/
theorem firstAhead : FirstAhead q.zone q.posix (t.clocks backward (a * 1000000)) x := by
  by_cases hyear : 102 ≤ (date q.time).year
  · have hinner : ∀ w ∈ t.clocks backward (a * 1000000), Inner w := by
      intro w hw
      have hy := (h.mem_clocks_iff.1 hw).2.2.2
      exact h.inner_of_mem hw (by omega)
    refine ⟨hx, hahead, hbehind, ?_, ?_⟩
    · intro w hw _
      exact hinner w hw
    · intro w hw hlt
      exact ⟨w, hw, Int.le_refl w, hlt, hinner w hw⟩
  have hleast := h.least
  obtain ⟨x₁, hle, x₂, hx₂, hlt, hy₁, hy₂⟩ := h.exists_early_le hx hbehind (by omega)
  refine ⟨hx, hahead, hbehind, ?_, ?_⟩
  · intro w hw hxw
    have := year_mono (show x₁ * 1000000 ≤ w * 1000000 by omega)
    exact h.inner_of_mem hw (by omega)
  · intro w hw hwx
    by_cases hw2 : 2 ≤ (date (w * 1000000)).year
    · exact ⟨w, hw, Int.le_refl w, hwx, h.inner_of_mem hw hw2⟩
    · have hwx₂ := lt_of_year_lt (show (date (w * 1000000)).year < (date (x₂ * 1000000)).year by
        omega)
      exact ⟨x₂, hx₂, by omega, by omega, h.inner_of_mem hx₂ hy₂⟩

theorem search_of_first : t.search backward q = .ok (q.zone.resolve x).getLast? := by
  rw [h.search_backward]
  exact outcome_first h.day (sorted_clocks h.sound _) (h.firstAhead hx hahead hbehind)

end First

/-- **What a search back finds is the last fire time after the gap**, if there is any before the
clock time that it starts at. -/
theorem last_of_firing (hy : IsGreatest (t.firing (c.start + c.after) a) y) :
    t.search backward q = .ok (some (q.zone.momentAt (y - c.after))) := by
  obtain ⟨⟨⟨hge, hlt⟩, hf⟩, hmax⟩ := hy
  obtain ⟨hu, ha, hjump⟩ := h.bounds
  have hmem : y ∈ t.clocks backward (a * 1000000) := by
    have hleast := h.least
    have hyear := year_le_succ (show q.time ≤ y * 1000000 + 31536000000000 by
      rw [h.whole.time]; omega)
    exact h.mem_clocks_iff.2 ⟨hf, by omega, by omega, by omega⟩
  obtain ⟨hone, hiff⟩ := h.eligible_after hmem hge
  have hfound := h.search_of_first hmem ?_ ?_
  · rw [hone] at hfound
    exact hfound
  · intro n hn
    rw [hone] at hn
    obtain rfl := List.mem_singleton.1 hn
    exact hiff.2 (by omega)
  · intro w hw hyw n hn
    obtain ⟨hfw, hle, -⟩ := h.mem_clocks_iff.1 hw
    obtain ⟨honew, hiffw⟩ := h.eligible_after hw (by omega)
    rw [honew] at hn
    obtain rfl := List.mem_singleton.1 hn
    rw [← Bool.not_eq_true, hiffw]
    intro hbefore
    -- the only later one is the moment itself
    have hwa : ¬ w < a := by
      intro hwa
      have := hmax ⟨⟨by omega, hwa⟩, hfw⟩
      omega
    have hclock := h.clock
    omega

/-- With no fire time after the gap, nothing from the start of a search ahead on is ahead. -/
theorem noneAhead_of_firing_eq_empty (hempty : t.firing (c.start + c.after) a = ∅)
    (hx : x ∈ t.clocks backward (a * 1000000)) (hle : u + c.before ≤ x) :
    backward.NoneAhead q.zone q.posix x := by
  by_cases hgap : x < c.start + c.after
  · exact h.noneAhead_of_lt hx hle hgap
  · intro n hn
    obtain ⟨hf, hxa, -⟩ := h.mem_clocks_iff.1 hx
    obtain ⟨hone, hiff⟩ := h.eligible_after hx (by omega)
    rw [hone] at hn
    obtain rfl := List.mem_singleton.1 hn
    rw [← Bool.not_eq_true, hiff]
    have hnot : ¬ x < a := by
      intro hlt
      have hmem : x ∈ t.firing (c.start + c.after) a := ⟨⟨by omega, hlt⟩, hf⟩
      rw [hempty] at hmem
      exact hmem
    have hclock := h.clock
    have hu := h.upper
    omega

/-- **Else it finds the last fire time before the start of a search ahead.** -/
theorem last_of_isGreatest (hempty : t.firing (c.start + c.after) a = ∅)
    (hx : IsGreatest (t.seenFrom (date q.time).year (u + c.before)) x) :
    t.search backward q = .ok (q.zone.resolve x).getLast? := by
  obtain ⟨⟨⟨hlt, hf⟩, hy⟩, hmax⟩ := hx
  have hleast := h.least
  obtain ⟨hu, ha, hjump⟩ := h.bounds
  rw [h.maxYears] at hy
  have hmem := h.mem_clocks_iff.2 ⟨hf, by omega, by omega, hy⟩
  apply h.search_of_first hmem (h.allAhead_of_lt hmem hlt)
  intro w hw hxw
  obtain ⟨hfw, -, -, hyw⟩ := h.mem_clocks_iff.1 hw
  apply h.noneAhead_of_firing_eq_empty hempty hw
  by_contra hbefore
  have hle := hmax ⟨⟨Int.not_le.1 hbefore, hfw⟩, by rw [h.maxYears]; exact hyw⟩
  omega

/-- And else nothing. -/
theorem last_of_unseen (hempty : t.firing (c.start + c.after) a = ∅)
    (hnone : ¬ (t.seenFrom (date q.time).year (u + c.before)).Nonempty) :
    t.search backward q = .ok none := by
  have hle : ∀ w ∈ t.clocks backward (a * 1000000), u + c.before ≤ w := by
    intro w hw
    obtain ⟨hfw, -, -, hyw⟩ := h.mem_clocks_iff.1 hw
    by_contra hbefore
    exact hnone ⟨w, ⟨Int.not_le.1 hbefore, hfw⟩, by rw [h.maxYears]; exact hyw⟩
  rw [h.search_backward]
  apply outcome_behind h.spaced
  · intro w hw
    have hi := h.innermost
    have hb := h.bounds_of_mem hw
    have hwle := hle w hw
    obtain ⟨hu, ha, hjump⟩ := h.bounds
    unfold Innermost at hi
    unfold Inner
    omega
  · intro w hw
    exact h.noneAhead_of_firing_eq_empty hempty hw (hle w hw)

end BesideGap

end Timetable

end CronSchedule
