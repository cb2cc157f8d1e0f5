import CronSchedule.Proofs.Search.Seek

/-!
# Searches across skipped hours

Where the clock is only ever moved forward, a fire time that is skipped stands for a moment past the
gap, and a search should find the nearest moment of all. A search ahead starts early enough to meet
every skipped fire time that still lies ahead, and waits for the clock times that can be nearer. A
search back meets the clock times behind the gap first and takes the first one, although a skipped
time may stand for a later moment (`Timetable.Shadowed`).

* `Timetable.SkipSetting.search_eq`: what a search finds, in whole seconds.
* `Timetable.SkipSetting.instantOf_le_of_lt`: a search ahead starts early enough.
* `Timetable.next_movesForward`: **the next fire time is found wherever there is one within 98
  years, and it is the nearest one.**
* `Timetable.last_movesForward`: **so is the last fire time, except that it is not the nearest one
  where the moment is shadowed.**
* `Timetable.last_tenToThree`: a shadowed moment, from which a fire time is skipped.
-/

namespace CronSchedule

open LocalTime Moment Zone

namespace Timetable

/-- A moment from which a search back does not come as far as a skipped fire time that it should
find. The gap is followed by a fire time before what the clock shows for the skipped one, and no
fire time from there on comes before the moment. -/
def Shadowed (t : Timetable) (m : Moment) : Prop :=
  ∃ c ∈ m.zone.changes, ∃ x w, (c.Skips x ∧ t.fires (x * 1000000) = .ok true) ∧
    (t.fires (w * 1000000) = .ok true ∧ c.start + c.after ≤ w ∧ w < c.pushed x) ∧
      c.pushed x < LocalTime.seconds m.time ∧
        ∀ time n, t.FireOf m.zone time n → c.pushed x * 1000000 ≤ time → ¬ n.posix < m.posix

variable {t : Timetable} {dir : Direction} {m n : Moment} {clock u w a limit : Int}

/-! ### Moments of fire times -/

theorem fireOf_instant (hz : m.zone.Spaced (Change.MovesForward limit)) (hi : Inner w)
    (hf : t.fires (w * 1000000) = .ok true) :
    t.FireOf m.zone (w * 1000000) (m.zone.momentAt (m.zone.instantOf w false)) := by
  refine fireOf_of_mem_resolve hz hi hf ?_
  rw [hz.resolve_movesForward]
  exact List.mem_singleton_self _

/-- A moment of a fire time is the moment of its instant. -/
theorem FireOf.exists_instant (hz : m.zone.Spaced (Change.MovesForward limit)) {time : Int}
    (h : t.FireOf m.zone time n) :
    ∃ w, time = w * 1000000 ∧ n = m.zone.momentAt (m.zone.instantOf w false) ∧
      (m.zone.instantOf w false).natAbs < 2 ^ 53 := by
  obtain ⟨w, hw, hr, -, hn⟩ := h.exists_resolve hz
  have hb := inRange_mul_iff.1 hr
  have hnear := hz.instantOf_near w false
  rw [hz.resolve_movesForward] at hn
  exact ⟨w, hw, List.mem_singleton.1 hn, by omega⟩

/-! ### Where a search starts -/

/-- A search from a whole second, with its clock time and its instant, in a zone whose clock is only
ever moved forward. -/
structure SkipSetting (t : Timetable) (dir : Direction) (m : Moment) (clock u : Int) : Prop where
  sound : t.Sound
  whole : m.Whole clock u
  spaced : m.zone.Spaced (Change.MovesForward 21600)
  years : t.WithinYears dir m
  two_le : 2 ≤ t.maxYears

namespace SkipSetting

variable (h : t.SkipSetting dir m clock u)

include h

theorem inner : Inner clock := h.whole.inner h.years.1.1 h.years.1.2

theorem natAbs_lt : u.natAbs < 2 ^ 53 := h.whole.natAbs_lt h.spaced h.inner

theorem eligible_iff {p : Int} (hp : p.natAbs < 2 ^ 53) :
    dir.eligible (m.zone.momentAt p).posix m.posix = dir.ahead m.instant p :=
  Direction.eligible_momentAt h.spaced hp (h.whole.sharp h.natAbs_lt)

/-- Six hours before a moment the offset was no greater, even if the moment is in a gap. -/
theorem offsetAt_le : m.zone.offsetAt (u - 21600) ≤ clock - u := by
  obtain ⟨c, hc⟩ := h.spaced.exists_changeNear clock
  have hle := before_le_after h.spaced hc
  have hn := h.whole.near h.spaced
  have ha := hc.after
  unfold WithinDay at ha
  have hmono := h.spaced.offsetAt_mono (show u - 21600 ≤ u by omega)
  have hu := hc.offsetAt u (by omega) (by omega)
  have hi := h.whole.instant
  rw [h.spaced.instantOf_of_changeNear hc] at hi
  rw [Change.offsetAt] at hu
  by_cases hstart : u < c.start
  · rw [if_neg (by omega)] at hu
    split at hi <;> omega
  rw [if_pos (by omega)] at hu
  by_cases hafter : u = clock - c.after
  · omega
  -- otherwise the moment is in a gap, and the change comes less than six hours before it
  obtain ⟨hbefore, hgap⟩ : u = clock - c.before ∧ clock < c.start + c.after := by
    cases hp : m.secondPass with
    | false =>
      rw [hp, if_neg Bool.false_ne_true] at hi
      split at hi <;> omega
    | true =>
      rw [hp, if_pos rfl] at hi
      split at hi <;> omega
  have hlim := (h.spaced.changes c (hc.change.resolve_right (by omega))).2
  have hlast := hc.offsetAt (c.start - 1) (by omega) (by omega)
  rw [Change.offsetAt, if_neg (by omega)] at hlast
  have hmono' := h.spaced.offsetAt_mono (show u - 21600 ≤ c.start - 1 by omega)
  omega

theorem forwardJump : m.forwardJump = .ok (clock - (u + m.zone.offsetAt (u - 21600))) := by
  have hle := h.offsetAt_le
  rw [h.whole.forwardJump_eq h.spaced h.inner, Int.max_eq_left (by omega), Int.sub_sub]

end SkipSetting

/-- The clock time from which a search walks. A search ahead starts at what the clock would show
with the offset of six hours before. -/
def skipStart (dir : Direction) (z : Zone) (clock u : Int) : Int :=
  match dir with
  | .forward => u + z.offsetAt (u - 21600)
  | .backward => clock

/-- The clock times that a search meets from its start on. -/
def metAcross (t : Timetable) (dir : Direction) (m : Moment) (clock u : Int) : List Int :=
  t.clocks dir (skipStart dir m.zone clock u * 1000000)

namespace SkipSetting

variable (h : t.SkipSetting dir m clock u)

include h

theorem skipStart_near : dir.key clock - 172800 ≤ dir.key (skipStart dir m.zone clock u) ∧
    dir.key (skipStart dir m.zone clock u) ≤ dir.key clock := by
  have hn := h.whole.near h.spaced
  have ho := h.spaced.withinDay_offsetAt (u - 21600)
  have hle := h.offsetAt_le
  unfold WithinDay at ho
  cases dir with
  | forward =>
    simp only [skipStart, Direction.key]
    omega
  | backward =>
    simp only [skipStart, Direction.key]
    omega

theorem searchStart_eq :
    searchStart dir m = .ok (skipStart dir m.zone clock u * 1000000) := by
  have hnear := h.skipStart_near
  have hi := h.inner
  unfold Inner at hi
  have hws := h.whole.wholeSecond_eq
  simp only [searchStart, hws, h.spaced.instantsOf_movesForward h.inner, bind, Except.bind]
  cases dir with
  | forward =>
    simp only [skipStart, Direction.key] at hnear ⊢
    have hr : InRange ((u + m.zone.offsetAt (u - 21600)) * 1000000) := by
      rw [inRange_mul_iff]
      omega
    have hjump : clock * 1000000 - (clock - (u + m.zone.offsetAt (u - 21600))) * 1000000 =
        (u + m.zone.offsetAt (u - 21600)) * 1000000 := by omega
    simp only [h.forwardJump, hjump, inRange_eq_ok hr]
  | backward => rfl

theorem fires_of_mem (hw : w ∈ t.metAcross dir m clock u) : t.fires (w * 1000000) = .ok true :=
  ((mem_clocks h.sound).1 hw).1.2.1

theorem inner_of_mem (hw : w ∈ t.metAcross dir m clock u) : Inner w :=
  inner_of_mem_clocks h.sound h.years h.whole.time h.skipStart_near hw

theorem mem_of_le (hf : t.fires (w * 1000000) = .ok true)
    (hw : dir.key (skipStart dir m.zone clock u) ≤ dir.key w)
    (hyw : dir.key (date (w * 1000000)).year + 1 ≤ dir.key (date m.time).year + t.maxYears) :
    w ∈ t.metAcross dir m clock u :=
  mem_clocks_of_le h.sound h.years h.whole.time h.skipStart_near hf hw hyw

/-- The search finds the moment of what is taken from the clock times it meets. -/
theorem search_eq : t.search dir m = .ok
    ((dir.seek m.instant m.zone none (t.metAcross dir m clock u)).map m.zone.momentAt) :=
  search_eq_seek h.sound h.spaced (h.whole.sharp h.natAbs_lt) h.searchStart_eq fun _ hw =>
    h.inner_of_mem hw

theorem natAbs_instantOf_lt (hw : w ∈ t.metAcross dir m clock u) :
    (m.zone.instantOf w false).natAbs < 2 ^ 53 := by
  have hi := h.inner_of_mem hw
  have hn := h.spaced.instantOf_near w false
  unfold Inner at hi
  omega

theorem fireOf_of_mem (hw : w ∈ t.metAcross dir m clock u) :
    t.FireOf m.zone (w * 1000000) (m.zone.momentAt (m.zone.instantOf w false)) :=
  fireOf_instant h.spaced (h.inner_of_mem hw) (h.fires_of_mem hw)

theorem closer_iff {p q : Int} (hp : p.natAbs < 2 ^ 53) (hq : q.natAbs < 2 ^ 53) :
    dir.closer (m.zone.momentAt p) (m.zone.momentAt q) = false ↔ dir.key q ≤ dir.key p := by
  rw [Direction.closer_momentAt dir h.spaced hp hq, Direction.precedes_eq_false_iff]

end SkipSetting

/-! ### Searching ahead -/

namespace SkipSetting

variable (h : t.SkipSetting .forward m clock u)

include h

/-- No clock time before the start of a search stands for an instant ahead. -/
theorem instantOf_le_of_lt (hw : w < u + m.zone.offsetAt (u - 21600)) :
    m.zone.instantOf w false ≤ u := by
  by_contra hlt
  have hmono := h.spaced.offsetAt_mono (show u - 21600 ≤ m.zone.instantOf w false by omega)
  rcases h.spaced.clockAt_instantOf_or w with hshown | ⟨c, hc, hskips⟩
  · unfold clockAt at hshown
    omega
  · -- a skipped time counts with the offset before the gap
    obtain ⟨hi, -⟩ := h.spaced.instantOf_of_skips hc hskips
    have hn := h.spaced.changeNear_of_skips hc hskips
    have hlim := (h.spaced.changes c hc).2
    obtain ⟨hb, ha⟩ := h.spaced.withinDay_of_mem hc
    unfold WithinDay at hb ha
    unfold Change.Skips at hskips
    have hlast := hn.offsetAt (c.start - 1) (by omega) (by omega)
    rw [Change.offsetAt, if_neg (by omega)] at hlast
    have hmono' := h.spaced.offsetAt_mono (show u - 21600 ≤ c.start - 1 by omega)
    omega

/-- The search meets a fire time whose instant is ahead. -/
theorem meets (hf : t.fires (w * 1000000) = .ok true)
    (ha : Direction.forward.ahead m.instant (m.zone.instantOf w false) = true)
    (hyw : (date (w * 1000000)).year + 1 ≤ (date m.time).year + t.maxYears) :
    w ∈ t.metAcross .forward m clock u := by
  refine h.mem_of_le hf (Int.not_lt.1 fun hlt => ?_) hyw
  have hle := h.instantOf_le_of_lt hlt
  rw [h.whole.ahead_iff] at ha
  simp only [Direction.key] at ha hle
  omega

/-- **Where there is a fire time two years before the last year searched or earlier, the nearest of
all is found.** -/
theorem search_forward
    (hex : ∃ time n, t.FireOf m.zone time n ∧ Direction.forward.eligible n.posix m.posix = true ∧
      (date time).year + 2 ≤ (date m.time).year + t.maxYears) :
    ∃ n, t.search .forward m = .ok (some n) ∧ t.Nearest .forward m n := by
  obtain ⟨time, n, hfire, hel, hyear⟩ := hex
  obtain ⟨w, rfl, rfl, hwb⟩ := hfire.exists_instant h.spaced
  rw [h.eligible_iff hwb] at hel
  have hsorted : Direction.forward.Sorted (t.metAcross .forward m clock u) :=
    sorted_clocks h.sound _
  obtain ⟨-, hleast⟩ := Direction.seek_forward h.spaced hsorted none
  obtain ⟨i, hi, hiw⟩ := hleast w (h.meets hfire.fires hel (by omega)) hel
  rw [Option.mem_def] at hi
  obtain ⟨hahead, v, hv, rfl⟩ := (Direction.seek_sound hi).resolve_left nofun
  have hvb := h.natAbs_instantOf_lt hv
  refine ⟨_, by rw [h.search_eq, hi]; rfl, ⟨_, h.fireOf_of_mem hv⟩,
    (h.eligible_iff hvb).trans hahead, ?_⟩
  rintro n' ⟨time', hfire'⟩ hel'
  obtain ⟨x, rfl, rfl, hxb⟩ := hfire'.exists_instant h.spaced
  rw [h.eligible_iff hxb] at hel'
  rw [h.closer_iff hxb hvb]
  by_cases hyx : (date (x * 1000000)).year + 1 ≤ (date m.time).year + t.maxYears
  · obtain ⟨j, hj, hjx⟩ := hleast x (h.meets hfire'.fires hel' hyx) hel'
    rw [Option.mem_def, hi] at hj
    obtain rfl := Option.some.inj hj
    exact hjx
  · -- a fire time of a later year stands for a later instant
    have hxn := h.spaced.instantOf_near x false
    have hwn := h.spaced.instantOf_near w false
    have hwx : ¬ x * 1000000 ≤ w * 1000000 + 31536000000000 := by
      intro hle
      have := year_le_succ hle
      omega
    simp only [Direction.key]
    omega

end SkipSetting

/-! ### Searching back -/

namespace SkipSetting

section

variable (h : t.SkipSetting .backward m clock u)

include h

theorem ahead_iff_lt {p : Int} :
    Direction.backward.ahead m.instant p = true ↔ p < u := by
  rw [h.whole.ahead_iff]
  simp only [Direction.key]
  omega

/-- The search finds the instant of the greatest fire time that has it ahead. -/
theorem exists_found (hw : w ∈ t.metAcross .backward m clock u)
    (ha : Direction.backward.ahead m.instant (m.zone.instantOf w false) = true) :
    ∃ v ∈ t.metAcross .backward m clock u,
      t.search .backward m = .ok (some (m.zone.momentAt (m.zone.instantOf v false))) ∧
        Direction.backward.ahead m.instant (m.zone.instantOf v false) = true ∧
          ∀ x ∈ t.metAcross .backward m clock u,
            Direction.backward.ahead m.instant (m.zone.instantOf x false) = true → x ≤ v := by
  obtain ⟨v, hv, hseek, hav, hle⟩ := Direction.seek_backward h.spaced (by decide)
    (sorted_clocks h.sound _) hw ha
  refine ⟨v, hv, ?_, hav, hle⟩
  rw [h.search_eq, metAcross, hseek]
  rfl

end

section

variable (h : t.SkipSetting .backward m clock u) (hu : m.zone.clockAt u = clock)

include h hu

/-- The search meets a fire time whose instant is ahead, if the clock shows the moment. -/
theorem meets_back (hf : t.fires (w * 1000000) = .ok true)
    (ha : Direction.backward.ahead m.instant (m.zone.instantOf w false) = true)
    (hyw : (date m.time).year + 1 ≤ (date (w * 1000000)).year + t.maxYears) :
    w ∈ t.metAcross .backward m clock u := by
  rw [h.ahead_iff_lt] at ha
  refine h.mem_of_le hf (Int.not_lt.1 fun hlt => ?_) ?_
  · simp only [Direction.key, skipStart] at hlt
    have hle := h.spaced.le_instantOf (u := u) (y := w) (by omega)
    omega
  · simp only [Direction.key]
    omega

section Found

variable {v x : Int} (hv : v ∈ t.metAcross .backward m clock u)
  (hav : Direction.backward.ahead m.instant (m.zone.instantOf v false) = true)
  (hmax : ∀ x ∈ t.metAcross .backward m clock u,
    Direction.backward.ahead m.instant (m.zone.instantOf x false) = true → x ≤ v)

include hv hmax

/-- A fire time that stands for a later instant than the one found is in a gap before it. -/
theorem shadowed_of_later (hyv : (date m.time).year + 1 ≤ (date (v * 1000000)).year + t.maxYears)
    (hx : x ∈ t.metAcross .backward m clock u)
    (hax : Direction.backward.ahead m.instant (m.zone.instantOf x false) = true)
    (hlt : m.zone.instantOf v false < m.zone.instantOf x false) : t.Shadowed m := by
  have hxv := hmax x hx hax
  have hne : x ≠ v := by
    rintro rfl
    omega
  obtain ⟨c, hc, hskips, hafter, hi, hi', -⟩ := h.spaced.exists_skips_of_le (by decide)
    (show x < v by omega) (by omega)
  obtain ⟨-, hpushed⟩ := h.spaced.instantOf_of_skips hc hskips
  have hclock := h.spaced.clockAt_lt (h.ahead_iff_lt.1 hax)
  rw [hpushed, hu] at hclock
  have hvp : v < c.pushed x := by
    unfold Change.pushed
    omega
  refine ⟨c, hc, x, v, ⟨hskips, h.fires_of_mem hx⟩, ⟨h.fires_of_mem hv, hafter, hvp⟩, ?_, ?_⟩
  · rwa [h.whole.time, seconds_mul]
  · -- what is found is the greatest fire time that comes before the moment
    intro time n hfire hle hlt'
    obtain ⟨y, rfl, rfl, hyb⟩ := hfire.exists_instant h.spaced
    have hay := (h.eligible_iff hyb).symm.trans (show Direction.backward.eligible _ _ = true from
      decide_eq_true hlt')
    have hyear := year_mono (show v * 1000000 ≤ y * 1000000 by omega)
    have hyv' := hmax y (h.meets_back hu hfire.fires hay (by omega)) hay
    omega

end Found

/-- The skipped fire time of a shadowed moment stands for a later instant than what is found. -/
theorem later_of_shadowed (hsh : t.Shadowed m) {v w : Int} (hv : v ∈ t.metAcross .backward m clock u)
    (hav : Direction.backward.ahead m.instant (m.zone.instantOf v false) = true)
    (hmax : ∀ x ∈ t.metAcross .backward m clock u,
      Direction.backward.ahead m.instant (m.zone.instantOf x false) = true → x ≤ v)
    (hw : w ∈ t.metAcross .backward m clock u)
    (haw : Direction.backward.ahead m.instant (m.zone.instantOf w false) = true)
    (hyw : (date m.time).year + 2 ≤ (date (w * 1000000)).year + t.maxYears) :
    ∃ x, t.FireOf m.zone (x * 1000000) (m.zone.momentAt (m.zone.instantOf x false)) ∧
      Direction.backward.ahead m.instant (m.zone.instantOf x false) = true ∧
        m.zone.instantOf v false < m.zone.instantOf x false := by
  obtain ⟨c, hc, x, y, ⟨hskips, hfx⟩, ⟨hfy, hafter, hyx⟩, hclock, hnone⟩ := hsh
  rw [h.whole.time, seconds_mul] at hclock
  obtain ⟨hi, hpushed⟩ := h.spaced.instantOf_of_skips hc hskips
  have hlim := (h.spaced.changes c hc).2
  -- no fire time that the search meets before the moment is as late as the pushed one
  have hless : ∀ k ∈ t.metAcross .backward m clock u,
      Direction.backward.ahead m.instant (m.zone.instantOf k false) = true → k < c.pushed x := by
    intro k hk hak
    by_contra hge
    have hel := (h.eligible_iff (h.natAbs_instantOf_lt hk)).trans hak
    exact hnone _ _ (h.fireOf_of_mem hk) (by omega) (of_decide_eq_true hel)
  have hxu : m.zone.instantOf x false < u := by
    by_contra hge
    have hle := h.spaced.clockAt_le_iff.2 (show u ≤ m.zone.instantOf x false by omega)
    omega
  have hpush : c.pushed x = m.zone.instantOf x false + c.after := by
    rw [hi, Change.pushed]
    omega
  have hskips' := hskips
  unfold Change.Skips at hskips'
  have hwx := hless w hw haw
  -- the fire time after the gap is met, so what is found is not before it
  have hyi := h.spaced.instantOf_after_gap (by decide) hc hskips hafter (by omega)
  have hay := h.ahead_iff_lt.2 (show m.zone.instantOf y false < u by omega)
  have hyear := year_le_succ (show w * 1000000 ≤ y * 1000000 + 31536000000000 by omega)
  have hyv := hmax y (h.meets_back hu hfy hay (by omega)) hay
  have hvi := h.spaced.instantOf_after_gap (by decide) hc hskips (show c.start + c.after ≤ v by omega)
    (Int.le_of_lt (hless v hv hav))
  have hvx := hless v hv hav
  have hin : Inner x := by
    have hmin := h.years.2.1
    simp only [Direction.leastYear] at hmin
    have hl := le_of_two_le_year (show 2 ≤ (date (w * 1000000)).year by omega)
    have hvin := h.inner_of_mem hv
    unfold Inner at hvin ⊢
    omega
  exact ⟨x, fireOf_instant h.spaced hin hfx, h.ahead_iff_lt.2 hxu, by omega⟩

/-- **Where there is a fire time two years after the last year searched or later, one is found, and
it is the nearest one of all exactly where the moment is not shadowed.** -/
theorem search_backward
    (hex : ∃ time n, t.FireOf m.zone time n ∧ Direction.backward.eligible n.posix m.posix = true ∧
      (date m.time).year + 2 ≤ (date time).year + t.maxYears) :
    ∃ n, t.search .backward m = .ok (some n) ∧ (t.Nearest .backward m n ↔ ¬ t.Shadowed m) := by
  obtain ⟨time, n, hfire, hel, hyear⟩ := hex
  obtain ⟨w, rfl, rfl, hwb⟩ := hfire.exists_instant h.spaced
  rw [h.eligible_iff hwb] at hel
  have hw := h.meets_back hu hfire.fires hel (by omega)
  obtain ⟨v, hv, hfound, hav, hmax⟩ := h.exists_found hw hel
  have hvb := h.natAbs_instantOf_lt hv
  refine ⟨_, hfound, ?_, ?_⟩
  · intro hnearest hsh
    obtain ⟨x, hfx, hax, hlt⟩ := h.later_of_shadowed hu hsh hv hav hmax hw hel hyear
    obtain ⟨x', hxx, hmx, hxb⟩ := hfx.exists_instant h.spaced
    obtain rfl : x = x' := by omega
    have hcloser := hnearest.nearest _ ⟨_, hfx⟩ ((h.eligible_iff hxb).trans hax)
    rw [h.closer_iff hxb hvb] at hcloser
    simp only [Direction.key] at hcloser
    omega
  · intro hsh
    refine ⟨⟨_, h.fireOf_of_mem hv⟩, (h.eligible_iff hvb).trans hav, ?_⟩
    rintro n' ⟨time', hfire'⟩ hel'
    obtain ⟨x, rfl, rfl, hxb⟩ := hfire'.exists_instant h.spaced
    rw [h.eligible_iff hxb] at hel'
    rw [h.closer_iff hxb hvb]
    simp only [Direction.key]
    have hwv := hmax w hw hel
    by_cases hyx : (date m.time).year + 1 ≤ (date (x * 1000000)).year + t.maxYears
    · by_contra hlt
      have hyv := year_mono (show w * 1000000 ≤ v * 1000000 by omega)
      have hx := h.meets_back hu hfire'.fires hel' hyx
      exact hsh (h.shadowed_of_later hu hv hmax (by omega) hx hel' (by omega))
    · -- a fire time of an earlier year stands for an earlier instant
      have hxn := h.spaced.instantOf_near x false
      have hvn := h.spaced.instantOf_near v false
      have hwx : ¬ w * 1000000 ≤ x * 1000000 + 31536000000000 := by
        intro hle
        have := year_le_succ hle
        omega
      omega

end

end SkipSetting

/-! ### The next and the last fire time -/

/-- **The next fire time is found wherever there is one within 98 years, and it is the nearest one
of all**, with skipped fire times pushed past the gap. -/
theorem next_movesForward {s : Schedule} (hD : s.definition ∈ Dialect.all)
    (hv : s.validate = .ok ()) (hz : m.zone.Spaced (Change.MovesForward 21600))
    (hm : micros m.time = 0) (hy : 2 ≤ (date m.time).year)
    (hy' : (date m.time).year + 100 ≤ 9998) :
    ∃ t, of? s defaultYears = .ok t ∧
      ((∃ time n, t.FireOf m.zone time n ∧ m.posix < n.posix ∧
          (date time).year ≤ (date m.time).year + 98) →
        ∃ n, t.next m = .ok (some n) ∧ t.Nearest .forward m n) := by
  obtain ⟨t, ht, -, hmax, hsound⟩ := exists_of_validate hD hv (by decide : 1 ≤ defaultYears)
  rw [show defaultYears = 100 from rfl] at hmax
  have hw : m.Whole (LocalTime.seconds m.time)
      (m.zone.instantOf (LocalTime.seconds m.time) m.secondPass) :=
    ⟨(seconds_mul_of_micros hm).symm, rfl⟩
  have hyears : t.WithinYears .forward m := by
    simp only [WithinYears, Direction.leastYear, Direction.greatestYear, hmax]
    omega
  have h : t.SkipSetting .forward m _ _ := ⟨hsound, hw, hz, hyears, by omega⟩
  refine ⟨t, ht, ?_⟩
  rintro ⟨time, n, hfire, hlt, hle⟩
  refine h.search_forward ⟨time, n, hfire, ?_, by omega⟩
  simpa [Direction.eligible, Direction.precedes] using hlt

/-- Ten and thirty-five minutes past two in the night. -/
def twiceAtTwo : Schedule :=
  .ofAssignment Dialect.unix fun
    | .minute => some (.list [.value 10, .value 35])
    | .hour => some (.value 2)
    | .dayOfMonth | .month | .dayOfWeek => some .always
    | _ => none

/-- A zone that moves its clock forward from two to half past two in the night of 6 October 2024. -/
def halfHourForward : Zone := ⟨37800, [⟨1728142200, 39600⟩]⟩

/-- What `twiceAtTwo` fires at. -/
def twiceTable : Timetable :=
  ⟨twiceAtTwo, 100, [0], [10, 35], [2], [1, 2, 3, 4, 5, 6, 7, 8, 9, 10, 11, 12]⟩

theorem of?_twiceAtTwo : of? twiceAtTwo defaultYears = .ok twiceTable := by rfl

theorem spaced_halfHourForward : halfHourForward.Spaced (Change.MovesForward 21600) := by
  refine ⟨by decide, ?_, ?_, ?_⟩
  · simp only [halfHourForward, List.forall_mem_singleton]
    decide
  · exact List.pairwise_singleton _ _
  · simp only [changes, changesFrom, halfHourForward, List.forall_mem_singleton,
      Change.MovesForward]
    decide

theorem fires_twiceTable : ∀ w ∈ [1728180600, 1728182100],
    twiceTable.fires (w * 1000000) = .ok true := by decide +kernel

/-- Twenty past two, which is skipped, with the offset after the change: ten to two. -/
def skippedTwenty : Moment := ⟨halfHourForward, 1728181200000000, true⟩

/-- Twenty-five to three. -/
def twentyFiveToThree : Moment := ⟨halfHourForward, 1728182100000000, false⟩

theorem fireOf_twentyFiveToThree :
    twiceTable.FireOf halfHourForward twentyFiveToThree.time twentyFiveToThree :=
  fireOf_instant (m := twentyFiveToThree) (w := 1728182100) spaced_halfHourForward (by decide)
    (fires_twiceTable _ (by simp))

/-- From there the next fire time is the nearest one, although the walk meets the skipped ten past
two first, which is pushed past it. -/
theorem next_skippedTwenty :
    ∃ t, of? twiceAtTwo defaultYears = .ok t ∧
      t.next skippedTwenty = .ok (some twentyFiveToThree) ∧
        t.Nearest .forward skippedTwenty twentyFiveToThree := by
  have hy : (date skippedTwenty.time).year = 2024 := by rfl
  have hy' : (date twentyFiveToThree.time).year = 2024 := by rfl
  obtain ⟨t, ht, hnext⟩ := next_movesForward (s := twiceAtTwo) (m := skippedTwenty)
    List.mem_cons_self (by rfl) spaced_halfHourForward rfl (by omega) (by omega)
  obtain rfl := Except.ok.inj (of?_twiceAtTwo.symm.trans ht)
  have hlt : skippedTwenty.posix < twentyFiveToThree.posix := by decide +kernel
  have hrun : twiceTable.next skippedTwenty = .ok (some twentyFiveToThree) := by decide +kernel
  obtain ⟨n, hn, hnearest⟩ := hnext ⟨_, _, fireOf_twentyFiveToThree, hlt, by omega⟩
  cases hn.symm.trans hrun
  exact ⟨_, ht, hrun, hnearest⟩

/-- **The last fire time before a moment that the clock shows is found wherever there is one within
98 years, and it is the nearest one of all exactly where the moment is not shadowed.** -/
theorem last_movesForward {s : Schedule} (hD : s.definition ∈ Dialect.all)
    (hv : s.validate = .ok ()) (hz : m.zone.Spaced (Change.MovesForward 21600))
    (hm : micros m.time = 0) (hshown : ∃ u, m.zone.clockAt u = LocalTime.seconds m.time)
    (hy : 102 ≤ (date m.time).year) (hy' : (date m.time).year ≤ 9998) :
    ∃ t, of? s defaultYears = .ok t ∧
      ((∃ time n, t.FireOf m.zone time n ∧ n.posix < m.posix ∧
          (date m.time).year - 98 ≤ (date time).year) →
        ∃ n, t.last m = .ok (some n) ∧ (t.Nearest .backward m n ↔ ¬ t.Shadowed m)) := by
  obtain ⟨t, ht, -, hmax, hsound⟩ := exists_of_validate hD hv (by decide : 1 ≤ defaultYears)
  rw [show defaultYears = 100 from rfl] at hmax
  obtain ⟨u, hu⟩ := hshown
  have hw : m.Whole (LocalTime.seconds m.time) u :=
    ⟨(seconds_mul_of_micros hm).symm, (hz.instantOf_of_clockAt hu m.secondPass).symm⟩
  have hyears : t.WithinYears .backward m := by
    simp only [WithinYears, Direction.leastYear, Direction.greatestYear, hmax]
    omega
  have h : t.SkipSetting .backward m _ _ := ⟨hsound, hw, hz, hyears, by omega⟩
  refine ⟨t, ht, ?_⟩
  rintro ⟨time, n, hfire, hlt, hle⟩
  refine h.search_backward hu ⟨time, n, hfire, ?_, by omega⟩
  simpa [Direction.eligible, Direction.precedes] using hlt

/-- Ten to three. -/
def tenToThree : Moment := ⟨halfHourForward, 1728183000000000, false⟩

/-- Twenty to three, where the skipped ten past two is pushed to. -/
def twentyToThreePushed : Moment := ⟨halfHourForward, 1728182400000000, false⟩

theorem fireOf_twentyToThreePushed :
    twiceTable.FireOf halfHourForward 1728180600000000 twentyToThreePushed :=
  fireOf_instant (m := twentyToThreePushed) (w := 1728180600) spaced_halfHourForward (by decide)
    (fires_twiceTable _ (by simp))

/-- **From ten to three the search back finds twenty-five to three, and twenty to three is
skipped.** -/
theorem last_tenToThree :
    twiceAtTwo.definition ∈ Dialect.all ∧ twiceAtTwo.validate = .ok () ∧
      halfHourForward.Spaced (Change.MovesForward 21600) ∧
        of? twiceAtTwo defaultYears = .ok twiceTable ∧
          twiceTable.last tenToThree = .ok (some twentyFiveToThree) ∧
            twiceTable.FiresAt halfHourForward twentyToThreePushed ∧
              twentyFiveToThree.posix < twentyToThreePushed.posix ∧
                twentyToThreePushed.posix < tenToThree.posix :=
  ⟨List.mem_cons_self, by rfl, spaced_halfHourForward, of?_twiceAtTwo, by decide +kernel,
    ⟨_, fireOf_twentyToThreePushed⟩, by decide +kernel, by decide +kernel⟩

/-- The schedule does not fire between the pushed time and ten to three. -/
theorem shadowed_tenToThree : twiceTable.Shadowed tenToThree := by
  refine ⟨⟨1728142200, 37800, 39600⟩, List.mem_cons_self, 1728180600, 1728182100,
    ⟨⟨by decide, by decide⟩, fires_twiceTable _ (by simp)⟩,
    ⟨fires_twiceTable _ (by simp), by decide, by decide⟩, by decide, ?_⟩
  intro time n hfire hle hlt
  obtain ⟨y, rfl, rfl, hyb⟩ := hfire.exists_instant (m := tenToThree) spaced_halfHourForward
  have hearly : y < 1728183000 := by
    by_contra hlate
    have hclock : halfHourForward.clockAt 1728143400 = 1728183000 := by decide
    have hi := spaced_halfHourForward.le_instantOf (u := 1728143400) (y := y) (by omega)
    have hm : tenToThree.posix = 1728143400 * Posix.unitsPerSecond := by decide +kernel
    have hyb' : (halfHourForward.instantOf y false).natAbs < 2 ^ 53 := hyb
    have hlt' : (halfHourForward.momentAt (halfHourForward.instantOf y false)).posix <
        tenToThree.posix := hlt
    rw [spaced_halfHourForward.posix_momentAt hyb', hm, Posix.unitsPerSecond_eq] at hlt'
    omega
  obtain ⟨t, ht, -, -, hsound⟩ := exists_of_validate (s := twiceAtTwo) List.mem_cons_self (by rfl)
    (by decide : 1 ≤ defaultYears)
  obtain rfl := Except.ok.inj (of?_twiceAtTwo.symm.trans ht)
  have hf := hfire.fires
  rw [fires_eq hsound] at hf
  have hminute : minute (y * 1000000) ∈ [10, 35] := by
    simp only [Except.ok.injEq, Bool.and_eq_true, decide_eq_true_eq] at hf
    exact hf.2.2.2.1
  simp only [Change.pushed, minute, List.mem_cons, List.not_mem_nil, or_false] at hle hminute
  omega

/-- From there the last fire time that is found is not the nearest one. -/
theorem last_movesForward_tenToThree :
    ∃ t, of? twiceAtTwo defaultYears = .ok t ∧
      ∃ n, t.last tenToThree = .ok (some n) ∧ ¬ t.Nearest .backward tenToThree n := by
  have hy : (date tenToThree.time).year = 2024 := by rfl
  have hy' : (date twentyFiveToThree.time).year = 2024 := by rfl
  obtain ⟨t, ht, hlast⟩ := last_movesForward (s := twiceAtTwo) (m := tenToThree)
    List.mem_cons_self (by rfl) spaced_halfHourForward rfl ⟨1728143400, by decide⟩ (by omega)
    (by omega)
  obtain rfl := Except.ok.inj (of?_twiceAtTwo.symm.trans ht)
  have hlt : twentyFiveToThree.posix < tenToThree.posix := by decide +kernel
  obtain ⟨n, hn, hnearest⟩ := hlast ⟨_, _, fireOf_twentyFiveToThree, hlt, by omega⟩
  exact ⟨_, ht, n, hn, fun h => hnearest.1 h shadowed_tenToThree⟩

end Timetable

end CronSchedule
