import CronSchedule.Proofs.Search.Start
import CronSchedule.Proofs.Zone.Gap

/-!
# Searches through repeated hours

Where the clock is only ever moved back, a fire time in a repeated hour stands for two moments,
and a search should find the nearest moment of all. It does so except where it starts within a
repeated hour and three fire times of that hour are in the way (`Timetable.Crowded`): then the
walk meets the far pass of the first, gives up at the second, whose near pass is behind, and
never sees the near pass of the third.

* `Timetable.search_movesBack`: the moment found is the nearest one unless the start is crowded.
* `Timetable.next_last_movesBack`: **the next and the last fire time are found wherever there is
  one within 98 years, and they are the nearest ones exactly where the start is not crowded.**
* `Timetable.next_halfPastTwo`: a crowded start, from which a fire time is skipped.
-/

namespace CronSchedule

open LocalTime Moment Zone

namespace Timetable

/-- A moment in the pass of a repeated hour that a search leaves last, where two fire times of the
hour are not ahead on the clock and one is. -/
def Crowded (t : Timetable) (dir : Direction) (m : Moment) : Prop :=
  ∃ c ∈ m.zone.changes, c.Repeats (LocalTime.seconds m.time) ∧ m.secondPass = dir.nearFold ∧
    ∃ w v x, (c.Repeats w ∧ t.fires (w * 1000000) = .ok true) ∧
      (c.Repeats v ∧ t.fires (v * 1000000) = .ok true) ∧
      (c.Repeats x ∧ t.fires (x * 1000000) = .ok true) ∧
      dir.precedes w v = true ∧ dir.precedes (LocalTime.seconds m.time) v = false ∧
        dir.precedes (LocalTime.seconds m.time) x = true

variable {t : Timetable} {dir : Direction} {m n : Moment} {clock u limit : Int}

/-! ### Moments of fire times -/

theorem fireOf_pass (hz : m.zone.Spaced (Change.MovesBack limit)) {w : Int} (hi : Inner w)
    (hf : t.fires (w * 1000000) = .ok true) (second : Bool) :
    t.FireOf m.zone (w * 1000000) (m.zone.momentAt (m.zone.instantOf w second)) := by
  exact fireOf_of_mem_resolve hz hi hf (hz.momentAt_mem_resolve (hz.clockAt_instantOf w second))

/-- A moment of a fire time is the moment of one of its passes. -/
theorem FireOf.exists_pass (dir : Direction) (hz : m.zone.Spaced (Change.MovesBack limit))
    {time : Int} (h : t.FireOf m.zone time n) :
    ∃ w p, time = w * 1000000 ∧ (p = dir.near m.zone w ∨ p = dir.far m.zone w) ∧
      n = m.zone.momentAt p ∧ p.natAbs < 2 ^ 53 := by
  obtain ⟨w, hw, hr, -, hn⟩ := h.exists_resolve hz
  have hb := inRange_mul_iff.1 hr
  obtain ⟨u, rfl, hu, hshown⟩ := hz.exists_of_mem_resolve hn
  have hclock : m.zone.clockAt u = w := by
    rcases hshown with hclock | ⟨rfl, -⟩
    · exact hclock
    · exact hz.clockAt_instantOf w false
  refine ⟨w, u, hw, ?_, rfl, by omega⟩
  have hpass := hz.eq_instantOf hclock
  cases dir with
  | forward => exact hpass
  | backward => exact hpass.symm

/-! ### The clock times that the search meets -/

/-- A search from a whole second, with its clock time and its instant, in a zone whose clock is
only ever moved back. -/
structure Setting (t : Timetable) (dir : Direction) (m : Moment) (clock u limit : Int) : Prop where
  sound : t.Sound
  whole : m.Whole clock u
  spaced : m.zone.Spaced (Change.MovesBack limit)
  nonneg : 0 ≤ limit
  le_day : limit ≤ 86400
  years : t.WithinYears dir m
  two_le : 2 ≤ t.maxYears

/-- The clock times that a search meets from its start on. -/
def met (t : Timetable) (dir : Direction) (m : Moment) (clock u : Int) : List Int :=
  t.clocks dir (startClock dir m.zone clock u * 1000000)

namespace Setting

variable (h : t.Setting dir m clock u limit)

include h

theorem inner : Inner clock := h.whole.inner h.years.1.1 h.years.1.2

theorem natAbs_lt : u.natAbs < 2 ^ 53 := h.whole.natAbs_lt h.spaced h.inner

theorem fires_of_mem {w : Int} (hw : w ∈ t.met dir m clock u) : t.fires (w * 1000000) = .ok true :=
  ((mem_clocks h.sound).1 hw).1.2.1

theorem startClock_near : dir.key clock - 172800 ≤ dir.key (startClock dir m.zone clock u) ∧
    dir.key (startClock dir m.zone clock u) ≤ dir.key clock := by
  have hs := startClock_bounds dir clock u h.spaced h.nonneg
  have hl := h.le_day
  omega

theorem inner_of_mem {w : Int} (hw : w ∈ t.met dir m clock u) : Inner w :=
  inner_of_mem_clocks h.sound h.years h.whole.time h.startClock_near hw

/-- The search meets a fire time that does not come before its start, up to a year before the
last year it looks at. -/
theorem mem_of_le {w : Int} (hf : t.fires (w * 1000000) = .ok true)
    (hw : dir.key (startClock dir m.zone clock u) ≤ dir.key w)
    (hyw : dir.key (date (w * 1000000)).year + 1 ≤ dir.key (date m.time).year + t.maxYears) :
    w ∈ t.met dir m clock u :=
  mem_clocks_of_le h.sound h.years h.whole.time h.startClock_near hf hw hyw

/-- The search meets a fire time with a far pass ahead. -/
theorem meets {w : Int} (hf : t.fires (w * 1000000) = .ok true)
    (ha : dir.ahead m.instant (dir.far m.zone w) = true)
    (hyw : dir.key (date (w * 1000000)).year + 1 ≤ dir.key (date m.time).year + t.maxYears) :
    w ∈ t.met dir m clock u := by
  refine h.mem_of_le hf (Int.not_lt.1 fun hlt => ?_) hyw
  rw [not_ahead_of_lt_startClock h.whole h.spaced hlt] at ha
  cases ha

theorem eligible_iff {p : Int} (hp : p.natAbs < 2 ^ 53) :
    dir.eligible (m.zone.momentAt p).posix m.posix = dir.ahead m.instant p :=
  Direction.eligible_momentAt h.spaced hp (h.whole.sharp h.natAbs_lt)

theorem far_ahead {w p : Int} (hp : p = dir.near m.zone w ∨ p = dir.far m.zone w)
    (ha : dir.ahead m.instant p = true) : dir.ahead m.instant (dir.far m.zone w) = true := by
  have := (Direction.passes dir h.spaced).near_le w
  rw [h.whole.ahead_iff] at ha ⊢
  rcases hp with rfl | rfl <;> omega

/-- The clock times of the hour that a moment repeats are days away from the ends of the calendar,
and of the same year or the next. -/
theorem near_of_repeats {c : Change} (hc : c ∈ m.zone.changes) (hr : c.Repeats clock) {x : Int}
    (hx : c.Repeats x) :
    Inner x ∧ dir.key (date (x * 1000000)).year ≤ dir.key (date m.time).year + 1 := by
  have hd := (h.spaced.changes c hc).2
  have hl := h.le_day
  have h1 := le_of_two_le_year h.years.1.1
  have h2 := lt_of_year_le h.years.1.2
  rw [h.whole.time] at h1 h2 ⊢
  unfold Change.Repeats at hr hx
  have h3 := year_le_succ (show x * 1000000 ≤ clock * 1000000 + 31536000000000 by omega)
  have h4 := year_le_succ (show clock * 1000000 ≤ x * 1000000 + 31536000000000 by omega)
  refine ⟨by unfold Inner; omega, ?_⟩
  cases dir <;> simp only [Direction.key] <;> omega

end Setting

/-! ### Three fire times in the way -/

section Crowded

variable (hm : m.Whole clock u) (hz : m.zone.Spaced (Change.MovesBack limit))

include hm hz in
/-- In the pass that a search leaves last, the near passes of the hour are ahead as its clock
times are, and its far passes are all ahead. -/
theorem ahead_of_repeats {c : Change} (hc : c ∈ m.zone.changes) (hr : c.Repeats clock)
    (hp : m.secondPass = dir.nearFold) {x : Int} (hx : c.Repeats x) :
    (dir.ahead m.instant (dir.near m.zone x) = true ↔ dir.key clock < dir.key x) ∧
      dir.ahead m.instant (dir.far m.zone x) = true := by
  obtain ⟨h1, h2⟩ := hz.instantOf_of_repeats hc hr
  obtain ⟨h3, h4⟩ := hz.instantOf_of_repeats hc hx
  have hu := hm.instant
  rw [hm.ahead_iff, hm.ahead_iff]
  unfold Change.Repeats at hr hx
  cases dir <;> simp only [Direction.near, Direction.far, Direction.nearFold, Direction.key,
    Bool.not_false, Bool.not_true] at * <;> rw [hp] at hu <;> omega

include hm hz in
/-- A fire time ahead on the clock has its near pass before every far pass that is ahead of a
time already passed. -/
theorem near_lt_far_of_repeats {c : Change} (hc : c ∈ m.zone.changes) (hr : c.Repeats clock)
    (hp : m.secondPass = dir.nearFold) {x y : Int} (hx : c.Repeats x)
    (hyc : dir.key y < dir.key clock) (ha : dir.ahead m.instant (dir.far m.zone y) = true) :
    dir.key (dir.near m.zone x) < dir.key (dir.far m.zone y) := by
  by_contra hlt
  have hn := hz.changeNear_of_repeats hc hr
  obtain ⟨h1, h2⟩ := hz.instantOf_of_repeats hc hr
  obtain ⟨h3, h4⟩ := hz.instantOf_of_repeats hc hx
  have hu := hm.instant
  have hmn := hm.near hz
  have hb := hn.before
  have ha' := hn.after
  unfold WithinDay at hb ha'
  rw [hm.ahead_iff] at ha
  -- otherwise the far pass lies between the moment and the change
  cases dir with
  | forward =>
    have hy := hz.clockAt_instantOf y true
    simp only [Direction.near, Direction.far, Direction.nearFold, Direction.key,
      Bool.not_false] at *
    rw [hp, h1] at hu
    unfold Change.Repeats at hr hx
    have ho := hn.offsetAt (m.zone.instantOf y true) (by omega) (by omega)
    unfold Zone.clockAt at hy
    rw [ho, Change.offsetAt, if_neg (by omega)] at hy
    omega
  | backward =>
    have hy := hz.clockAt_instantOf y false
    simp only [Direction.near, Direction.far, Direction.nearFold, Direction.key, Bool.not_true] at *
    rw [hp, h2] at hu
    unfold Change.Repeats at hr hx
    have ho := hn.offsetAt (m.zone.instantOf y false) (by omega) (by omega)
    unfold Zone.clockAt at hy
    rw [ho, Change.offsetAt, if_pos (by omega)] at hy
    omega

include hm hz in
/-- What is in the way of a search lies in one repeated hour, and so does the moment. -/
theorem exists_repeats {w v x : Int} (hwv : dir.key w < dir.key v) (hvx : dir.key v < dir.key x)
    (hv : dir.ahead m.instant (dir.near m.zone v) = false)
    (hx : dir.ahead m.instant (dir.near m.zone x) = true)
    (hlt : dir.key (dir.near m.zone x) < dir.key (dir.far m.zone w)) :
    ∃ c ∈ m.zone.changes, (c.Repeats w ∧ c.Repeats v ∧ c.Repeats x) ∧ c.Repeats clock ∧
      m.secondPass = dir.nearFold ∧ dir.key v ≤ dir.key clock ∧ dir.key clock < dir.key x := by
  rw [← Bool.not_eq_true, hm.ahead_iff] at hv
  rw [hm.ahead_iff] at hx
  cases dir with
  | forward =>
    simp only [Direction.near, Direction.far, Direction.nearFold, Direction.key,
      Bool.not_false] at *
    -- the later time comes in its first pass before the earlier one in its second
    obtain ⟨c, hc, hr⟩ := hz.exists_repeats_of_lt hlt
      (by rw [hz.clockAt_instantOf, hz.clockAt_instantOf]; omega)
    rw [hz.clockAt_instantOf, hz.clockAt_instantOf] at hr
    have hrv := hr v (by omega) (by omega)
    have hrx := hr x (by omega) (by omega)
    rw [(hz.instantOf_of_repeats hc hrv).1] at hv
    rw [(hz.instantOf_of_repeats hc hrx).1] at hx
    have hb := (hz.withinDay_of_mem hc).1
    have ha := (hz.withinDay_of_mem hc).2
    have hrv' := hrv
    unfold WithinDay at hb ha
    unfold Change.Repeats at hrv' hrx
    -- so the moment lies in the first pass, too
    have hclock := hm.clock_eq hz hc hrv (by omega) (by omega)
    rw [Change.offsetAt, if_neg (by omega)] at hclock
    have hrc := hr clock (by omega) (by omega)
    refine ⟨c, hc, ⟨hr w (by omega) (by omega), hrv, hrx⟩, hrc, ?_, by omega, by omega⟩
    rw [hm.secondPass_eq hz hc hrc]
    exact decide_eq_false (by omega)
  | backward =>
    simp only [Direction.near, Direction.far, Direction.nearFold, Direction.key, Bool.not_true] at *
    obtain ⟨c, hc, hr⟩ := hz.exists_repeats_of_lt (Int.neg_lt_neg_iff.1 hlt)
      (by rw [hz.clockAt_instantOf, hz.clockAt_instantOf]; omega)
    rw [hz.clockAt_instantOf, hz.clockAt_instantOf] at hr
    have hrv := hr v (by omega) (by omega)
    have hrx := hr x (by omega) (by omega)
    rw [(hz.instantOf_of_repeats hc hrv).2] at hv
    rw [(hz.instantOf_of_repeats hc hrx).2] at hx
    have hb := (hz.withinDay_of_mem hc).1
    have ha := (hz.withinDay_of_mem hc).2
    have hrv' := hrv
    unfold WithinDay at hb ha
    unfold Change.Repeats at hrv' hrx
    -- so the moment lies in the second pass, too
    have hclock := hm.clock_eq hz hc hrv (by omega) (by omega)
    rw [Change.offsetAt, if_pos (by omega)] at hclock
    have hrc := hr clock (by omega) (by omega)
    refine ⟨c, hc, ⟨hr w (by omega) (by omega), hrv, hrx⟩, hrc, ?_, by omega, by omega⟩
    rw [hm.secondPass_eq hz hc hrc]
    exact decide_eq_true (by omega)

end Crowded

/-! ### The moment that is found -/

namespace Setting

variable (h : t.Setting dir m clock u limit)

include h

/-- The search finds the moment of what is picked from the clock times it meets. -/
theorem search_eq : t.search dir m = .ok
    ((dir.pick m.instant (dir.near m.zone) (dir.far m.zone) (t.met dir m clock u)).map
      m.zone.momentAt) :=
  search_eq_pick h.sound h.spaced (h.whole.sharp h.natAbs_lt)
    (searchStart_eq h.whole h.spaced h.nonneg h.le_day h.inner) fun _ hw => h.inner_of_mem hw

section Pick

variable {i : Int}
  (hi : dir.pick m.instant (dir.near m.zone) (dir.far m.zone) (t.met dir m clock u) = some i)

include hi

theorem natAbs_pick_lt : i.natAbs < 2 ^ 53 := by
  obtain ⟨-, y, hy, rfl | rfl⟩ := Direction.pick_sound hi
  · exact Direction.near_bounds dir h.spaced (h.inner_of_mem hy)
  · exact Direction.far_bounds dir h.spaced (h.inner_of_mem hy)

theorem firesAt_pick : t.FiresAt m.zone (m.zone.momentAt i) := by
  obtain ⟨-, y, hy, rfl | rfl⟩ := Direction.pick_sound hi
  · exact ⟨_, fireOf_pass h.spaced (h.inner_of_mem hy) (h.fires_of_mem hy) _⟩
  · exact ⟨_, fireOf_pass h.spaced (h.inner_of_mem hy) (h.fires_of_mem hy) _⟩

/-- From a crowded start a far pass is found, and there is a near pass before it. -/
theorem not_nearest_of_crowded (hcr : t.Crowded dir m) :
    ¬ t.Nearest dir m (m.zone.momentAt i) := by
  obtain ⟨c, hc, hrc, hps, w, v, x, ⟨hrw, hfw⟩, ⟨hrv, hfv⟩, ⟨hrx, hfx⟩, hwv, hcv, hcx⟩ := hcr
  rw [h.whole.time, seconds_mul] at hrc hcv hcx
  rw [Direction.precedes_iff] at hwv hcx
  rw [Direction.precedes_eq_false_iff] at hcv
  have hahead := fun {k} (hk : c.Repeats k) =>
    ahead_of_repeats h.whole h.spaced hc hrc hps hk
  have hxx := (hahead hrx).1.2 hcx
  -- the search meets the first and the second fire time
  have hmeet := fun {k} (hk : c.Repeats k) (hf : t.fires (k * 1000000) = .ok true) =>
    h.meets hf (hahead hk).2 (by
      have := (h.near_of_repeats hc hrc hk).2
      have := h.two_le
      omega)
  have hav : dir.ahead m.instant (dir.near m.zone v) = false := by
    rw [← Bool.not_eq_true, (hahead hrv).1]
    omega
  obtain ⟨y, -, hyw, rfl⟩ := Direction.pick_of_crowded (Direction.passes dir h.spaced)
    (sorted_clocks h.sound _) hi (hmeet hrw hfw) (hmeet hrv hfv) hwv (hahead hrw).2 hav
  -- so it finds a far pass, and the third fire time has its near pass before it
  have hlt := near_lt_far_of_repeats h.whole h.spaced hc hrc hps hrx (y := y) (by omega)
    (Direction.pick_sound hi).1
  have hinner := (h.near_of_repeats hc hrc hrx).1
  have hxb := Direction.near_bounds dir h.spaced hinner
  have hfire : t.FiresAt m.zone (m.zone.momentAt (dir.near m.zone x)) :=
    ⟨_, fireOf_pass h.spaced hinner hfx dir.nearFold⟩
  intro hnearest
  have hcloser := hnearest.nearest _ hfire ((h.eligible_iff hxb).trans hxx)
  rw [Direction.closer_momentAt dir h.spaced hxb (h.natAbs_pick_lt hi),
    Direction.precedes_eq_false_iff] at hcloser
  exact absurd hlt (Int.not_lt.2 hcloser)

/-- A pass that is ahead and nearer than the one found has two fire times in its way. -/
theorem crowded_of_nearer {x p : Int} (hx : x ∈ t.met dir m clock u)
    (hp : p = dir.near m.zone x ∨ p = dir.far m.zone x) (ha : dir.ahead m.instant p = true)
    (hlt : dir.key p < dir.key i) : t.Crowded dir m := by
  obtain ⟨w, hw, v, hv, hwv, hvx, hav, hax, hlt⟩ := Direction.pick_crowded
    (Direction.passes dir h.spaced) (sorted_clocks h.sound _) hi hx hp ha hlt
  obtain ⟨c, hc, ⟨hrw, hrv, hrx⟩, hrc, hps, hvc, hcx⟩ :=
    exists_repeats h.whole h.spaced hwv hvx hav hax hlt
  have hclock : LocalTime.seconds m.time = clock := by rw [h.whole.time, seconds_mul]
  refine ⟨c, hc, hclock ▸ hrc, hps, w, v, x, ⟨hrw, h.fires_of_mem hw⟩, ⟨hrv, h.fires_of_mem hv⟩,
    ⟨hrx, h.fires_of_mem hx⟩, ?_, ?_, ?_⟩
  · rwa [Direction.precedes_iff]
  · rwa [hclock, Direction.precedes_eq_false_iff]
  · rwa [hclock, Direction.precedes_iff]

/-- The passes of fire times of the last year or later lie beyond the one found, if the search meets
one of an earlier year. -/
theorem key_lt_of_late {w x p : Int} (hw : w ∈ t.met dir m clock u)
    (ha : dir.ahead m.instant (dir.far m.zone w) = true)
    (hy : dir.key (date (w * 1000000)).year + 1 < dir.key (date (x * 1000000)).year)
    (hp : p = dir.near m.zone x ∨ p = dir.far m.zone x) : dir.key i < dir.key p := by
  have hle := Direction.pick_le (Direction.passes dir h.spaced) (sorted_clocks h.sound _) hi hw ha
  have hxp : dir.key (dir.near m.zone x) ≤ dir.key p := by
    have := (Direction.passes dir h.spaced).near_le x
    rcases hp with rfl | rfl <;> omega
  have hxn := h.spaced.instantOf_near x dir.nearFold
  have hwn := h.spaced.instantOf_near w !dir.nearFold
  cases dir with
  | forward =>
    simp only [Direction.key, Direction.near, Direction.far] at *
    have hwx : ¬ x * 1000000 ≤ w * 1000000 + 31536000000000 := by
      intro h
      have := year_le_succ h
      omega
    omega
  | backward =>
    simp only [Direction.key, Direction.near, Direction.far] at *
    have hwx : ¬ w * 1000000 ≤ x * 1000000 + 31536000000000 := by
      intro h
      have := year_le_succ h
      omega
    omega

end Pick

/-- **Where there is a fire time two years before the last year searched or nearer, one is found,
and it is the nearest one of all exactly where the start is not crowded.** -/
theorem search_movesBack
    (hex : ∃ time n, t.FireOf m.zone time n ∧ dir.eligible n.posix m.posix = true ∧
      dir.key (date time).year + 2 ≤ dir.key (date m.time).year + t.maxYears) :
    ∃ n, t.search dir m = .ok (some n) ∧ (t.Nearest dir m n ↔ ¬ t.Crowded dir m) := by
  obtain ⟨time, n, hfire, hel, hyear⟩ := hex
  obtain ⟨w, p, rfl, hpw, rfl, hpb⟩ := hfire.exists_pass dir h.spaced
  have ha := h.far_ahead hpw ((h.eligible_iff hpb).symm.trans hel)
  have hw := h.meets hfire.fires ha (by omega)
  cases hi : dir.pick m.instant (dir.near m.zone) (dir.far m.zone) (t.met dir m clock u) with
  | none =>
    rw [(Direction.pick_eq_none (Direction.passes dir h.spaced)).1 hi w hw] at ha
    cases ha
  | some i =>
    refine ⟨m.zone.momentAt i, by rw [h.search_eq, hi]; rfl, fun hn hcr => ?_, fun hcr => ?_⟩
    · exact h.not_nearest_of_crowded hi hcr hn
    · have hib := h.natAbs_pick_lt hi
      refine ⟨h.firesAt_pick hi, (h.eligible_iff hib).trans (Direction.pick_sound hi).1, ?_⟩
      rintro n' ⟨time', hfire'⟩ hel'
      obtain ⟨x, q, rfl, hqx, rfl, hqb⟩ := hfire'.exists_pass dir h.spaced
      rw [h.eligible_iff hqb] at hel'
      rw [Direction.closer_momentAt dir h.spaced hqb hib, Direction.precedes_eq_false_iff]
      by_cases hyx : dir.key (date (x * 1000000)).year + 1 ≤
          dir.key (date m.time).year + t.maxYears
      · have hx := h.meets hfire'.fires (h.far_ahead hqx hel') hyx
        exact Int.not_lt.1 fun hlt => hcr (h.crowded_of_nearer hi hx hqx hel' hlt)
      · exact Int.le_of_lt (h.key_lt_of_late hi hw ha (by omega) hqx)

end Setting

/-- **The next and the last fire time are found wherever there is one within 98 years, and they
are the nearest ones exactly where the start is not crowded.** -/
theorem next_last_movesBack {s : Schedule} (hD : s.definition ∈ Dialect.all)
    (hv : s.validate = .ok ()) (hz : m.zone.Spaced (Change.MovesBack 21600))
    (hm : micros m.time = 0) :
    ∃ t, of? s defaultYears = .ok t ∧
      (2 ≤ (date m.time).year → (date m.time).year + 100 ≤ 9998 →
        (∃ time n, t.FireOf m.zone time n ∧ m.posix < n.posix ∧
          (date time).year ≤ (date m.time).year + 98) →
        ∃ n, t.next m = .ok (some n) ∧ (t.Nearest .forward m n ↔ ¬ t.Crowded .forward m)) ∧
      (102 ≤ (date m.time).year → (date m.time).year ≤ 9998 →
        (∃ time n, t.FireOf m.zone time n ∧ n.posix < m.posix ∧
          (date m.time).year - 98 ≤ (date time).year) →
        ∃ n, t.last m = .ok (some n) ∧ (t.Nearest .backward m n ↔ ¬ t.Crowded .backward m)) := by
  obtain ⟨t, ht, -, hmax, hsound⟩ := exists_of_validate hD hv (by decide : 1 ≤ defaultYears)
  rw [show defaultYears = 100 from rfl] at hmax
  have hw : m.Whole (LocalTime.seconds m.time)
      (m.zone.instantOf (LocalTime.seconds m.time) m.secondPass) :=
    ⟨(seconds_mul_of_micros hm).symm, rfl⟩
  refine ⟨t, ht, ?_, ?_⟩
  · rintro hy hy' ⟨time, n, hfire, hlt, hle⟩
    have hyears : t.WithinYears .forward m := by
      simp only [WithinYears, Direction.leastYear, Direction.greatestYear, hmax]
      omega
    have h : t.Setting .forward m _ _ 21600 :=
      ⟨hsound, hw, hz, by decide, by decide, hyears, by omega⟩
    refine h.search_movesBack ⟨time, n, hfire, ?_, ?_⟩
    · simpa [Direction.eligible, Direction.precedes] using hlt
    · simp only [Direction.key]
      omega
  · rintro hy hy' ⟨time, n, hfire, hlt, hle⟩
    have hyears : t.WithinYears .backward m := by
      simp only [WithinYears, Direction.leastYear, Direction.greatestYear, hmax]
      omega
    have h : t.Setting .backward m _ _ 21600 :=
      ⟨hsound, hw, hz, by decide, by decide, hyears, by omega⟩
    refine h.search_movesBack ⟨time, n, hfire, ?_, ?_⟩
    · simpa [Direction.eligible, Direction.precedes] using hlt
    · simp only [Direction.key]
      omega

/-- Every ten minutes from two to three in the night. -/
def tensAtTwo : Schedule :=
  .ofAssignment Dialect.unix fun
    | .minute => some (.every .always 10)
    | .hour => some (.value 2)
    | .dayOfMonth | .month | .dayOfWeek => some .always
    | _ => none

/-- A zone that moves its clock back from three to two in the night of 27 October 2024. -/
def fallBack : Zone := ⟨7200, [⟨1729990800, 3600⟩]⟩

/-- Half past two in the first pass. -/
def halfPastTwo : Moment := ⟨fallBack, 1729996200000000, false⟩

/-- What `tensAtTwo` fires at. -/
def tensTable : Timetable :=
  ⟨tensAtTwo, 100, [0], [0, 10, 20, 30, 40, 50], [2], [1, 2, 3, 4, 5, 6, 7, 8, 9, 10, 11, 12]⟩

theorem of?_tensAtTwo : of? tensAtTwo defaultYears = .ok tensTable := by rfl

theorem spaced_fallBack : fallBack.Spaced (Change.MovesBack 21600) := by
  refine ⟨by decide, ?_, ?_, ?_⟩
  · simp only [fallBack, List.forall_mem_singleton]
    decide
  · exact List.pairwise_singleton _ _
  · simp only [changes, changesFrom, fallBack, List.forall_mem_singleton, Change.MovesBack]
    decide

/-- Ten past two and twenty to three in the first pass. -/
def tenPastTwo : Moment := ⟨fallBack, 1729995000000000, false⟩

@[inherit_doc tenPastTwo]
def twentyToThree : Moment := ⟨fallBack, 1729996800000000, false⟩

/-- Two o'clock in the second pass. -/
def twoAgain : Moment := ⟨fallBack, 1729994400000000, true⟩

theorem fires_tensTable : ∀ w ∈ [1729994400, 1729995000, 1729996800],
    tensTable.fires (w * 1000000) = .ok true := by decide +kernel

theorem posix_order : tenPastTwo.posix < halfPastTwo.posix ∧
    halfPastTwo.posix < twentyToThree.posix ∧ twentyToThree.posix < twoAgain.posix := by
  decide +kernel

theorem fireOf_tenPastTwo : tensTable.FireOf fallBack tenPastTwo.time tenPastTwo :=
  fireOf_pass (m := tenPastTwo) (w := 1729995000) spaced_fallBack (by decide)
    (fires_tensTable _ (by simp)) false

theorem fireOf_twentyToThree : tensTable.FireOf fallBack twentyToThree.time twentyToThree :=
  fireOf_pass (m := twentyToThree) (w := 1729996800) spaced_fallBack (by decide)
    (fires_tensTable _ (by simp)) false

theorem crowded_halfPastTwo : tensTable.Crowded .forward halfPastTwo := by
  have hr : ∀ x : Int, 1729994400 ≤ x → x < 1729998000 →
      (⟨1729990800, 7200, 3600⟩ : Change).Repeats x := by
    intro x h1 h2
    simp only [Change.Repeats]
    omega
  refine ⟨⟨1729990800, 7200, 3600⟩, List.mem_cons_self, hr _ (by decide) (by decide), rfl,
    1729994400, 1729995000, 1729996800, ⟨hr _ (by decide) (by decide), ?_⟩,
    ⟨hr _ (by decide) (by decide), ?_⟩, ⟨hr _ (by decide) (by decide), ?_⟩, rfl, rfl, rfl⟩
  all_goals exact fires_tensTable _ (by simp)

/-- **From half past two in the first pass, two o'clock of the second pass is found, and twenty to
three of the first pass is skipped.** -/
theorem next_halfPastTwo :
    tensAtTwo.definition ∈ Dialect.all ∧ tensAtTwo.validate = .ok () ∧
      fallBack.Spaced (Change.MovesBack 21600) ∧ of? tensAtTwo defaultYears = .ok tensTable ∧
        tensTable.next halfPastTwo = .ok (some twoAgain) ∧
          tensTable.FiresAt fallBack twentyToThree ∧
            halfPastTwo.posix < twentyToThree.posix ∧ twentyToThree.posix < twoAgain.posix :=
  ⟨List.mem_cons_self, by rfl, spaced_fallBack, of?_tensAtTwo, by decide +kernel,
    ⟨_, fireOf_twentyToThree⟩, posix_order.2⟩

/-- From there the next fire time is not the nearest one, and the last one is. -/
theorem next_last_halfPastTwo :
    ∃ t, of? tensAtTwo defaultYears = .ok t ∧
      (∃ n, t.next halfPastTwo = .ok (some n) ∧ ¬ t.Nearest .forward halfPastTwo n) ∧
        ∃ n, t.last halfPastTwo = .ok (some n) ∧ t.Nearest .backward halfPastTwo n := by
  obtain ⟨t, ht, hnext, hlast⟩ := next_last_movesBack (s := tensAtTwo) (m := halfPastTwo)
    List.mem_cons_self (by rfl) spaced_fallBack rfl
  obtain rfl := Except.ok.inj (of?_tensAtTwo.symm.trans ht)
  have hy : (date halfPastTwo.time).year = 2024 := by rfl
  have hy' : (date twentyToThree.time).year = 2024 := by rfl
  have hy'' : (date tenPastTwo.time).year = 2024 := by rfl
  obtain ⟨n, hn, hn'⟩ := hnext (by omega) (by omega)
    ⟨_, _, fireOf_twentyToThree, posix_order.2.1, by omega⟩
  obtain ⟨l, hl, hl'⟩ := hlast (by omega) (by omega)
    ⟨_, _, fireOf_tenPastTwo, posix_order.1, by omega⟩
  refine ⟨_, ht, ⟨n, hn, fun h => hn'.1 h crowded_halfPastTwo⟩, l, hl, hl'.2 ?_⟩
  -- a search backward is crowded only from the second pass
  rintro ⟨c, -, -, hp, -⟩
  cases hp

end Timetable

end CronSchedule
