import CronSchedule.Proofs.Search.BesideGap
import Mathlib.Data.Int.LeastGreatest

/-!
# Questions at skipped times

A skipped time stands for the same moment as the time that the clock shows at its instant. A search
ahead does not tell the two apart. A match goes back to a skipped time from the one that is shown,
but not the other way. A search back does not come from the skipped time to the fire times after the
gap.

* `Timetable.BesideGap.isMatch_skipped`, `Timetable.BesideGap.isMatch_shown`: what a match asks at a
  skipped time and at the time that is shown.
* `Timetable.BesideGap.last_alike_iff`: when the two searches back find the same.
* `Timetable.queries_of_skips`: **at a skipped time and at the time that is shown instead the next
  search has the same answer, and a match and the last search have exactly under two conditions.**
* `Timetable.isMatch_last_skippedHalfPastTwo`: a skipped time at which they have not.
-/

namespace CronSchedule

open LocalTime Moment Zone

namespace Timetable

open Direction

/-- A match answers at a skipped moment `m` as at the same moment `n` that the clock shows. The
schedule fires at the skipped time if it fires at the time that is shown. A skipped time that counts
with the offset after the change is not asked for from there, so then it also has to be the other
way round. -/
structure MatchesAlike (t : Timetable) (m n : Moment) : Prop where
  skipped : t.fires n.time = .ok true → t.fires m.time = .ok true
  shown : m.secondPass = true → t.fires m.time = .ok true → t.fires n.time = .ok true

/-- A search back finds from a moment `m` that a change skips what it finds from the same moment `n`
that the clock shows. The last fire time between the gap and `n` is the one that the last skipped
fire time before `m` is pushed to. If there is none, a fire time before both lies within the years
that the search looks at for both years or for neither. -/
structure LooksBackAlike (t : Timetable) (c : Change) (m n : Moment) : Prop where
  pushed : ∀ y, IsGreatest (t.firing (c.start + c.after) (LocalTime.seconds n.time)) y →
    IsGreatest (t.firing (c.start + c.before) (LocalTime.seconds m.time)) (y - (c.after - c.before))
  years : t.firing (c.start + c.after) (LocalTime.seconds n.time) = ∅ →
    let clock := min (LocalTime.seconds m.time) (LocalTime.seconds n.time)
    (t.seenFrom (date m.time).year clock).Nonempty ↔ (t.seenFrom (date n.time).year clock).Nonempty

variable {t : Timetable} {c : Change} {m q : Moment} {clock a u x x' y year year' : Int}

namespace BesideGap

variable (h : t.BesideGap c q a u)

include h

/-! ### Matches -/

/-- From a skipped time a match does not go back. -/
theorem skipped?_of_skips (hs : c.Skips a) : q.skipped? = .ok none := by
  obtain ⟨hu, ha, hjump⟩ := h.bounds
  have hi := h.innermost
  unfold Innermost at hi
  unfold Change.Skips at hs
  rw [skipped?, h.forwardJump]
  rcases h.clock with hbefore | hafter
  · simp only [bind, Except.bind, hbefore, Int.sub_self, if_true]
    rfl
  · -- with the offset after the change it stands for an instant before the gap
    have hne : a - (u + c.before) ≠ 0 := by omega
    have htime : q.time - (a - (u + c.before)) * 1000000 = (u + c.before) * 1000000 := by
      rw [h.whole.time]
      omega
    have hr : InRange ((u + c.before) * 1000000) := by
      rw [inRange_mul_iff]
      omega
    have hone : q.zone.resolve (u + c.before) = [q.zone.momentAt (u + c.before - c.before)] :=
      h.day.resolve_before h.mem h.before_lt (by omega) (by omega)
    rw [Int.add_sub_cancel] at hone
    have hmoments := h.spaced.instantsOf_eq (show Inner (u + c.before) by unfold Inner; omega)
    have hshown := h.day.clockAt_of_near h.mem (u := u) (by omega) (by omega)
    rw [Change.offsetAt, if_neg (by omega)] at hshown
    simp only [bind, Except.bind, hne, if_false, htime, inRange_eq_ok hr, hmoments, hone,
      time_momentAt, hshown]
    simp
    rfl

/-- **A match at a skipped time asks for this time only.** -/
theorem isMatch_skipped (hs : c.Skips a) : t.isMatch q = t.fires q.time := by
  have hm : micros q.time = 0 := by
    rw [h.whole.time, micros]
    omega
  obtain ⟨b, hb⟩ : ∃ b, t.fires q.time = .ok b := ⟨_, fires_eq h.sound _⟩
  simp only [isMatch, hm, h.skipped?_of_skips hs, hb, bind, Except.bind, ne_eq, not_true_eq_false,
    if_false]
  cases b with
  | true => rfl
  | false => rfl

/-- The clock times that a match asks for where the moment is shown. -/
theorem readBack_iff :
    q.zone.ReadBack u x ↔ q.zone.clockAt u = x ∨ c.start ≤ u ∧ x = u + c.before := by
  obtain ⟨hu, ha, hjump⟩ := h.bounds
  rw [h.day.readBack_iff]
  apply or_congr_right
  constructor
  · rintro ⟨d, hd, hskips, hu, hsoon⟩
    unfold Change.Skips at hskips
    obtain rfl : c = d := h.spaced.eq_of_near h.mem hd (by omega) (by omega)
    exact ⟨by omega, by omega⟩
  · rintro ⟨hstart, rfl⟩
    exact ⟨c, h.mem, ⟨by omega, by omega⟩, by omega, by omega⟩

/-- **A match at the time that is shown asks for it and for the skipped time that is pushed to it.**
-/
theorem isMatch_shown (ha : q.zone.clockAt u = a) :
    ∃ b, t.isMatch q = .ok b ∧ (b = true ↔ t.fires q.time = .ok true ∨
      c.start ≤ u ∧ t.fires ((u + c.before) * 1000000) = .ok true) := by
  obtain ⟨b, hb, hmatch⟩ := isMatch_eq h.sound h.whole h.spaced ha h.innermost
  refine ⟨b, hb, hmatch.trans ?_⟩
  constructor
  · rintro ⟨x, hback, hf⟩
    rcases h.readBack_iff.1 hback with hx | ⟨hstart, rfl⟩
    · left
      rwa [h.whole.time, ← ha, hx]
    · exact .inr ⟨hstart, hf⟩
  · rintro (hf | ⟨hstart, hf⟩)
    · refine ⟨a, h.readBack_iff.2 (.inl ha), ?_⟩
      rwa [h.whole.time] at hf
    · exact ⟨_, h.readBack_iff.2 (.inr ⟨hstart, rfl⟩), hf⟩

/-! ### Searches back -/

/-- With no fire time after the gap a search back finds the last one that is ahead, if there is any.
-/
theorem exists_last (hempty : t.firing (c.start + c.after) a = ∅) :
    (∃ x, IsGreatest (t.seenFrom (date q.time).year (u + c.before)) x ∧
        t.search backward q = .ok (q.zone.resolve x).getLast?) ∨
      ¬ (t.seenFrom (date q.time).year (u + c.before)).Nonempty ∧ t.search backward q = .ok none := by
  by_cases hseen : (t.seenFrom (date q.time).year (u + c.before)).Nonempty
  · left
    obtain ⟨x, hx, hmax⟩ := Int.exists_greatest_of_bdd
      (P := (· ∈ t.seenFrom (date q.time).year (u + c.before)))
      ⟨u + c.before, fun v hv => Int.le_of_lt hv.1.1⟩ hseen
    have hgreatest : IsGreatest (t.seenFrom (date q.time).year (u + c.before)) x := ⟨hx, hmax⟩
    exact ⟨x, hgreatest, h.last_of_isGreatest hempty hgreatest⟩
  · exact .inr ⟨hseen, h.last_of_unseen hempty hseen⟩

end BesideGap

/-! ### A skipped time and the time that is shown instead -/

theorem seconds_momentAt (z : Zone) (u : Int) :
    LocalTime.seconds (z.momentAt u).time = z.clockAt u := by
  rw [time_momentAt, seconds_mul]

/-- Two searches back that see a fire time see the same one last. -/
theorem eq_of_isGreatest_seenFrom (h : IsGreatest (t.seenFrom year clock) x)
    (h' : IsGreatest (t.seenFrom year' clock) x') : x = x' := by
  obtain ⟨⟨hx, hy⟩, hmax⟩ := h
  obtain ⟨⟨hx', hy'⟩, hmax'⟩ := h'
  rcases Int.le_total x x' with hle | hle
  · have hmono := year_mono (show x * 1000000 ≤ x' * 1000000 by omega)
    exact Int.le_antisymm hle (hmax ⟨hx', by omega⟩)
  · have hmono := year_mono (show x' * 1000000 ≤ x * 1000000 by omega)
    exact Int.le_antisymm (hmax' ⟨hx, by omega⟩) hle

/-- What a search back comes to before a gap is a moment before the change. -/
theorem BesideGap.exists_getLast (h : t.BesideGap c q a u) (hx : x < c.start + c.before) :
    ∃ p, (q.zone.resolve x).getLast? = some (q.zone.momentAt p) ∧ p < c.start := by
  have hmoved := h.before_lt
  obtain ⟨n, hn⟩ := exists_getLast?_resolve q.zone x
  obtain ⟨p, rfl, -, hp⟩ := h.day.exists_lt_of_mem_resolve h.mem (u := c.start) (by omega) (by omega)
    hx (List.mem_of_getLast? hn)
  exact ⟨p, hn, hp⟩

/-- A skipped moment `m` and the same moment as the clock shows it. -/
structure SkippedPair (t : Timetable) (c : Change) (m : Moment) (clock u : Int) : Prop where
  given : t.BesideGap c m clock u
  shown : t.BesideGap c (m.zone.momentAt u) (m.zone.clockAt u) u
  skips : c.Skips clock
  start_le_iff : c.start ≤ u ↔ m.secondPass = false

namespace SkippedPair

variable (h : t.SkippedPair c m clock u)

include h

theorem seconds_time : LocalTime.seconds m.time = clock := by rw [h.given.whole.time, seconds_mul]

/-- Before the change both clocks count with the offset before it. -/
theorem clock_eq : (c.start ≤ u ∧ clock = u + c.before ∧ m.zone.clockAt u = u + c.after) ∨
    (u < c.start ∧ clock = u + c.after ∧ m.zone.clockAt u = u + c.before) := by
  have hclock := h.given.clock
  have hskips := h.skips
  obtain ⟨hu, ha, hjump⟩ := h.given.bounds
  have hshown := h.given.day.clockAt_of_near h.given.mem (u := u) (by omega) (by omega)
  unfold Change.Skips at hskips
  rw [Change.offsetAt] at hshown
  split at hshown
  · left
    omega
  · right
    omega

theorem min_clock :
    min (LocalTime.seconds m.time) (LocalTime.seconds (m.zone.momentAt u).time) =
      u + c.before := by
  have hmoved := h.given.before_lt
  rw [h.seconds_time, seconds_momentAt]
  rcases h.clock_eq with ⟨-, hclock, hshown⟩ | ⟨-, hclock, hshown⟩
  · omega
  · omega

/-- The search back from the skipped time meets nothing after the gap. -/
theorem firing_eq_empty : t.firing (c.start + c.after) clock = ∅ := by
  rw [Set.eq_empty_iff_forall_notMem]
  rintro x ⟨⟨hge, hlt⟩, -⟩
  have hend := h.skips.2
  omega

/-! ### The two searches back -/

theorem looksBackAlike_iff_of_empty
    (hempty : t.firing (c.start + c.after) (m.zone.clockAt u) = ∅) :
    t.LooksBackAlike c m (m.zone.momentAt u) ↔
      ((t.seenFrom (date m.time).year (u + c.before)).Nonempty ↔
        (t.seenFrom (date (m.zone.momentAt u).time).year (u + c.before)).Nonempty) := by
  constructor
  · intro halike
    have hyears := halike.years (by rw [seconds_momentAt, hempty])
    rwa [h.min_clock] at hyears
  · intro hyears
    refine ⟨?_, fun _ => ?_⟩
    · intro y hy
      rw [seconds_momentAt, hempty] at hy
      exact absurd hy.1 (Set.notMem_empty y)
    · rw [h.min_clock]
      exact hyears

theorem looksBackAlike_iff_of_isGreatest
    (hy : IsGreatest (t.firing (c.start + c.after) (m.zone.clockAt u)) y) :
    t.LooksBackAlike c m (m.zone.momentAt u) ↔
      IsGreatest (t.firing (c.start + c.before) clock) (y - (c.after - c.before)) := by
  constructor
  · intro halike
    have hpushed := halike.pushed y (by rwa [seconds_momentAt])
    rwa [h.seconds_time] at hpushed
  · intro hpushed
    refine ⟨?_, ?_⟩
    · intro y' hy'
      rw [seconds_momentAt] at hy'
      rw [h.seconds_time, hy'.unique hy]
      exact hpushed
    · intro hempty
      rw [seconds_momentAt] at hempty
      rw [hempty] at hy
      exact absurd hy.1 (Set.notMem_empty y)

/-- With no fire time after the gap, both searches find the same one or one of them finds none. -/
theorem last_of_empty (hempty : t.firing (c.start + c.after) (m.zone.clockAt u) = ∅) :
    ∃ r r', t.search backward m = .ok r ∧ t.search backward (m.zone.momentAt u) = .ok r' ∧
      (r.map Moment.instant = r'.map Moment.instant ↔ t.LooksBackAlike c m (m.zone.momentAt u)) := by
  rw [h.looksBackAlike_iff_of_empty hempty]
  rcases h.given.exists_last h.firing_eq_empty with ⟨x, hx, hr⟩ | ⟨hnone, hr⟩
  · obtain ⟨n, hn⟩ := exists_getLast?_resolve m.zone x
    rcases h.shown.exists_last hempty with ⟨x', hx', hr'⟩ | ⟨hnone', hr'⟩
    · obtain rfl := eq_of_isGreatest_seenFrom hx hx'
      exact ⟨_, _, hr, hr', iff_of_true rfl (iff_of_true ⟨x, hx.1⟩ ⟨x, hx'.1⟩)⟩
    · refine ⟨_, _, hr, hr', iff_of_false ?_ fun hiff => hnone' (hiff.1 ⟨x, hx.1⟩)⟩
      rw [hn]
      exact Option.some_ne_none _
  · rcases h.shown.exists_last hempty with ⟨x', hx', hr'⟩ | ⟨hnone', hr'⟩
    · obtain ⟨n, hn⟩ := exists_getLast?_resolve m.zone x'
      refine ⟨_, _, hr, hr', iff_of_false ?_ fun hiff => hnone (hiff.2 ⟨x', hx'.1⟩)⟩
      rw [zone_momentAt, hn]
      exact (Option.some_ne_none _).symm
    · exact ⟨_, _, hr, hr', iff_of_true rfl (iff_of_false hnone hnone')⟩

/-- A skipped fire time before the skipped moment is one that the search back from there looks at.
-/
theorem mem_seenFrom (hstart : c.start ≤ u) (hx : x ∈ t.firing (c.start + c.before) clock) :
    x ∈ t.seenFrom (date m.time).year (u + c.before) := by
  obtain ⟨⟨hge, hlt⟩, hf⟩ := hx
  have hend := h.skips.2
  obtain ⟨-, -, hjump⟩ := h.given.bounds
  have hclock := h.clock_eq
  have hyear := year_le_succ (show m.time ≤ x * 1000000 + 31536000000000 by
    rw [h.given.whole.time]; omega)
  refine ⟨⟨by omega, hf⟩, ?_⟩
  rw [h.given.maxYears]
  omega

/-- With a last fire time after the gap, both searches find the same if and only if the last skipped
one is pushed to it. -/
theorem last_of_isGreatest (hy : IsGreatest (t.firing (c.start + c.after) (m.zone.clockAt u)) y) :
    ∃ r r', t.search backward m = .ok r ∧ t.search backward (m.zone.momentAt u) = .ok r' ∧
      (r.map Moment.instant = r'.map Moment.instant ↔ t.LooksBackAlike c m (m.zone.momentAt u)) := by
  rw [h.looksBackAlike_iff_of_isGreatest hy]
  have hr' := h.shown.last_of_firing hy
  rw [zone_momentAt] at hr'
  obtain ⟨⟨hge, hlt⟩, -⟩ := hy.1
  obtain ⟨hstart, hclock, -⟩ := h.clock_eq.resolve_right (by
    have hmoved := h.given.before_lt
    omega)
  rcases h.given.exists_last h.firing_eq_empty with ⟨x, hx, hr⟩ | ⟨hnone, hr⟩
  · refine ⟨_, _, hr, hr', ?_⟩
    have hxu := hx.1.1.1
    have hend := h.skips.2
    have hlast : c.start + c.before ≤ x →
        (m.zone.resolve x).getLast? = some (m.zone.momentAt (x - c.before)) := by
      intro hge'
      rw [h.given.day.resolve_before h.given.mem h.given.before_lt (by omega) (by omega)]
      rfl
    constructor
    · intro hsame
      have hgap : c.start + c.before ≤ x := by
        by_contra hbefore
        obtain ⟨p, hp, hpstart⟩ := h.given.exists_getLast (Int.not_le.1 hbefore)
        rw [hp, Option.map_some, Option.map_some, h.given.day.instant_momentAt,
          h.given.day.instant_momentAt, Option.some.injEq] at hsame
        omega
      rw [hlast hgap, Option.map_some, Option.map_some, h.given.day.instant_momentAt,
        h.given.day.instant_momentAt, Option.some.injEq] at hsame
      obtain rfl : x = y - (c.after - c.before) := by omega
      refine ⟨⟨⟨hgap, by omega⟩, hx.1.1.2⟩, ?_⟩
      intro x' hx'
      exact hx.2 (h.mem_seenFrom hstart hx')
    · intro hpushed
      have hle := hx.2 (h.mem_seenFrom hstart hpushed.1)
      have hgap := hpushed.1.1.1
      have hle' := hpushed.2 ⟨⟨by omega, by omega⟩, hx.1.1.2⟩
      obtain rfl : x = y - (c.after - c.before) := Int.le_antisymm hle' hle
      rw [hlast hgap]
      congr 3
      omega
  · refine ⟨_, _, hr, hr', iff_of_false nofun ?_⟩
    intro hpushed
    exact hnone ⟨_, h.mem_seenFrom hstart hpushed.1⟩

/-- **The two searches back find the same if and only if they look back alike.** -/
theorem last_alike_iff :
    ∃ r r', t.search backward m = .ok r ∧ t.search backward (m.zone.momentAt u) = .ok r' ∧
      (r.map Moment.instant = r'.map Moment.instant ↔ t.LooksBackAlike c m (m.zone.momentAt u)) := by
  by_cases hempty : t.firing (c.start + c.after) (m.zone.clockAt u) = ∅
  · exact h.last_of_empty hempty
  · obtain ⟨y, hy, hmax⟩ := Int.exists_greatest_of_bdd
      (P := (· ∈ t.firing (c.start + c.after) (m.zone.clockAt u)))
      ⟨m.zone.clockAt u, fun v hv => Int.le_of_lt hv.1.2⟩ (Set.nonempty_iff_ne_empty.2 hempty)
    exact h.last_of_isGreatest ⟨hy, hmax⟩

/-! ### The two matches and the two searches ahead -/

/-- **The two matches have the same answer if and only if they match alike.** -/
theorem match_alike_iff :
    ∃ b b', t.isMatch m = .ok b ∧ t.isMatch (m.zone.momentAt u) = .ok b' ∧
      (b = b' ↔ t.MatchesAlike m (m.zone.momentAt u)) := by
  obtain ⟨b, hb⟩ : ∃ b, t.fires m.time = .ok b := ⟨_, fires_eq h.given.sound _⟩
  obtain ⟨b', hb', hmatch⟩ := h.shown.isMatch_shown rfl
  refine ⟨b, b', (h.given.isMatch_skipped h.skips).trans hb, hb', ?_⟩
  have hgiven : b = true ↔ t.fires m.time = .ok true := by
    rw [hb, Except.ok.injEq]
  rw [Bool.eq_iff_iff, hgiven, hmatch]
  rcases h.clock_eq with ⟨hstart, hclock, -⟩ | ⟨hbefore, -, -⟩
  · -- the skipped time is pushed to the time that is shown
    have hfirst := h.start_le_iff.1 hstart
    rw [← hclock, ← h.given.whole.time]
    constructor
    · intro hiff
      refine ⟨fun hf => hiff.2 (.inl hf), ?_⟩
      intro hsecond
      rw [hfirst] at hsecond
      cases hsecond
    · intro halike
      refine ⟨fun hf => .inr ⟨hstart, hf⟩, ?_⟩
      rintro (hf | ⟨-, hf⟩)
      · exact halike.skipped hf
      · exact hf
  · have hsecond : m.secondPass = true := by
      rw [← Bool.not_eq_false, ← h.start_le_iff]
      omega
    constructor
    · intro hiff
      refine ⟨fun hf => hiff.2 (.inl hf), fun _ hf => ?_⟩
      exact (hiff.1 hf).resolve_right fun hs => by omega
    · intro halike
      refine ⟨fun hf => .inl (halike.shown hsecond hf), ?_⟩
      rintro (hf | ⟨hstart, -⟩)
      · exact halike.skipped hf
      · omega

/-- **The two searches ahead are one.** -/
theorem search_forward_eq :
    t.search forward (m.zone.momentAt u) = t.search forward m := by
  rw [h.given.search_forward, h.shown.search_forward, zone_momentAt]

end SkippedPair

/-! ### Questions -/

/-- A moment that a change skips is beside its gap. -/
theorem besideGap_of_skips (ht : t.Sound) (hD : t.schedule.definition ∈ Dialect.all)
    (hv : t.schedule.validate = .ok ()) (hmax : t.maxYears = 100)
    (hz : m.zone.Spaced (Change.MovesBy 21600)) (hw : m.Whole clock u) (hc : c ∈ m.zone.changes)
    (hs : c.Skips clock) (hy : 101 ≤ (date m.time).year) (hy' : (date m.time).year ≤ 9851) :
    t.BesideGap c m clock u ∧ (c.start ≤ u ↔ m.secondPass = false) := by
  have hjump := (hz.changes c hc).1
  have hfirst := (hz.instantOf_of_skips hc hs).1
  have hsecond := hz.instantOf_true_of_skips hc hs
  have hu := hw.instant
  unfold Change.Skips at hs
  cases hpass : m.secondPass with
  | false =>
    rw [hpass, hfirst] at hu
    exact ⟨⟨ht, hD, hv, hmax, hw, hz, hc, by omega, by omega, by omega, .inl (by omega), hy, hy'⟩,
      iff_of_true (by omega) rfl⟩
  | true =>
    rw [hpass, hsecond] at hu
    exact ⟨⟨ht, hD, hv, hmax, hw, hz, hc, by omega, by omega, by omega, .inr (by omega), hy, hy'⟩,
      iff_of_false (by omega) nofun⟩

/-- So is the moment that the clock shows then. -/
theorem BesideGap.shown (h : t.BesideGap c q a u) (hy : 102 ≤ (date q.time).year)
    (hy' : (date q.time).year ≤ 9850) :
    t.BesideGap c (q.zone.momentAt u) (q.zone.clockAt u) u := by
  obtain ⟨hu, ha, hjump⟩ := h.bounds
  have hshown := h.day.clockAt_of_near h.mem (u := u) (by omega) (by omega)
  rw [Change.offsetAt] at hshown
  have hcases : q.zone.clockAt u = u + c.before ∨ q.zone.clockAt u = u + c.after := by
    split at hshown
    · exact .inr hshown
    · exact .inl hshown
  have hwhole : (q.zone.momentAt u).Whole (q.zone.clockAt u) u :=
    ⟨rfl, (h.spaced.instantOf_clockAt u).symm⟩
  have hearlier := year_le_succ (show q.time ≤ (q.zone.momentAt u).time + 31536000000000 by
    rw [h.whole.time, time_momentAt]; omega)
  have hlater := year_le_succ (show (q.zone.momentAt u).time ≤ q.time + 31536000000000 by
    rw [h.whole.time, time_momentAt]; omega)
  exact ⟨h.sound, h.dialect, h.valid, h.maxYears, hwhole, h.spaced, h.mem, h.before_lt, h.lower,
    h.upper, hcases, by omega, by omega⟩

/-- **At a skipped time and at the time that is shown instead the next search has the same answer.**
A match has the same answer if and only if the schedule fires alike at the two times, and the last
search if and only if it looks back alike from them. -/
theorem queries_of_skips {s : Schedule} (hD : s.definition ∈ Dialect.all)
    (hv : s.validate = .ok ()) (hz : m.zone.Spaced (Change.MovesBy 21600)) (hm : micros m.time = 0)
    (hc : c ∈ m.zone.changes) (hs : c.Skips (LocalTime.seconds m.time))
    (hy : 102 ≤ (date m.time).year) (hy' : (date m.time).year ≤ 9850) :
    ∃ t n, of? s defaultYears = .ok t ∧
      (m.normalize = .ok n ∧ n.normalize = .ok n ∧ n.zone = m.zone ∧ n.instant = m.instant) ∧
      (∃ r, t.next m = .ok r ∧ t.next n = .ok r) ∧
      (∃ b b', t.isMatch m = .ok b ∧ t.isMatch n = .ok b' ∧ (b = b' ↔ t.MatchesAlike m n)) ∧
      ∃ r r', t.last m = .ok r ∧ t.last n = .ok r' ∧
        (r.map Moment.instant = r'.map Moment.instant ↔ t.LooksBackAlike c m n) := by
  obtain ⟨t, ht, rfl, hmax, hsound⟩ := exists_of_validate hD hv (by decide : 1 ≤ defaultYears)
  rw [show defaultYears = 100 from rfl] at hmax
  have hw : m.Whole (LocalTime.seconds m.time)
      (m.zone.instantOf (LocalTime.seconds m.time) m.secondPass) :=
    ⟨(seconds_mul_of_micros hm).symm, rfl⟩
  obtain ⟨hgiven, hstart⟩ := besideGap_of_skips hsound hD hv hmax hz hw hc hs (by omega) (by omega)
  have hpair : t.SkippedPair c m _ _ := ⟨hgiven, hgiven.shown hy hy', hs, hstart⟩
  have hi := inner_of_year (t := m.time) (by omega) (by omega)
  have hshown := hz.shown_instantOf hi m.secondPass
  have hinstant := hz.instant_momentAt (m.zone.instantOf (LocalTime.seconds m.time) m.secondPass)
  have hyears : t.WithinYears forward m := by
    simp only [WithinYears, leastYear, greatestYear, hmax]
    omega
  obtain ⟨r, hr, -⟩ := exists_search hsound hz hyears
  refine ⟨t, m.zone.momentAt (m.zone.instantOf (LocalTime.seconds m.time) m.secondPass), ht,
    ⟨?_, ?_, rfl, ?_⟩, ⟨r, hr, ?_⟩, hpair.match_alike_iff, hpair.last_alike_iff⟩
  · rw [normalize_eq hgiven.natAbs_lt hw.instant_eq, if_pos hshown]
  · rw [normalize_eq hgiven.natAbs_lt hinstant, zone_momentAt, if_pos hshown]
  · rw [hinstant, hw.instant_eq]
  · exact hpair.search_forward_eq.trans hr

/-- Ten and thirty minutes past three in the night. -/
def twiceAtThree : Schedule :=
  .ofAssignment Dialect.unix fun
    | .minute => some (.list [.value 10, .value 30])
    | .hour => some (.value 3)
    | .dayOfMonth | .month | .dayOfWeek => some .always
    | _ => none

/-- What `twiceAtThree` fires at. -/
def threeTable : Timetable :=
  ⟨twiceAtThree, 100, [0], [10, 30], [3], [1, 2, 3, 4, 5, 6, 7, 8, 9, 10, 11, 12]⟩

theorem of?_twiceAtThree : of? twiceAtThree defaultYears = .ok threeTable := by rfl

/-- A zone that moves its clock forward from two to three in the night of 31 March 2024. -/
def springForward : Zone := ⟨3600, [⟨1711846800, 7200⟩]⟩

theorem spaced_springForward : springForward.Spaced (Change.MovesBy 21600) := by
  refine ⟨by decide, ?_, ?_, ?_⟩
  · simp only [springForward, List.forall_mem_singleton]
    decide
  · exact List.pairwise_singleton _ _
  · simp only [changes, changesFrom, springForward, List.forall_mem_singleton, Change.MovesBy]
    decide

/-- The change of that night. -/
def springChange : Change := ⟨1711846800, 3600, 7200⟩

theorem springChange_mem : springChange ∈ springForward.changes := List.mem_cons_self

/-- Half past two, which is skipped. -/
def skippedHalfPastTwo : Moment := ⟨springForward, 1711852200000000, false⟩

/-- Half past three, where it is pushed to. -/
def halfPastThree : Moment := ⟨springForward, 1711855800000000, false⟩

/-- Ten past three. -/
def tenPastThree : Moment := ⟨springForward, 1711854600000000, false⟩

/-- Half past three on the day before. -/
def dayBefore : Moment := ⟨springForward, 1711769400000000, false⟩

/-- Ten past three on the day after. -/
def dayAfter : Moment := ⟨springForward, 1711941000000000, false⟩

theorem skips_skippedHalfPastTwo :
    springChange.Skips (LocalTime.seconds skippedHalfPastTwo.time) :=
  ⟨by decide, by decide⟩

theorem isMatch_threeTable : threeTable.isMatch skippedHalfPastTwo = .ok false ∧
    threeTable.isMatch halfPastThree = .ok true :=
  ⟨by decide +kernel, by decide +kernel⟩

theorem last_threeTable : threeTable.last skippedHalfPastTwo = .ok (some dayBefore) ∧
    threeTable.last halfPastThree = .ok (some tenPastThree) :=
  ⟨by decide +kernel, by decide +kernel⟩

/-- **Half past two is skipped and is half past three. Asked by the skipped time a match says no,
and the last search passes over ten past three.** -/
theorem isMatch_last_skippedHalfPastTwo :
    (twiceAtThree.definition ∈ Dialect.all ∧ twiceAtThree.validate = .ok ()) ∧
      (springForward.Spaced (Change.MovesBy 21600) ∧ springChange ∈ springForward.changes ∧
        springChange.Skips (LocalTime.seconds skippedHalfPastTwo.time)) ∧
      (date skippedHalfPastTwo.time).year = 2024 ∧ of? twiceAtThree defaultYears = .ok threeTable ∧
        skippedHalfPastTwo.normalize = .ok halfPastThree ∧
          (threeTable.isMatch skippedHalfPastTwo = .ok false ∧
            threeTable.isMatch halfPastThree = .ok true) ∧
          (threeTable.last skippedHalfPastTwo = .ok (some dayBefore) ∧
            threeTable.last halfPastThree = .ok (some tenPastThree)) ∧
            dayBefore.instant < tenPastThree.instant :=
  ⟨⟨List.mem_cons_self, by rfl⟩,
    ⟨spaced_springForward, springChange_mem, skips_skippedHalfPastTwo⟩, by rfl, of?_twiceAtThree,
    by decide +kernel, isMatch_threeTable, last_threeTable, by decide⟩

/-- The schedule fires at half past three and not at half past two, and ten past two, which is
pushed to ten past three, is no fire time. -/
theorem queries_skippedHalfPastTwo :
    ∃ t n, of? twiceAtThree defaultYears = .ok t ∧ skippedHalfPastTwo.normalize = .ok n ∧
      (t.next skippedHalfPastTwo = .ok (some dayAfter) ∧ t.next n = .ok (some dayAfter)) ∧
        ¬ t.MatchesAlike skippedHalfPastTwo n ∧
          ¬ t.LooksBackAlike springChange skippedHalfPastTwo n := by
  have hy : (date skippedHalfPastTwo.time).year = 2024 := by rfl
  have hn : skippedHalfPastTwo.normalize = .ok halfPastThree := by decide +kernel
  obtain ⟨t, n, ht, ⟨hnorm, -⟩, hnext, ⟨b, b', hb, hb', hmatch⟩, r, r', hr, hr', hlast⟩ :=
    queries_of_skips (s := twiceAtThree) (m := skippedHalfPastTwo) List.mem_cons_self (by rfl)
      spaced_springForward rfl springChange_mem skips_skippedHalfPastTwo (by omega) (by omega)
  obtain rfl := Except.ok.inj (of?_twiceAtThree.symm.trans ht)
  obtain rfl := Except.ok.inj (hn.symm.trans hnorm)
  have hrun : threeTable.next skippedHalfPastTwo = .ok (some dayAfter) := by decide +kernel
  refine ⟨threeTable, halfPastThree, ht, hn, ⟨hrun, eq_ok_of_same hnext hrun⟩, ?_, ?_⟩
  · intro halike
    have hsame := hmatch.2 halike
    rw [isMatch_threeTable.1] at hb
    rw [isMatch_threeTable.2] at hb'
    rw [← Except.ok.inj hb, ← Except.ok.inj hb'] at hsame
    cases hsame
  · intro halike
    have hsame := hlast.2 halike
    rw [last_threeTable.1] at hr
    rw [last_threeTable.2] at hr'
    rw [← Except.ok.inj hr, ← Except.ok.inj hr'] at hsame
    exact absurd hsame (by decide)

end Timetable

end CronSchedule
