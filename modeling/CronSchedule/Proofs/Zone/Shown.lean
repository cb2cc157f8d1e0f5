import CronSchedule.Proofs.Zone.Gap
import Mathlib.Order.Bounds.Basic

/-!
# The instants at which a local time is shown

`Moment.instantsOf` reads a clock time with both folds and looks what the clock shows at the instants
that it gets. Here its answer is told from the other side, by what the clocks of a zone show at all
instants.

* `Zone.Spaced.exists_shows_iff`: the clocks show a time unless a change skips it.
* `Zone.Spaced.mem_map_instant_iff`: the instants that a shown time stands for are those at which it
  is shown.
* `Zone.Spaced.instantsOf_exact`: **a local time stands for the instants at which it is shown, each
  once and in order, and a skipped one for the instant that comes as long after the change as the
  time after the start of the gap.**
-/

namespace CronSchedule

open LocalTime

namespace Change

variable {c : Change} {clock : Int}

/-- The clock time at which the gap of a change starts. -/
def gapStart (c : Change) : Int := c.start + c.before

/-- A gap starts with the first clock time that is skipped. -/
theorem isLeast_gapStart (h : c.Skips clock) : IsLeast {w | c.Skips w} c.gapStart := by
  refine ⟨⟨Int.le_refl _, ?_⟩, fun w hw => hw.1⟩
  exact Int.lt_of_le_of_lt h.1 h.2

end Change

namespace Zone

variable {z : Zone} {P : Change → Prop} {c c' : Change} {clock time instant u : Int} {m : Moment}

/-- Whether the clocks of a zone show a local time at an instant. -/
def Shows (z : Zone) (time instant : Int) : Prop :=
  ∃ m, Moment.ofInstant z instant = .ok m ∧ m.time = time

/-! ### Shown or skipped -/

/-- The clocks show a time if and only if no change skips it. -/
theorem Spaced.exists_clockAt_iff (hz : z.Spaced P) :
    (∃ u, z.clockAt u = clock) ↔ ∀ c ∈ z.changes, ¬ c.Skips clock := by
  constructor
  · rintro ⟨u, hu⟩ c hc hskips
    have hside := hz.not_skipped_of_shown hu (hz.changeNear_of_skips hc hskips)
    unfold Change.Skips at hskips
    omega
  · intro hnone
    rcases hz.clockAt_instantOf_or clock with hshown | ⟨c, hc, hskips⟩
    · exact ⟨_, hshown⟩
    · exact absurd hskips (hnone c hc)

/-- No two changes skip the same time. -/
theorem Spaced.eq_of_skips (hz : z.Spaced P) (hc : c ∈ z.changes) (hc' : c' ∈ z.changes)
    (h : c.Skips clock) (h' : c'.Skips clock) : c = c' := by
  obtain ⟨hb, ha⟩ := hz.withinDay_of_mem hc
  obtain ⟨hb', ha'⟩ := hz.withinDay_of_mem hc'
  unfold WithinDay at hb ha hb' ha'
  unfold Change.Skips at h h'
  exact hz.eq_of_near hc hc' (by omega) (by omega)

theorem time_of_ofInstant (h : Moment.ofInstant z instant = .ok m) :
    m.time = instant + z.offsetAt (seconds instant) * 1000000 := by
  simp only [Moment.ofInstant, Moment.inRange] at h
  by_cases hutc : InRange instant
  · by_cases hlocal : InRange (instant + z.offsetAt (seconds instant) * 1000000)
    · simp only [hutc, hlocal, if_true, bind, Except.bind, pure, Except.pure] at h
      cases h
      rfl
    · simp only [hutc, hlocal, if_true, if_false, bind, Except.bind] at h
      cases h
  · simp only [hutc, if_false, bind, Except.bind] at h
    cases h

/-- Offsets are whole seconds, so a whole second is shown at whole seconds only. Away from the ends
of the calendar all of these can be shown. -/
theorem Spaced.shows_iff (hz : z.Spaced P) (hi : Inner clock) :
    z.Shows (clock * 1000000) instant ↔ ∃ u, instant = u * 1000000 ∧ z.clockAt u = clock := by
  constructor
  · rintro ⟨m, hm, htime⟩
    rw [time_of_ofInstant hm] at htime
    obtain ⟨o, ho⟩ : ∃ o, z.offsetAt (seconds instant) = o := ⟨_, rfl⟩
    rw [ho] at htime
    obtain rfl : instant = (clock - o) * 1000000 := by omega
    rw [seconds_mul] at ho
    exact ⟨clock - o, rfl, by rw [clockAt, ho, Int.sub_add_cancel]⟩
  · rintro ⟨u, rfl, hu⟩
    have hnear := hz.clockAt_near u
    rw [hu] at hnear
    refine ⟨z.momentAt u, ?_, by rw [time_momentAt, hu]⟩
    rw [ofInstant_eq, if_pos (hz.shown_of_near hi (by omega))]

/-- A local time is shown at some instant if and only if no change skips it. -/
theorem Spaced.exists_shows_iff (hz : z.Spaced P) (hi : Inner clock) :
    (∃ instant, z.Shows (clock * 1000000) instant) ↔ ∀ c ∈ z.changes, ¬ c.Skips clock := by
  rw [← hz.exists_clockAt_iff]
  constructor
  · rintro ⟨instant, hshows⟩
    obtain ⟨u, -, hu⟩ := (hz.shows_iff hi).1 hshows
    exact ⟨u, hu⟩
  · rintro ⟨u, hu⟩
    exact ⟨u * 1000000, (hz.shows_iff hi).2 ⟨u, rfl, hu⟩⟩

/-! ### The moments of a time, told by their instants -/

/-- Each moment that a time stands for is what the clocks show at its instant. -/
theorem Spaced.ofInstant_of_mem_resolve (hz : z.Spaced P) (hi : Inner clock)
    (hm : m ∈ z.resolve clock) : Moment.ofInstant z m.instant = .ok m := by
  obtain ⟨u, rfl, hnear, -⟩ := hz.exists_of_mem_resolve hm
  rw [hz.instant_momentAt, ofInstant_eq, if_pos (hz.shown_of_near hi hnear)]

/-- The instants that a shown time stands for are those at which it is shown. -/
theorem Spaced.mem_map_instant_iff (hz : z.Spaced P) (hi : Inner clock) (h : z.clockAt u = clock) :
    instant ∈ (z.resolve clock).map Moment.instant ↔ z.Shows (clock * 1000000) instant := by
  rw [List.mem_map, hz.shows_iff hi]
  constructor
  · rintro ⟨m, hm, rfl⟩
    obtain ⟨v, rfl, -, hshown | ⟨-, c, hc, hskips⟩⟩ := hz.exists_of_mem_resolve hm
    · exact ⟨v, hz.instant_momentAt v, hshown⟩
    · exact absurd hskips (hz.exists_clockAt_iff.1 ⟨u, h⟩ c hc)
  · rintro ⟨v, rfl, hv⟩
    exact ⟨z.momentAt v, hz.momentAt_mem_resolve hv, hz.instant_momentAt v⟩

/-- The first pass of a shown time comes before the second, and there are no more than these. -/
theorem Spaced.pairwise_map_instant (hz : z.Spaced P) (h : z.clockAt u = clock) :
    ((z.resolve clock).map Moment.instant).Pairwise (· < ·) ∧
      ((z.resolve clock).length = 1 ∨ (z.resolve clock).length = 2) := by
  have hle := hz.instantOf_false_le_of_shown h
  rw [resolve]
  split
  · next htwo =>
    have hne := htwo.2
    simp only [List.map_cons, List.map_nil, hz.instant_momentAt, List.pairwise_pair]
    exact ⟨by omega, .inr rfl⟩
  · exact ⟨List.pairwise_singleton _ _, .inl rfl⟩

/-- A skipped time stands for the instant that comes as long after the change as the time comes after
the start of the gap. -/
theorem Spaced.map_instant_of_skips (hz : z.Spaced P) (hc : c ∈ z.changes) (h : c.Skips clock) :
    (z.resolve clock).map Moment.instant = [(c.start + (clock - c.gapStart)) * 1000000] := by
  have hinstant : clock - c.before = c.start + (clock - c.gapStart) := by
    unfold Change.gapStart
    omega
  rw [hz.resolve_of_skips hc h, List.map_singleton, hz.instant_momentAt, hinstant]

/-- **A local time stands for the instants at which the clocks show it**, each once and in order: one
or two. **A time that is never shown is skipped** by one change, and stands for the instant that
comes as long after the change as the time comes after the first one that is skipped. -/
theorem Spaced.instantsOf_exact (hz : z.Spaced (Change.MovesBy 86400)) (hm : micros time = 0)
    (hy : 2 ≤ (date time).year) (hy' : (date time).year ≤ 9998) :
    ∃ moments, Moment.instantsOf z time = .ok moments ∧
      (∀ m ∈ moments, Moment.ofInstant z m.instant = .ok m) ∧
      ((∃ instant, z.Shows time instant) →
        (∀ instant, instant ∈ moments.map Moment.instant ↔ z.Shows time instant) ∧
          (moments.map Moment.instant).Pairwise (· < ·) ∧
          (moments.length = 1 ∨ moments.length = 2)) ∧
      ((¬ ∃ instant, z.Shows time instant) →
        ∃ c ∈ z.changes, c.Skips (seconds time) ∧
          (∀ c' ∈ z.changes, c'.Skips (seconds time) → c' = c) ∧
          ∃ first, IsLeast {w | c.Skips w} first ∧
            moments.map Moment.instant = [(c.start + (seconds time - first)) * 1000000]) := by
  have hi := inner_of_year hy hy'
  have htime := seconds_mul_of_micros hm
  generalize seconds time = clock at hi htime ⊢
  subst htime
  refine ⟨z.resolve clock, hz.instantsOf_eq hi, fun m => hz.ofInstant_of_mem_resolve hi, ?_, ?_⟩
  · rintro ⟨instant, hshows⟩
    obtain ⟨u, -, hu⟩ := (hz.shows_iff hi).1 hshows
    exact ⟨fun _ => hz.mem_map_instant_iff hi hu, hz.pairwise_map_instant hu⟩
  · intro hnone
    obtain ⟨c, hc, hskips⟩ : ∃ c ∈ z.changes, c.Skips clock := by
      by_contra hnot
      exact hnone ((hz.exists_shows_iff hi).2 fun c hc hskips => hnot ⟨c, hc, hskips⟩)
    exact ⟨c, hc, hskips, fun c' hc' hskips' => hz.eq_of_skips hc' hc hskips' hskips,
      c.gapStart, Change.isLeast_gapStart hskips, hz.map_instant_of_skips hc hskips⟩

/-- An hour ahead of UTC, and two from the end of March to the end of October 2024. -/
def summerTime : Zone := ⟨3600, [⟨1711846800, 7200⟩, ⟨1729990800, 3600⟩]⟩

theorem spaced_summerTime : summerTime.Spaced (Change.MovesBy 86400) := by
  refine ⟨by decide, ?_, by decide, ?_⟩
  · simp only [summerTime, List.forall_mem_cons]
    decide
  · simp only [changes, changesFrom, summerTime, List.forall_mem_cons, Change.MovesBy]
    decide

/-- Half past two is skipped in March and stands for half an hour after the change. In October it
stands for half an hour before the change and half an hour after it. -/
theorem instantsOf_halfPastTwo :
    summerTime.Spaced (Change.MovesBy 86400) ∧
      (¬ ∃ instant, summerTime.Shows 1711852200000000 instant) ∧
      (∃ moments, Moment.instantsOf summerTime 1711852200000000 = .ok moments ∧
        moments.map Moment.instant = [(1711846800 + 1800) * 1000000]) ∧
      ∃ moments, Moment.instantsOf summerTime 1729996200000000 = .ok moments ∧
        (1729990800 - 1800) * 1000000 ∈ moments.map Moment.instant ∧
        (1729990800 + 1800) * 1000000 ∈ moments.map Moment.instant := by
  have hskips : Change.Skips ⟨1711846800, 3600, 7200⟩ 1711852200 :=
    ⟨by decide, by decide⟩
  have hmem : ⟨1711846800, 3600, 7200⟩ ∈ summerTime.changes := List.mem_cons_self
  have hnone : ¬ ∃ instant, summerTime.Shows (1711852200 * 1000000) instant := by
    intro hshows
    exact (spaced_summerTime.exists_shows_iff (by decide)).1 hshows _ hmem hskips
  obtain ⟨march, hmarch, -, -, hskipped⟩ := spaced_summerTime.instantsOf_exact
    (by decide : micros 1711852200000000 = 0) (by decide) (by decide)
  obtain ⟨october, hoctober, -, hshown, -⟩ := spaced_summerTime.instantsOf_exact
    (by decide : micros 1729996200000000 = 0) (by decide) (by decide)
  refine ⟨spaced_summerTime, hnone, ⟨march, hmarch, ?_⟩, october, hoctober, ?_⟩
  · obtain ⟨c, -, -, hone, first, hfirst, hinstant⟩ := hskipped hnone
    obtain rfl := hone _ hmem hskips
    obtain rfl := hfirst.unique (Change.isLeast_gapStart hskips)
    exact hinstant
  · have hbefore : summerTime.Shows 1729996200000000 ((1729990800 - 1800) * 1000000) :=
      ⟨_, by rfl, rfl⟩
    have hafter : summerTime.Shows 1729996200000000 ((1729990800 + 1800) * 1000000) :=
      ⟨_, by rfl, rfl⟩
    obtain ⟨hall, -, -⟩ := hshown ⟨_, hbefore⟩
    exact ⟨(hall _).2 hbefore, (hall _).2 hafter⟩

end Zone

end CronSchedule
