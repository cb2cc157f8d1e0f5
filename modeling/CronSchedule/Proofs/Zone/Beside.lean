import CronSchedule.Proofs.Zone.Gap

/-!
# Clock times beside a gap

Within a day of a change that moves the clock forward nothing else moves it. So each clock time
there stands for one instant: up to the end of the gap for the one that the offset before the change
gives it, from then on for the one that the offset after it gives.

* `Zone.Spaced.exists_lt_of_mem_resolve`: **what comes earlier on a clock that the change has not
  moved stands for earlier instants.**
* `Zone.Spaced.resolve_before`, `Zone.Spaced.resolve_after`: the moments of clock times beside the
  gap.
-/

namespace CronSchedule

open LocalTime

namespace Zone

variable {z : Zone} {c : Change} {clock u : Int} (hz : z.Spaced (Change.MovesBy 86400))
  (hc : c ∈ z.changes)

include hz hc

/-- Within two days of a change the clock shows what the change makes of an instant. -/
theorem Spaced.clockAt_of_near (h : c.start - 172800 ≤ u) (h' : u ≤ c.start + 172800) :
    z.clockAt u = u + c.offsetAt u := by
  rw [clockAt]
  by_cases hstart : c.start ≤ u
  · have hn : z.ChangeNear (c.start + 86400) c :=
      hz.changeNear_of_near hc (by omega) (by omega)
    rw [hn.offsetAt u (by omega) (by omega)]
  · have hn : z.ChangeNear (c.start - 86400) c :=
      hz.changeNear_of_near hc (by omega) (by omega)
    rw [hn.offsetAt u (by omega) (by omega)]

/-- **What comes earlier on a clock that the change has not moved stands for earlier instants.** The
instant may be one that a skipped time stands for, and it comes no more than a day before the
change. -/
theorem Spaced.exists_lt_of_mem_resolve (hu : c.start - 86400 ≤ u)
    (hu' : u < c.start + (c.after - c.before)) (h : clock < u + c.before) {n : Moment}
    (hn : n ∈ z.resolve clock) :
    ∃ v, n = z.momentAt v ∧ (clock - 86400 < v ∧ v < clock + 86400) ∧ v < u := by
  obtain ⟨v, rfl, hnear, hv⟩ := hz.exists_of_mem_resolve hn
  refine ⟨v, rfl, hnear, ?_⟩
  have hlim := (hz.changes c hc).1
  have ha := (hz.withinDay_of_mem hc).2
  unfold WithinDay at ha
  rcases hv with hshown | ⟨rfl, d, hd, hskips⟩
  · by_contra hlate
    have hclock := hz.clockAt_near v
    by_cases hfar : c.start + 172800 < v
    · omega
    · rw [hz.clockAt_of_near hc (by omega) (by omega), Change.offsetAt] at hshown
      split at hshown <;> omega
  · have hpush := (hz.instantOf_of_skips hd hskips).1
    have hlim' := (hz.changes d hd).1
    have hb' := (hz.withinDay_of_mem hd).1
    unfold WithinDay at hb'
    unfold Change.Skips at hskips
    -- another change that skips the time lies two days before this one
    by_cases heq : c = d
    · subst heq
      omega
    · have hapart : ¬ (c.start ≤ d.start + 172800 ∧ d.start ≤ c.start + 172800) := by
        intro hclose
        exact heq (hz.eq_of_near hc hd hclose.1 hclose.2)
      omega

variable (hforward : c.before < c.after)

include hforward

/-- What the clock shows within a day of a change that moves it forward is shown once. -/
theorem Spaced.resolve_clockAt (h : c.start - 86400 ≤ u) (h' : u ≤ c.start + 86400) :
    z.resolve (z.clockAt u) = [z.momentAt u] := by
  have hsame : z.instantOf (z.clockAt u) false = z.instantOf (z.clockAt u) true := by
    by_contra hne
    have hfirst := hz.clockAt_instantOf_of_shown (u := u) rfl false
    have hsecond := hz.clockAt_instantOf_of_shown (u := u) rfl true
    have hle := hz.instantOf_false_le_of_shown (u := u) rfl
    obtain ⟨d, hd, hr⟩ := hz.exists_repeats_of_lt (Int.lt_iff_le_and_ne.2 ⟨hle, hne⟩) (by omega)
    have hrepeats := hr (z.clockAt u) (by omega) (by omega)
    -- the change that repeats the time lies within two days of this one
    have hnear := hz.clockAt_near u
    have hshown : z.clockAt u = u + z.offsetAt u := rfl
    rw [(hz.changeNear_of_repeats hd hrepeats).offsetAt u (by omega) (by omega),
      Change.offsetAt] at hshown
    have hlim := (hz.changes d hd).2
    unfold Change.Repeats at hrepeats
    obtain rfl : c = d := by
      apply hz.eq_of_near hc hd
      · split at hshown <;> omega
      · split at hshown <;> omega
    omega
  rw [resolve, if_neg fun htwo => htwo.2 hsame]
  rcases hz.eq_instantOf (u := u) rfl with hu | hu
  · rw [← hu]
  · rw [hsame, ← hu]

/-- Up to the end of the gap a clock time counts with the offset before the change. -/
theorem Spaced.resolve_before (h : c.start + c.before - 86400 ≤ clock)
    (h' : clock < c.start + c.after) : z.resolve clock = [z.momentAt (clock - c.before)] := by
  by_cases hgap : clock < c.start + c.before
  · have hshown := hz.clockAt_of_near hc (u := clock - c.before) (by omega) (by omega)
    rw [Change.offsetAt, if_neg (by omega), Int.sub_add_cancel] at hshown
    have hone := hz.resolve_clockAt hc hforward (u := clock - c.before) (by omega) (by omega)
    rwa [hshown] at hone
  · exact hz.resolve_of_skips hc ⟨by omega, h'⟩

/-- From the end of the gap on a clock time counts with the offset after the change. -/
theorem Spaced.resolve_after (h : c.start + c.after ≤ clock)
    (h' : clock ≤ c.start + c.after + 86400) :
    z.resolve clock = [z.momentAt (clock - c.after)] := by
  have hshown := hz.clockAt_of_near hc (u := clock - c.after) (by omega) (by omega)
  rw [Change.offsetAt, if_pos (by omega), Int.sub_add_cancel] at hshown
  have hone := hz.resolve_clockAt hc hforward (u := clock - c.after) (by omega) (by omega)
  rwa [hshown] at hone

end Zone

end CronSchedule
