import CronSchedule.Proofs.Zone.Gap

/-!
# Clocks that are moved forward

Where the clock is only ever moved forward, it shows a later time at every later instant, and each
clock time stands for one instant. A skipped time is pushed past the gap. So it can stand for a
later instant than a later clock time, and this is the only way in which the order of clock times is
not that of their instants.

* `Zone.Spaced.clockAt_lt`: the clock shows later times at later instants.
* `Zone.Spaced.instantsOf_movesForward`: the one moment of a clock time.
* `Zone.Spaced.exists_skips_of_le`: **where a later clock time does not stand for a later instant,
  the earlier one is skipped and the later one follows the gap.**
-/

namespace CronSchedule

open LocalTime

namespace Change

/-- The clock is moved forward, by so many seconds at most. -/
def MovesForward (limit : Int) (c : Change) : Prop :=
  c.before ≤ c.after ∧ c.after - c.before ≤ limit

theorem MovesForward.movesBy {c : Change} {limit : Int} (h : c.MovesForward limit) :
    c.MovesBy limit := by
  unfold MovesForward at h
  exact ⟨h.2, by omega⟩

end Change

namespace Zone

variable {z : Zone} {P : Change → Prop} {c c' : Change} {clock x y u v limit : Int}

/-! ### Offsets that never shrink -/

theorem le_offsetFrom (u : Int) :
    ∀ {ts : List Transition} {o : Int}, (∀ c ∈ changesFrom o ts, c.before ≤ c.after) →
      ts.Pairwise (fun t t' => t.start + 172800 < t'.start) → o ≤ offsetFrom u o ts
  | [], o, _, _ => Int.le_refl o
  | t :: ts, o, hc, hp => by
    obtain ⟨hfirst, hrest⟩ := List.forall_mem_cons.1 hc
    obtain ⟨hlater, hp⟩ := List.pairwise_cons.1 hp
    rw [offsetFrom]
    by_cases hs : t.start ≤ u
    · rw [if_pos hs]
      exact Int.le_trans hfirst (le_offsetFrom u hrest hp)
    · -- before the first change nothing has changed
      rw [if_neg hs, offsetFrom_of_lt]
      intro t' ht'
      have := hlater t' ht'
      omega

theorem offsetFrom_mono (h : u ≤ v) :
    ∀ {ts : List Transition} {o : Int}, (∀ c ∈ changesFrom o ts, c.before ≤ c.after) →
      ts.Pairwise (fun t t' => t.start + 172800 < t'.start) →
        offsetFrom u o ts ≤ offsetFrom v o ts
  | [], o, _, _ => Int.le_refl o
  | t :: ts, o, hc, hp => by
    by_cases hs : t.start ≤ u
    · rw [offsetFrom, offsetFrom, if_pos hs, if_pos (Int.le_trans hs h)]
      exact offsetFrom_mono h (List.forall_mem_cons.1 hc).2 (List.pairwise_cons.1 hp).2
    · have hu : ∀ t' ∈ t :: ts, u < t'.start := by
        intro t' ht'
        rcases List.mem_cons.1 ht' with rfl | ht'
        · omega
        · have := (List.pairwise_cons.1 hp).1 t' ht'
          omega
      rw [offsetFrom_of_lt hu]
      exact le_offsetFrom v hc hp

section MovesForward

variable (hz : z.Spaced (Change.MovesForward limit))

include hz

theorem Spaced.offsetAt_mono (h : u ≤ v) : z.offsetAt u ≤ z.offsetAt v :=
  offsetFrom_mono h (fun c hc => (hz.changes c hc).1) hz.apart

/-- The clock shows later times at later instants. -/
theorem Spaced.clockAt_lt (h : u < v) : z.clockAt u < z.clockAt v := by
  have hmono := hz.offsetAt_mono (Int.le_of_lt h)
  unfold clockAt
  omega

theorem Spaced.clockAt_le_iff : z.clockAt u ≤ z.clockAt v ↔ u ≤ v := by
  constructor
  · intro h
    by_contra hlt
    have := hz.clockAt_lt (Int.not_le.1 hlt)
    omega
  · intro h
    rcases Int.lt_or_eq_of_le h with h | rfl
    · exact Int.le_of_lt (hz.clockAt_lt h)
    · exact Int.le_refl _

theorem before_le_after (h : z.ChangeNear clock c) : c.before ≤ c.after := by
  rcases h.change with hc | hc
  · exact (hz.changes c hc).1
  · omega

/-! ### The instant of a clock time -/

theorem Spaced.instantOf_of_changeNear (h : z.ChangeNear clock c) (second : Bool) :
    z.instantOf clock second =
      if c.start + (if second then c.before else c.after) ≤ clock then clock - c.after
      else clock - c.before := by
  have hle := before_le_after hz h
  unfold instantOf
  rw [h.localOffset, Change.localOffset, Int.max_eq_right hle, Int.min_eq_left hle]
  by_cases hs : c.start + (if second then c.before else c.after) ≤ clock
  · rw [if_pos hs, if_pos hs]
  · rw [if_neg hs, if_neg hs]

theorem Spaced.le_clockAt_instantOf (clock : Int) :
    clock ≤ z.clockAt (z.instantOf clock false) := by
  rcases hz.clockAt_instantOf_or clock with h | ⟨c, hc, hskips⟩
  · omega
  · rw [(hz.instantOf_of_skips hc hskips).2, Change.pushed]
    have := (hz.changes c hc).1
    omega

/-- The instant of what the clock shows is the instant at which it shows that. -/
theorem Spaced.instantOf_clockAt_false (u : Int) : z.instantOf (z.clockAt u) false = u := by
  obtain ⟨c, hc⟩ := hz.exists_changeNear (z.clockAt u)
  have hle := before_le_after hz hc
  have hpass : z.inSecondPass u = false := by
    rw [hc.inSecondPass u rfl, Change.inSecondPass]
    simp only [Bool.and_eq_false_iff, decide_eq_false_iff_not]
    omega
  have h := hz.instantOf_clockAt u
  rwa [hpass] at h

/-- A clock time that is shown has one reading. -/
theorem Spaced.instantOf_of_clockAt (h : z.clockAt u = clock) (second : Bool) :
    z.instantOf clock second = u := by
  have hfalse := hz.instantOf_clockAt_false u
  rw [h] at hfalse
  cases second with
  | false => exact hfalse
  | true =>
    obtain ⟨c, hc⟩ := hz.exists_changeNear clock
    have hle := before_le_after hz hc
    have hfirst := hz.instantOf_of_changeNear hc false
    have hsecond := hz.instantOf_of_changeNear hc true
    rw [if_neg Bool.false_ne_true] at hfirst
    rw [if_pos rfl] at hsecond
    by_contra hne
    -- the two readings differ in a gap only, and there the time is not shown
    obtain ⟨hbefore, hafter⟩ : c.start + c.before ≤ clock ∧ clock < c.start + c.after := by
      rw [hsecond] at hne
      rw [hfirst] at hfalse
      split at hne <;> split at hfalse <;> omega
    have hmem := hc.change.resolve_right (by omega)
    have hpushed := (hz.instantOf_of_skips hmem ⟨hbefore, hafter⟩).2
    rw [hfalse, h, Change.pushed] at hpushed
    omega

theorem Spaced.resolve_movesForward (clock : Int) :
    z.resolve clock = [z.momentAt (z.instantOf clock false)] := by
  rw [resolve, if_neg]
  rintro ⟨hshown, hne⟩
  exact hne (hz.instantOf_of_clockAt hshown true).symm

/-- Away from the ends of the calendar, a time of a clock that is only ever moved forward stands for
one moment. -/
theorem Spaced.instantsOf_movesForward (h : Inner clock) :
    Moment.instantsOf z (clock * 1000000) = .ok [z.momentAt (z.instantOf clock false)] := by
  rw [hz.instantsOf_eq h, hz.resolve_movesForward]

/-! ### The order of instants -/

/-- A clock time that is not less than what the clock shows at an instant does not stand for an
earlier one. -/
theorem Spaced.le_instantOf (h : z.clockAt u ≤ y) : u ≤ z.instantOf y false := by
  have hy := hz.le_clockAt_instantOf y
  exact hz.clockAt_le_iff.1 (by omega)

/-- **Where a later clock time does not stand for a later instant, the earlier one is skipped and
the later one follows the gap.** -/
theorem Spaced.exists_skips_of_le (hl : limit ≤ 86400) (h : x < y)
    (hle : z.instantOf y false ≤ z.instantOf x false) :
    ∃ c ∈ z.changes, c.Skips x ∧ c.start + c.after ≤ y ∧ z.instantOf x false = x - c.before ∧
      z.instantOf y false = y - c.after ∧ z.clockAt (z.instantOf y false) = y := by
  have hclock := hz.clockAt_le_iff.2 hle
  have hy := hz.le_clockAt_instantOf y
  rcases hz.clockAt_instantOf_or x with hx | ⟨c, hc, hskips⟩
  · omega
  obtain ⟨hi, hpushed⟩ := hz.instantOf_of_skips hc hskips
  have hlim := (hz.changes c hc).2
  obtain ⟨hb, ha⟩ := hz.withinDay_of_mem hc
  unfold WithinDay at hb ha
  refine ⟨c, hc, hskips, ?_⟩
  rcases hz.clockAt_instantOf_or y with hshown | ⟨c', hc', hskips'⟩
  · have hn := hz.changeNear_of_skips hc hskips
    unfold Change.Skips at hskips
    -- the later time is shown after the change, as the time before it is less than both
    have hstart : c.start ≤ z.instantOf y false := by
      by_contra hlt
      have hlast : z.clockAt (c.start - 1) = c.start - 1 + c.before := by
        rw [clockAt, hn.offsetAt _ (by omega) (by omega), Change.offsetAt, if_neg (by omega)]
      have hbefore := hz.clockAt_le_iff.2 (show z.instantOf y false ≤ c.start - 1 by omega)
      omega
    have hoffset := hn.offsetAt (z.instantOf y false) (by omega) (by omega)
    rw [Change.offsetAt, if_pos hstart] at hoffset
    have hshown' := hshown
    rw [clockAt, hoffset] at hshown'
    exact ⟨by omega, hi, by omega, hshown⟩
  · -- two skipped times keep their order
    obtain ⟨hi', -⟩ := hz.instantOf_of_skips hc' hskips'
    have hlim' := (hz.changes c' hc').2
    obtain ⟨hb', ha'⟩ := hz.withinDay_of_mem hc'
    unfold WithinDay at hb' ha'
    unfold Change.Skips at hskips hskips'
    have heq : c = c' := hz.eq_of_near hc hc' (by omega) (by omega)
    subst heq
    omega

/-- A clock time after a gap, up to what the clock shows for a skipped one, stands for an instant
with the offset after the change. -/
theorem Spaced.instantOf_after_gap (hl : limit ≤ 86400) (hc : c ∈ z.changes) (hx : c.Skips x)
    (h : c.start + c.after ≤ y) (h' : y ≤ c.pushed x) : z.instantOf y false = y - c.after := by
  have hn := hz.changeNear_of_skips hc hx
  have hlim := (hz.changes c hc).2
  obtain ⟨hb, ha⟩ := hz.withinDay_of_mem hc
  unfold WithinDay at hb ha
  unfold Change.Skips at hx
  unfold Change.pushed at h'
  have hoffset := hn.offsetAt (y - c.after) (by omega) (by omega)
  rw [Change.offsetAt, if_pos (by omega)] at hoffset
  have hshown : z.clockAt (y - c.after) = y := by
    rw [clockAt, hoffset]
    omega
  have hi := hz.instantOf_clockAt_false (y - c.after)
  rwa [hshown] at hi

/-- A time before one that is not shown does not stand for a later instant. -/
theorem Spaced.instantOf_le_of_lt (hl : limit ≤ 86400) (h : y < x)
    (hx : z.clockAt (z.instantOf x false) ≠ x) : z.instantOf y false ≤ z.instantOf x false := by
  by_contra hlt
  obtain ⟨c, -, -, -, -, -, hshown⟩ := hz.exists_skips_of_le hl h (by omega)
  exact hx hshown

end MovesForward

end Zone

end CronSchedule
