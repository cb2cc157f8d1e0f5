import CronSchedule.Proofs.Zone.Resolve

/-!
# Clock times that are skipped

A time that a change skips stands for the instant that the offset before the change gives it, and
the clock shows a time past the gap then, by as much as the clock is moved. Every other time stands
for the instants at which the clock shows it.

* `Zone.Spaced.instantOf_of_skips`: the instant of a skipped time and what the clock shows then.
* `Zone.Spaced.momentAt_mem_resolve`, `Zone.Spaced.exists_of_mem_resolve`: **a clock time stands for
  the instants at which it is shown, or is skipped and stands for the one that it is pushed to.**
-/

namespace CronSchedule

open LocalTime

namespace Change

/-- The clock times that a change skips. -/
def Skips (c : Change) (clock : Int) : Prop :=
  c.start + c.before ≤ clock ∧ clock < c.start + c.after

/-- What the clock shows at the instant that a skipped clock time stands for. -/
def pushed (c : Change) (clock : Int) : Int := clock + (c.after - c.before)

/-- The clock is moved either way, by so many seconds at most. -/
def MovesBy (limit : Int) (c : Change) : Prop :=
  c.after - c.before ≤ limit ∧ c.before - c.after ≤ limit

theorem MovesBy.mono {c : Change} {limit limit' : Int} (h : c.MovesBy limit)
    (hle : limit ≤ limit') : c.MovesBy limit' :=
  ⟨Int.le_trans h.1 hle, Int.le_trans h.2 hle⟩

end Change

namespace Zone

variable {z : Zone} {P : Change → Prop} {c c' : Change} {clock u : Int}

/-! ### Changes of a zone -/

/-- Changes of a zone whose starts are no more than two days apart are the same. -/
theorem Spaced.eq_of_near (hz : z.Spaced P) (hc : c ∈ z.changes) (hc' : c' ∈ z.changes)
    (h : c.start ≤ c'.start + 172800) (h' : c'.start ≤ c.start + 172800) : c = c' := by
  obtain ⟨d, hd⟩ := hz.exists_changeNear ((c.start + c'.start) / 2)
  rw [hd.unique c hc (by omega) (by omega), hd.unique c' hc' (by omega) (by omega)]

/-- A change that skips a clock time is the one near it. -/
theorem Spaced.changeNear_of_skips (hz : z.Spaced P) (hc : c ∈ z.changes) (h : c.Skips clock) :
    z.ChangeNear clock c := by
  obtain ⟨hb, ha⟩ := hz.withinDay_of_mem hc
  unfold WithinDay at hb ha
  unfold Change.Skips at h
  apply hz.changeNear_of_near hc
  · omega
  · omega

/-! ### The moments of a clock time -/

theorem exists_resolve_eq_cons (z : Zone) (w : Int) :
    ∃ rest, z.resolve w = z.momentAt (z.instantOf w false) :: rest := by
  rw [resolve]
  split
  · exact ⟨_, rfl⟩
  · exact ⟨_, rfl⟩

theorem first_mem_resolve (z : Zone) (w : Int) :
    z.momentAt (z.instantOf w false) ∈ z.resolve w := by
  obtain ⟨rest, hrest⟩ := z.exists_resolve_eq_cons w
  rw [hrest]
  exact List.mem_cons_self

theorem exists_getLast?_resolve (z : Zone) (w : Int) : ∃ n, (z.resolve w).getLast? = some n := by
  obtain ⟨rest, hrest⟩ := z.exists_resolve_eq_cons w
  rw [hrest]
  exact ⟨_, List.getLast?_cons⟩

/-- A skipped clock time stands for the instant that the offset before the change gives it, and the
clock shows the pushed time then. -/
theorem Spaced.instantOf_of_skips (hz : z.Spaced P) (hc : c ∈ z.changes) (h : c.Skips clock) :
    z.instantOf clock false = clock - c.before ∧
      z.clockAt (z.instantOf clock false) = c.pushed clock := by
  have hn := hz.changeNear_of_skips hc h
  obtain ⟨hb, ha⟩ := hz.withinDay_of_mem hc
  unfold WithinDay at hb ha
  unfold Change.Skips at h
  have hi : z.instantOf clock false = clock - c.before := by
    rw [instantOf, hn.localOffset, Change.localOffset, if_neg Bool.false_ne_true,
      Int.max_eq_right (by omega), if_neg (by omega)]
  refine ⟨hi, ?_⟩
  rw [hi, clockAt, hn.offsetAt _ (by omega) (by omega), Change.offsetAt, if_pos (by omega),
    Change.pushed]
  omega

/-- Read with the other fold it stands for the instant that the offset after the change gives it. -/
theorem Spaced.instantOf_true_of_skips (hz : z.Spaced P) (hc : c ∈ z.changes) (h : c.Skips clock) :
    z.instantOf clock true = clock - c.after := by
  have hn := hz.changeNear_of_skips hc h
  unfold Change.Skips at h
  rw [instantOf, hn.localOffset, Change.localOffset, if_pos rfl, Int.min_eq_left (by omega),
    if_pos h.1]

/-- A skipped clock time stands for one moment, that at which the clock shows the pushed time. -/
theorem Spaced.resolve_of_skips (hz : z.Spaced P) (hc : c ∈ z.changes) (h : c.Skips clock) :
    z.resolve clock = [z.momentAt (clock - c.before)] := by
  obtain ⟨hi, hpushed⟩ := hz.instantOf_of_skips hc h
  rw [resolve, hpushed, hi, if_neg]
  unfold Change.Skips at h
  unfold Change.pushed
  omega

/-- The clock shows each time that is not skipped. -/
theorem Spaced.clockAt_instantOf_or (hz : z.Spaced P) (clock : Int) :
    z.clockAt (z.instantOf clock false) = clock ∨ ∃ c ∈ z.changes, c.Skips clock := by
  obtain ⟨c, hc⟩ := hz.exists_changeNear clock
  have hb := hc.before
  have ha := hc.after
  unfold WithinDay at hb ha
  rw [clockAt, instantOf, hc.localOffset, Change.localOffset, if_neg Bool.false_ne_true]
  by_cases hafter : c.start + max c.before c.after ≤ clock
  · left
    rw [if_pos hafter, hc.offsetAt _ (by omega) (by omega), Change.offsetAt, if_pos (by omega)]
    omega
  rw [if_neg hafter]
  by_cases hbefore : clock < c.start + c.before
  · left
    rw [hc.offsetAt _ (by omega) (by omega), Change.offsetAt, if_neg (by omega)]
    omega
  · right
    exact ⟨c, hc.change.resolve_right (by omega), by omega, by omega⟩

/-- A time that the clock shows is not in a gap. -/
theorem Spaced.not_skipped_of_shown (hz : z.Spaced P) (h : z.clockAt u = clock)
    (hc : z.ChangeNear clock c) : clock < c.start + c.before ∨ c.start + c.after ≤ clock := by
  have hu := hz.clockAt_near u
  have ho := hc.offsetAt u (by omega) (by omega)
  rw [clockAt, ho, Change.offsetAt] at h
  split at h <;> omega

/-- Both passes of a time that the clock shows show it. -/
theorem Spaced.clockAt_instantOf_of_shown (hz : z.Spaced P) (h : z.clockAt u = clock)
    (second : Bool) : z.clockAt (z.instantOf clock second) = clock := by
  obtain ⟨c, hc⟩ := hz.exists_changeNear clock
  have hn := hz.instantOf_near clock second
  have hshown := hz.not_skipped_of_shown h hc
  rw [clockAt, hc.offsetAt _ (by omega) (by omega), instantOf, hc.localOffset, Change.localOffset,
    Change.offsetAt]
  cases second with
  | false =>
    rw [if_neg Bool.false_ne_true]
    split <;> split <;> omega
  | true =>
    rw [if_pos rfl]
    split <;> split <;> omega

/-- The first pass of a time that the clock shows does not come after the second. -/
theorem Spaced.instantOf_false_le_of_shown (hz : z.Spaced P) (h : z.clockAt u = clock) :
    z.instantOf clock false ≤ z.instantOf clock true := by
  obtain ⟨c, hc⟩ := hz.exists_changeNear clock
  have hshown := hz.not_skipped_of_shown h hc
  rw [instantOf, instantOf, hc.localOffset, hc.localOffset, Change.localOffset, Change.localOffset,
    if_neg Bool.false_ne_true, if_pos rfl]
  split <;> split <;> omega

/-- The clock time that is shown at an instant stands for that instant. -/
theorem Spaced.momentAt_mem_resolve (hz : z.Spaced P) (h : z.clockAt u = clock) :
    z.momentAt u ∈ z.resolve clock := by
  have hfirst := hz.clockAt_instantOf_of_shown h false
  rw [resolve]
  by_cases htwo : z.instantOf clock false = z.instantOf clock true
  · rw [if_neg fun hne => hne.2 htwo]
    rcases hz.eq_instantOf h with rfl | rfl
    · exact List.mem_singleton_self _
    · rw [htwo]
      exact List.mem_singleton_self _
  · rw [if_pos ⟨hfirst, htwo⟩]
    rcases hz.eq_instantOf h with rfl | rfl
    · exact List.mem_cons_self
    · exact List.mem_cons_of_mem _ (List.mem_singleton_self _)

/-- A clock time stands for instants at which it is shown, or is skipped. -/
theorem Spaced.exists_of_mem_resolve (hz : z.Spaced P) {n : Moment} (h : n ∈ z.resolve clock) :
    ∃ u, n = z.momentAt u ∧ (clock - 86400 < u ∧ u < clock + 86400) ∧
      (z.clockAt u = clock ∨ u = z.instantOf clock false ∧ ∃ c ∈ z.changes, c.Skips clock) := by
  have hn := hz.instantOf_near clock false
  have hn' := hz.instantOf_near clock true
  rw [resolve] at h
  split at h
  · next hshown =>
    rcases List.mem_cons.1 h with rfl | h
    · exact ⟨_, rfl, by omega, .inl hshown.1⟩
    · obtain rfl := List.mem_singleton.1 h
      exact ⟨_, rfl, by omega, .inl (hz.clockAt_instantOf_of_shown hshown.1 true)⟩
  · obtain rfl := List.mem_singleton.1 h
    rcases hz.clockAt_instantOf_or clock with hshown | hskips
    · exact ⟨_, rfl, by omega, .inl hshown⟩
    · exact ⟨_, rfl, by omega, .inr ⟨rfl, hskips⟩⟩

end Zone

end CronSchedule
