import CronSchedule.Proofs.Search.Nearest
import CronSchedule.Proofs.Zone.Skip

/-!
# A search in a zone whose clock is only ever moved forward

There each clock time stands for one instant, and a search keeps the best instant so far. A time
that the clock shows ends the search as soon as it is the best. One that is skipped is kept until
the walk comes to what the clock shows at its instant, as a later clock time may stand for a nearer
instant.

* `Timetable.search_eq_seek`: **the search finds the moment of the instant that `Direction.seek`
  takes.**
* `Direction.seek_forward`: ahead it takes the least instant of all.
* `Direction.seek_backward`: back it takes the instant of the greatest clock time that has it ahead.
-/

namespace CronSchedule

open LocalTime Moment Zone

namespace Direction

/-- The instant that a search takes from clock times that stand for one instant each, with the best
one so far. -/
def seek (dir : Direction) (ref : Int) (z : Zone) : Option Int → List Int → Option Int
  | best, [] => best
  | best, w :: ws =>
    let u := z.instantOf w false
    if dir.ahead ref u && best.all (dir.precedes u) then
      if z.clockAt u = w then some u else seek dir ref z (some u) ws
    else if best.any fun v => !dir.precedes w (z.clockAt v) then best
    else seek dir ref z best ws

end Direction

namespace Timetable

open Direction

variable {dir : Direction} {z : Zone} {P : Change → Prop} {limit ref u w : Int} {t : Timetable}

/-! ### One step of the search -/

/-- A clock time that stands for one instant. -/
theorem consider_single (hz : z.Spaced P) (hr : Posix.Sharp ref)
    (hw : instantsOf z (w * 1000000) = .ok [z.momentAt u]) (hu : u.natAbs < 2 ^ 53)
    {best : Option Int} (hb : ∀ v ∈ best, v.natAbs < 2 ^ 53) :
    consider dir z (Posix.ofMicros ref) (best.map z.momentAt) (w * 1000000) =
      if dir.ahead ref u && best.all (dir.precedes u) then
        if z.clockAt u = w then .error (.done (z.momentAt u)) else .ok (some (z.momentAt u))
      else
        match best with
        | some v =>
          if !dir.precedes w (z.clockAt v) then .error (.done (z.momentAt v))
          else .ok (some (z.momentAt v))
        | none => .ok none := by
  have harr : dir.arrange [z.momentAt u] = [z.momentAt u] := by
    cases dir with
    | forward => rfl
    | backward => rfl
  simp only [consider, hw, orFail_ok, bind, Except.bind, pure, Except.pure, harr, markFirst,
    List.map_nil]
  cases best with
  | none =>
    cases ha : dir.ahead ref u with
    | false => simp [eligible_momentAt hz hu hr, ha]
    | true =>
      simp [eligible_momentAt hz hu hr, ha, improve]
      rfl
  | some v =>
    have hcloser := closer_momentAt dir hz hu (hb v rfl)
    have hpast : dir.precedes (w * 1000000) (z.clockAt v * 1000000) =
        dir.precedes w (z.clockAt v) := by
      rw [Bool.eq_iff_iff, precedes_iff, precedes_iff, key_mul, key_mul]
      omega
    cases ha : dir.ahead ref u with
    | false =>
      cases hp : dir.precedes w (z.clockAt v) with
      | false =>
        simp [eligible_momentAt hz hu hr, ha, hpast, hp]
        rfl
      | true => simp [eligible_momentAt hz hu hr, ha, hpast, hp]
    | true =>
      cases hc : dir.precedes u v with
      | false =>
        rw [hc] at hcloser
        cases hp : dir.precedes w (z.clockAt v) with
        | false =>
          simp [eligible_momentAt hz hu hr, ha, hpast, hp, hc, hcloser]
          rfl
        | true => simp [eligible_momentAt hz hu hr, ha, hpast, hp, hc, hcloser, improve]
      | true =>
        rw [hc] at hcloser
        simp [eligible_momentAt hz hu hr, ha, hc, hcloser, improve]
        rfl

/-! ### The whole search -/

theorem outcome_seek (hz : z.Spaced (Change.MovesForward limit)) (hr : Posix.Sharp ref)
    {ws : List Int} (hi : ∀ w ∈ ws, Inner w) (best : Option Int)
    (hb : ∀ v ∈ best, v.natAbs < 2 ^ 53) :
    outcome (ws.foldlM (fun best w =>
      consider dir z (Posix.ofMicros ref) best (w * 1000000)) (best.map z.momentAt)) =
        .ok ((dir.seek ref z best ws).map z.momentAt) := by
  induction ws generalizing best with
  | nil => rfl
  | cons w ws ih =>
    obtain ⟨hw, hws⟩ := List.forall_mem_cons.1 hi
    have hn := hz.instantOf_near w false
    have hu : (z.instantOf w false).natAbs < 2 ^ 53 := by
      unfold Inner at hw
      omega
    rw [List.foldlM_cons, consider_single hz hr (hz.instantsOf_movesForward hw) hu hb, seek]
    by_cases htake : (dir.ahead ref (z.instantOf w false) &&
        best.all (dir.precedes (z.instantOf w false))) = true
    · simp only [if_pos htake]
      by_cases hshown : z.clockAt (z.instantOf w false) = w
      · simp only [if_pos hshown]
        rfl
      · simp only [if_neg hshown]
        refine ih hws (some (z.instantOf w false)) ?_
        intro v hv
        cases hv
        exact hu
    · simp only [if_neg htake]
      cases best with
      | none => exact ih hws none hb
      | some v =>
        cases hp : dir.precedes w (z.clockAt v) with
        | false =>
          simp [hp]
          rfl
        | true =>
          simp [hp]
          exact ih hws (some v) hb

/-- **The search finds the moment of the instant that is taken from the clock times it meets.** -/
theorem search_eq_seek (ht : t.Sound) {m : Moment}
    (hz : m.zone.Spaced (Change.MovesForward limit)) (hr : Posix.Sharp m.instant) {start : Int}
    (hs : searchStart dir m = .ok start) (hi : ∀ w ∈ t.clocks dir start, Inner w) :
    t.search dir m =
      .ok ((dir.seek m.instant m.zone none (t.clocks dir start)).map m.zone.momentAt) := by
  rw [search_of_start hs, walk_eq_foldlM ht, times_eq_map ht, List.foldlM_map]
  exact outcome_seek hz hr hi none nofun

end Timetable

namespace Direction

variable {z : Zone} {limit ref w n : Int} {ws : List Int} {dir : Direction}

/-! ### What is taken -/

/-- What is taken is the best so far, or ahead and the instant of one of the clock times. -/
theorem seek_sound {best : Option Int} (h : dir.seek ref z best ws = some n) :
    best = some n ∨ dir.ahead ref n = true ∧ ∃ w ∈ ws, z.instantOf w false = n := by
  induction ws generalizing best with
  | nil => exact .inl h
  | cons w ws ih =>
    have hlater : ∀ {best'}, dir.seek ref z best' ws = some n → best' = some n ∨
        dir.ahead ref n = true ∧ ∃ w' ∈ w :: ws, z.instantOf w' false = n := by
      intro best' h'
      rcases ih h' with hb | ⟨ha, w', hw', hn⟩
      · exact .inl hb
      · exact .inr ⟨ha, w', List.mem_cons_of_mem w hw', hn⟩
    rw [seek] at h
    by_cases htake : (dir.ahead ref (z.instantOf w false) &&
        best.all (dir.precedes (z.instantOf w false))) = true
    · simp only [if_pos htake] at h
      have ha := (Bool.and_eq_true_iff.1 htake).1
      have hhere : some (z.instantOf w false) = some n → dir.ahead ref n = true ∧
          ∃ w' ∈ w :: ws, z.instantOf w' false = n := by
        intro heq
        obtain rfl := Option.some.inj heq
        exact ⟨ha, w, List.mem_cons_self, rfl⟩
      right
      split at h
      · exact hhere h
      · rcases hlater h with hb | hr
        · exact hhere hb
        · exact hr
    · simp only [if_neg htake] at h
      split at h
      · exact .inl h
      · exact hlater h

/-- **Ahead, the instant that is taken is the least of all.** -/
theorem seek_forward (hz : z.Spaced (Change.MovesForward limit)) (hs : forward.Sorted ws)
    (best : Option Int) :
    (∀ v ∈ best, ∃ n ∈ forward.seek ref z best ws, n ≤ v) ∧
      ∀ w ∈ ws, forward.ahead ref (z.instantOf w false) = true →
        ∃ n ∈ forward.seek ref z best ws, n ≤ z.instantOf w false := by
  induction ws generalizing best with
  | nil => exact ⟨fun v hv => ⟨v, hv, Int.le_refl v⟩, List.forall_mem_nil _⟩
  | cons w ws ih =>
    have hlater := hs.lt
    simp only [key] at hlater
    rw [List.forall_mem_cons, seek]
    by_cases htake : (forward.ahead ref (z.instantOf w false) &&
        best.all (forward.precedes (z.instantOf w false))) = true
    · simp only [if_pos htake]
      -- the new one is before the best so far
      have hbest : ∀ v ∈ best, z.instantOf w false < v := by
        intro v hv
        have h := (Bool.and_eq_true_iff.1 htake).2
        rw [Option.mem_def.1 hv] at h
        simpa [precedes] using h
      by_cases hshown : z.clockAt (z.instantOf w false) = w
      · rw [if_pos hshown]
        refine ⟨fun v hv => ⟨_, rfl, Int.le_of_lt (hbest v hv)⟩,
          fun _ => ⟨_, rfl, Int.le_refl _⟩, fun w' hw' _ => ⟨_, rfl, ?_⟩⟩
        exact hz.le_instantOf (by have := hlater w' hw'; omega)
      · rw [if_neg hshown]
        obtain ⟨hkeep, hrest⟩ := ih hs.tail (some (z.instantOf w false))
        obtain ⟨n, hn, hle⟩ := hkeep _ rfl
        refine ⟨fun v hv => ⟨n, hn, ?_⟩, fun _ => ⟨n, hn, hle⟩, hrest⟩
        have := hbest v hv
        omega
    · simp only [if_neg htake]
      -- the new one is not ahead, or not before the best so far
      have hhere : forward.ahead ref (z.instantOf w false) = true →
          ∃ v ∈ best, v ≤ z.instantOf w false := by
        intro ha
        cases best with
        | none => exact absurd (by simp [ha]) htake
        | some v => exact ⟨v, rfl, by simpa [ha, precedes] using htake⟩
      split
      · next hpast =>
        obtain ⟨v, hv, hpast⟩ := (Option.any_eq_true _ _).1 hpast
        have hclock : z.clockAt v ≤ w := by simpa [precedes] using hpast
        -- no clock time from here on stands for an earlier instant than the best so far
        refine ⟨fun v' hv' => ⟨v', hv', Int.le_refl v'⟩, fun _ => ⟨v, hv, hz.le_instantOf hclock⟩,
          fun w' hw' _ => ⟨v, hv, hz.le_instantOf ?_⟩⟩
        have := hlater w' hw'
        omega
      · obtain ⟨hkeep, hrest⟩ := ih hs.tail best
        refine ⟨hkeep, fun ha => ?_, hrest⟩
        obtain ⟨v, hv, hle⟩ := hhere ha
        obtain ⟨n, hn, hle'⟩ := hkeep v hv
        exact ⟨n, hn, by omega⟩

/-- Back from a skipped clock time nothing stands for a later instant. -/
theorem seek_of_skipped (hz : z.Spaced (Change.MovesForward limit)) (hl : limit ≤ 86400)
    (hs : backward.Sorted (w :: ws)) (hw : z.clockAt (z.instantOf w false) ≠ w) :
    backward.seek ref z (some (z.instantOf w false)) ws = some (z.instantOf w false) := by
  cases ws with
  | nil => rfl
  | cons w' ws =>
    have hlt := hs.lt w' List.mem_cons_self
    simp only [key] at hlt
    have hle := hz.instantOf_le_of_lt hl (show w' < w by omega) hw
    have hclock := hz.le_clockAt_instantOf w
    have hnot : backward.precedes (z.instantOf w' false) (z.instantOf w false) = false := by
      rw [precedes, decide_eq_false_iff_not]
      omega
    have hpast : backward.precedes w' (z.clockAt (z.instantOf w false)) = false := by
      rw [precedes, decide_eq_false_iff_not]
      omega
    rw [seek]
    simp only [Option.all_some, Option.any_some, hnot, hpast, Bool.and_false, Bool.false_eq_true,
      Bool.not_false, if_false, if_true]

/-- **Back, the instant that is taken is that of the greatest clock time that has it ahead.** -/
theorem seek_backward (hz : z.Spaced (Change.MovesForward limit)) (hl : limit ≤ 86400)
    (hs : backward.Sorted ws) (hw : w ∈ ws)
    (ha : backward.ahead ref (z.instantOf w false) = true) :
    ∃ v ∈ ws, backward.seek ref z none ws = some (z.instantOf v false) ∧
      backward.ahead ref (z.instantOf v false) = true ∧
        ∀ x ∈ ws, backward.ahead ref (z.instantOf x false) = true → x ≤ v := by
  induction ws with
  | nil => cases hw
  | cons y ws ih =>
    have hlater := hs.lt
    simp only [key] at hlater
    rw [seek]
    cases hy : backward.ahead ref (z.instantOf y false) with
    | true =>
      refine ⟨y, List.mem_cons_self, ?_, hy, ?_⟩
      · simp only [Option.all_none, Bool.and_true, if_true]
        by_cases hshown : z.clockAt (z.instantOf y false) = y
        · rw [if_pos hshown]
        · rw [if_neg hshown, seek_of_skipped hz hl hs hshown]
      · intro x hx _
        rcases List.mem_cons.1 hx with rfl | hx
        · exact Int.le_refl x
        · have := hlater x hx
          omega
    | false =>
      have hne : ∀ x, backward.ahead ref (z.instantOf x false) = true → x ≠ y := by
        rintro x hx rfl
        rw [hy] at hx
        cases hx
      obtain ⟨v, hv, hseek, hav, hle⟩ := ih hs.tail ((List.mem_cons.1 hw).resolve_left (hne w ha))
      refine ⟨v, List.mem_cons_of_mem y hv, ?_, hav, ?_⟩
      · simp only [Bool.false_and, Bool.false_eq_true, if_false, Option.any_none]
        exact hseek
      · intro x hx hax
        exact hle x ((List.mem_cons.1 hx).resolve_left (hne x hax)) hax

end Direction

end CronSchedule
