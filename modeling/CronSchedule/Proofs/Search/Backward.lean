import CronSchedule.Proofs.Search.Consistent
import CronSchedule.Proofs.Zone.Beside

/-!
# Where a search back ends

A search back takes the first clock time that it meets with its moments ahead. Where the clock shows
that time the search is over. Where it is skipped the search looks at one more clock time, which
stands for an earlier instant.

* `Timetable.consider_behind`, `Timetable.consider_first`, `Timetable.consider_passed`: the steps
  before that clock time, at it and after it.
* `Timetable.outcome_first`: **the search comes to the last moment of the first clock time ahead.**
-/

namespace CronSchedule

open LocalTime Moment Zone

namespace Direction

/-- All moments of a clock time lie on the searched side. -/
def AllAhead (dir : Direction) (z : Zone) (ref x : Int) : Prop :=
  ∀ n ∈ z.resolve x, dir.eligible n.posix ref = true

/-- No moment of a clock time lies on the searched side. -/
def NoneAhead (dir : Direction) (z : Zone) (ref x : Int) : Prop :=
  ∀ n ∈ z.resolve x, dir.eligible n.posix ref = false

/-- Every clock time has a moment. -/
theorem AllAhead.not_noneAhead {dir : Direction} {z : Zone} {ref x : Int}
    (h : dir.AllAhead z ref x) : ¬ dir.NoneAhead z ref x := by
  intro hnone
  have htrue := h _ (first_mem_resolve z x)
  rw [hnone _ (first_mem_resolve z x)] at htrue
  cases htrue

end Direction

namespace Timetable

open Direction

variable {dir : Direction} {z : Zone} {P : Change → Prop} {ref w x time : Int} {best n : Moment}
  {l : List Moment} {ws : List Int}

/-! ### The steps -/

/-- A clock time with nothing ahead leaves a search without a moment. -/
theorem consider_behind (hl : instantsOf z time = .ok l)
    (h : ∀ n ∈ l, dir.eligible n.posix ref = false) :
    consider dir z ref none time = .ok none := by
  have hnone : (markFirst (dir.arrange l)).filter (fun p => dir.eligible p.1.posix ref) = [] := by
    rw [List.filter_eq_nil_iff]
    intro p hp
    rw [h p.1 (mem_arrange.1 (fst_mem_of_mem_markFirst hp))]
    exact Bool.false_ne_true
  simp only [consider, hl, orFail_ok, bind, Except.bind, hnone]
  rfl

/-- Once the walk has passed the best moment, a clock time with nothing nearer ends the search. -/
theorem consider_passed (hl : instantsOf z time = .ok l)
    (hpast : dir.precedes time best.time = false) (h : ∀ n ∈ l, dir.closer n best = false) :
    consider dir z ref (some best) time = .error (.done best) := by
  have hnone : ((markFirst (dir.arrange l)).filter fun p => dir.eligible p.1.posix ref).any
      (fun p => dir.closer p.1 best) = false := by
    rw [List.any_eq_false]
    intro p hp
    rw [h p.1 (mem_arrange.1 (fst_mem_of_mem_markFirst (List.mem_filter.1 hp).1))]
    exact Bool.false_ne_true
  simp only [consider, hl, orFail_ok, bind, Except.bind, hpast, hnone]
  rfl

/-- At a clock time with all its moments ahead a search back takes the last one. The search is over
if the clock shows that time. -/
theorem consider_first (hz : z.Spaced P) (hi : Inner x) (h : backward.AllAhead z ref x) :
    ∃ n, (z.resolve x).getLast? = some n ∧
      (consider backward z ref none (x * 1000000) = .error (.done n) ∨
        (∃ c ∈ z.changes, c.Skips x ∧ n = z.momentAt (x - c.before)) ∧
          consider backward z ref none (x * 1000000) = .ok (some n)) := by
  have hn := hz.instantOf_near x false
  have hn' := hz.instantOf_near x true
  unfold Inner at hi
  rw [AllAhead, resolve] at h
  rw [resolve]
  have hl := hz.instantsOf_eq hi
  rw [resolve] at hl
  by_cases htwo : z.clockAt (z.instantOf x false) = x ∧ z.instantOf x false ≠ z.instantOf x true
  · -- the second pass of a repeated time comes first on the way back
    have hsecond := hz.clockAt_instantOf_of_shown htwo.1 true
    have hle := hz.instantOf_false_le_of_shown htwo.1
    have hcloser : backward.closer (z.momentAt (z.instantOf x false))
        (z.momentAt (z.instantOf x true)) = false := by
      rw [closer_momentAt backward hz (by omega) (by omega), precedes_eq_false_iff]
      simp only [key]
      omega
    rw [if_pos htwo] at h hl ⊢
    refine ⟨z.momentAt (z.instantOf x true), rfl, .inl ?_⟩
    have hfirst := h _ List.mem_cons_self
    have hlast := h _ (List.mem_cons_of_mem _ (List.mem_singleton_self _))
    simp only [consider, hl, orFail_ok, bind, Except.bind, pure, Except.pure, arrange,
      List.reverse_cons, List.reverse_nil, List.nil_append, List.cons_append, markFirst,
      List.map_cons, List.map_nil]
    simp [hfirst, hlast, improve, hcloser, hsecond]
    rfl
  · rw [if_neg htwo] at h hl ⊢
    refine ⟨z.momentAt (z.instantOf x false), rfl, ?_⟩
    have hfirst := h _ List.mem_cons_self
    rcases hz.clockAt_instantOf_or x with hshown | ⟨c, hc, hskips⟩
    · left
      simp only [consider, hl, orFail_ok, bind, Except.bind, pure, Except.pure, arrange,
        List.reverse_cons, List.reverse_nil, List.nil_append, markFirst, List.map_nil]
      simp [hfirst, improve, hshown]
      rfl
    · right
      obtain ⟨hpush, hpushed⟩ := hz.instantOf_of_skips hc hskips
      refine ⟨⟨c, hc, hskips, by rw [hpush]⟩, ?_⟩
      have hne : z.clockAt (z.instantOf x false) ≠ x := by
        unfold Change.Skips at hskips
        unfold Change.pushed at hpushed
        omega
      simp only [consider, hl, orFail_ok, bind, Except.bind, pure, Except.pure, arrange,
        List.reverse_cons, List.reverse_nil, List.nil_append, markFirst, List.map_nil]
      simp [hfirst, improve, hne]

/-! ### The whole search -/

/-- A search that meets nothing ahead comes to nothing. -/
theorem outcome_behind (hz : z.Spaced P) (hi : ∀ x ∈ ws, Inner x)
    (h : ∀ x ∈ ws, dir.NoneAhead z ref x) :
    outcome (ws.foldlM (fun best w => consider dir z ref best (w * 1000000)) none) = .ok none := by
  induction ws with
  | nil => rfl
  | cons w ws ih =>
    obtain ⟨hw, hi⟩ := List.forall_mem_cons.1 hi
    obtain ⟨hfirst, h⟩ := List.forall_mem_cons.1 h
    rw [List.foldlM_cons, consider_behind (hz.instantsOf_eq hw) hfirst]
    exact ih hi h

/-- The first clock time of a walk back with its moments ahead. It and those before it are inner
times, and so is the next one that the walk meets. -/
structure FirstAhead (z : Zone) (ref : Int) (ws : List Int) (x : Int) : Prop where
  mem : x ∈ ws
  ahead : backward.AllAhead z ref x
  behind : ∀ w ∈ ws, x < w → backward.NoneAhead z ref w
  inner : ∀ w ∈ ws, x ≤ w → Inner w
  next : ∀ w ∈ ws, w < x → ∃ w' ∈ ws, w ≤ w' ∧ w' < x ∧ Inner w'

/-- Past a skipped time nothing stands for a later instant. -/
theorem consider_afterSkipped (hz : z.Spaced (Change.MovesBy 86400)) {c : Change}
    (hc : c ∈ z.changes) (hskips : c.Skips x) (hi : Inner x) (hw : Inner w) (hlt : w < x) :
    consider backward z ref (some (z.momentAt (x - c.before))) (w * 1000000) =
      .error (.done (z.momentAt (x - c.before))) := by
  obtain ⟨hpush, hpushed⟩ := hz.instantOf_of_skips hc hskips
  have hnear := hz.instantOf_near x false
  rw [hpush] at hnear hpushed
  unfold Change.Skips at hskips
  unfold Change.pushed at hpushed
  unfold Inner at hi hw
  apply consider_passed (hz.instantsOf_eq hw)
  · rw [precedes_eq_false_iff, time_momentAt]
    simp only [key]
    omega
  · intro n hn
    obtain ⟨v, rfl, hv, hearlier⟩ := hz.exists_lt_of_mem_resolve hc (u := x - c.before) (by omega)
      (by omega) (by omega) hn
    rw [closer_momentAt backward hz (by omega) (by omega), precedes_eq_false_iff]
    simp only [key]
    omega

/-- **A search back comes to the last moment of the first clock time ahead.** -/
theorem outcome_first (hz : z.Spaced (Change.MovesBy 86400)) (hs : backward.Sorted ws)
    (h : FirstAhead z ref ws x) :
    outcome (ws.foldlM (fun best w => consider backward z ref best (w * 1000000)) none) =
      .ok (z.resolve x).getLast? := by
  induction ws with
  | nil => cases h.mem
  | cons w ws ih =>
    have hlater := hs.lt
    simp only [key] at hlater
    rw [List.foldlM_cons]
    rcases List.mem_cons.1 h.mem with rfl | hmem
    · have hi := h.inner x List.mem_cons_self (Int.le_refl x)
      obtain ⟨n, hlast, hdone | ⟨⟨c, hc, hskips, rfl⟩, htaken⟩⟩ := consider_first hz hi h.ahead
      · rw [hdone, hlast]
        rfl
      · rw [htaken, hlast]
        cases ws with
        | nil => rfl
        | cons y ws =>
          -- the next clock time is the greatest that is left
          have hy := hlater y List.mem_cons_self
          obtain ⟨y', hy', hle, hlt, hin⟩ := h.next y (by simp) (by omega)
          have hsame : y' = y := by
            rcases List.mem_cons.1 hy' with rfl | hy'
            · omega
            · rcases List.mem_cons.1 hy' with rfl | hy'
              · rfl
              · have := hs.tail.lt y' hy'
                simp only [key] at this
                omega
          subst hsame
          simp only [bind, Except.bind, List.foldlM_cons,
            consider_afterSkipped hz hc hskips hi hin hlt]
          rfl
    · have hx := hlater x hmem
      have hw := h.inner w List.mem_cons_self (by omega)
      have hbehind := h.behind w List.mem_cons_self (by omega)
      rw [consider_behind (hz.instantsOf_eq hw) hbehind]
      apply ih hs.tail
      refine ⟨hmem, h.ahead, ?_, ?_, ?_⟩
      · intro v hv
        exact h.behind v (List.mem_cons_of_mem w hv)
      · intro v hv
        exact h.inner v (List.mem_cons_of_mem w hv)
      · intro v hv hvx
        obtain ⟨v', hv', hle, hlt, hin⟩ := h.next v (List.mem_cons_of_mem w hv) hvx
        refine ⟨v', (List.mem_cons.1 hv').resolve_left ?_, hle, hlt, hin⟩
        rintro rfl
        omega

end Timetable

end CronSchedule
