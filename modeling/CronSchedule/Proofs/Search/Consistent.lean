import CronSchedule.Proofs.Search.Match

/-!
# Searches and matches

Whatever the zone, a search keeps one of the moments that it meets, so what it finds is a moment at
which the schedule fires. It resolves every skipped time, however long the gap is, while a match
looks back six hours. So a search can find a moment that a match overlooks.

* `Timetable.consider_keeps`: a step of a search keeps its best moment or takes one on the searched
  side.
* `Timetable.exists_search`: a search has an answer, and what it finds fires on the searched side.
* `Timetable.isMatch_next_last`: **what the two searches find is a match, except where only a
  skipped time is pushed there that lies six hours or more into its gap.**
* `Timetable.next_noonBefore`: a moment that a search finds and a match overlooks.
-/

namespace CronSchedule

open LocalTime Moment Zone

namespace Direction

/-- The better of two moments is one of them. -/
theorem improve_fst (dir : Direction) (best : Option Moment × Bool) (next : Moment × Bool) :
    (dir.improve best next).1 = best.1 ∨ (dir.improve best next).1 = some next.1 := by
  obtain ⟨best, flag⟩ := best
  cases best with
  | none => exact .inr rfl
  | some b =>
    simp only [improve]
    split
    · exact .inr rfl
    · exact .inl rfl

/-- The best of some moments is the one before or one of them. -/
theorem foldl_improve (dir : Direction) {l : List (Moment × Bool)} {Q : Moment → Prop}
    (hl : ∀ p ∈ l, Q p.1) (best : Option Moment × Bool) (hb : ∀ b ∈ best.1, Q b) :
    ∀ b ∈ (l.foldl dir.improve best).1, Q b := by
  induction l generalizing best with
  | nil => exact hb
  | cons p l ih =>
    obtain ⟨hp, hl⟩ := List.forall_mem_cons.1 hl
    refine ih hl _ ?_
    rcases improve_fst dir best p with h | h
    · rw [h]
      exact hb
    · rw [h]
      rintro b ⟨⟩
      exact hp

end Direction

namespace Timetable

open Direction

variable {t : Timetable} {dir : Direction} {m n : Moment} {z : Zone} {P : Change → Prop}

theorem fst_mem_of_mem_markFirst {l : List Moment} {p : Moment × Bool} (h : p ∈ markFirst l) :
    p.1 ∈ l := by
  cases l with
  | nil => cases h
  | cons n l =>
    rcases List.mem_cons.1 h with rfl | h
    · exact List.mem_cons_self
    · obtain ⟨n', hn', rfl⟩ := List.mem_map.1 h
      exact List.mem_cons_of_mem n hn'

theorem mem_arrange {l : List Moment} : n ∈ dir.arrange l ↔ n ∈ l := by
  cases dir with
  | forward => exact Iff.rfl
  | backward => exact List.mem_reverse

/-! ### What a search keeps -/

/-- A step or a walk that does not fail, and whose moment is as `Q` says. -/
inductive Keeps (Q : Moment → Prop) : Except (Halt Moment) (Option Moment) → Prop
  | best {best : Option Moment} (h : ∀ n ∈ best, Q n) : Keeps Q (.ok best)
  | done {n : Moment} (h : Q n) : Keeps Q (.error (.done n))

/-- How a step of a search ends, by what it keeps and whether this is the first that a local time
stands for. -/
def endStep (time : Int) : Option Moment × Bool → Except (Halt Moment) (Option Moment)
  | (some n, true) => if n.time = time then .error (.done n) else .ok (some n)
  | (best, _) => .ok best

/-- A step of a search keeps its best moment or takes one on the searched side. -/
theorem consider_keeps {time ref : Int} {l : List Moment} (hl : instantsOf z time = .ok l)
    {Q : Moment → Prop} (hQ : ∀ n ∈ l, dir.eligible n.posix ref = true → Q n)
    {best : Option Moment} (hb : ∀ n ∈ best, Q n) :
    Keeps Q (consider dir z ref best time) := by
  have hcand : ∀ p ∈ (markFirst (dir.arrange l)).filter fun p => dir.eligible p.1.posix ref,
      Q p.1 := by
    intro p hp
    obtain ⟨hp, he⟩ := List.mem_filter.1 hp
    exact hQ p.1 (mem_arrange.1 (fst_mem_of_mem_markFirst hp)) he
  have hfold := foldl_improve dir hcand (best, false) hb
  simp only [consider, hl, orFail_ok, bind, Except.bind, pure, Except.pure]
  generalize (markFirst (dir.arrange l)).filter _ = candidates at hfold ⊢
  have hend : ∀ kept : Option Moment × Bool, (∀ n ∈ kept.1, Q n) → Keeps Q (endStep time kept) := by
    intro kept hkept
    unfold endStep
    split
    · next n =>
      split
      · exact .done (hkept n rfl)
      · exact .best hkept
    · exact .best hkept
  cases best with
  | none => exact hend _ hfold
  | some b =>
    simp only
    split
    · exact .done (hb b rfl)
    · exact hend _ hfold

/-- So does a whole walk. -/
theorem foldlM_keeps {ref : Int} {Q : Moment → Prop} {times : List Int}
    (h : ∀ time ∈ times, ∃ l, instantsOf z time = .ok l ∧
      ∀ n ∈ l, dir.eligible n.posix ref = true → Q n)
    (best : Option Moment) (hb : ∀ n ∈ best, Q n) :
    Keeps Q (times.foldlM (consider dir z ref) best) := by
  induction times generalizing best with
  | nil => exact .best hb
  | cons time times ih =>
    obtain ⟨⟨l, hl, hQ⟩, htimes⟩ := List.forall_mem_cons.1 h
    rw [List.foldlM_cons]
    have hstep := consider_keeps hl hQ hb
    generalize consider dir z ref best time = step at hstep ⊢
    cases hstep with
    | best hb' => exact ih htimes _ hb'
    | done hn => exact .done hn

theorem Keeps.exists_outcome {Q : Moment → Prop} {r : Except (Halt Moment) (Option Moment)}
    (h : Keeps Q r) : ∃ found, outcome r = .ok found ∧ ∀ n ∈ found, Q n := by
  cases h with
  | best hb => exact ⟨_, rfl, hb⟩
  | done hn =>
    refine ⟨_, rfl, ?_⟩
    rintro n ⟨⟩
    exact hn

/-! ### Where a search starts -/

/-- A search starts no more than two days behind the moment. -/
theorem exists_searchStart (hz : m.zone.Spaced P) (hy : 2 ≤ (date m.time).year)
    (hy' : (date m.time).year ≤ 9998) :
    ∃ a, searchStart dir m = .ok (a * 1000000) ∧
      dir.key (LocalTime.seconds m.time) - 172800 ≤ dir.key a ∧
        dir.key a ≤ dir.key (LocalTime.seconds m.time) := by
  have hi := inner_of_year hy hy'
  have hws := wholeSecond_eq m.time
  obtain ⟨u, hjump⟩ := exists_forwardJump hz hi
  have ho := withinDay_offset hz
  have ho' := hz.withinDay_offsetAt u
  unfold WithinDay at ho ho'
  have hend : ∀ a : Int, LocalTime.seconds m.time - 172800 ≤ a →
      a ≤ LocalTime.seconds m.time + 172800 → inRange (a * 1000000) = .ok (a * 1000000) := by
    intro a ha ha'
    unfold Inner at hi
    exact inRange_eq_ok (inRange_mul_iff.2 (by omega))
  simp only [searchStart, hws, hz.instantsOf_eq hi, bind, Except.bind, resolve]
  generalize LocalTime.seconds m.time = clock at *
  by_cases htwo : m.zone.clockAt (m.zone.instantOf clock false) = clock ∧
      m.zone.instantOf clock false ≠ m.zone.instantOf clock true
  · -- in a repeated hour the walk starts no further away than the passes are from each other
    have hle := hz.instantOf_false_le_of_shown htwo.1
    have hsecond := hz.clockAt_instantOf_of_shown htwo.1 true
    have hn := hz.instantOf_near clock false
    have hn' := hz.instantOf_near clock true
    have hoff : m.zone.offsetAt (m.zone.instantOf clock false) -
        m.zone.offsetAt (m.zone.instantOf clock true) =
          m.zone.instantOf clock true - m.zone.instantOf clock false := by
      have hfirst := htwo.1
      unfold clockAt at hfirst hsecond
      omega
    rw [if_pos htwo]
    cases dir with
    | forward =>
      simp only [key, hz.offset_momentAt, hoff, ← Int.sub_mul]
      split
      · exact ⟨_, hend _ (by omega) (by omega), by omega, by omega⟩
      · exact ⟨clock, rfl, by omega, by omega⟩
    | backward =>
      simp only [key, hz.offset_momentAt, hoff, ← Int.add_mul]
      split
      · exact ⟨_, hend _ (by omega) (by omega), by omega, by omega⟩
      · exact ⟨clock, rfl, by omega, by omega⟩
  · rw [if_neg htwo]
    cases dir with
    | forward =>
      simp only [key, hjump, ← Int.sub_mul]
      exact ⟨_, hend _ (by omega) (by omega), by omega, by omega⟩
    | backward =>
      simp only [key]
      exact ⟨clock, rfl, by omega, by omega⟩

/-- **A search has an answer, and what it finds fires on the searched side.** -/
theorem exists_search (ht : t.Sound) (hz : m.zone.Spaced P) (hy : t.WithinYears dir m) :
    ∃ r, t.search dir m = .ok r ∧ ∀ n ∈ r, dir.eligible n.posix m.posix = true ∧
      ∃ w, (-62105000000 ≤ w ∧ w ≤ 253371000000) ∧ t.FireOf m.zone (w * 1000000) n := by
  obtain ⟨a, hstart, ha⟩ := exists_searchStart hz hy.1.1 hy.1.2
  rw [search_of_start hstart, walk_eq_foldlM ht]
  refine (foldlM_keeps ?_ none nofun).exists_outcome
  intro time htime
  rw [times_eq_map ht] at htime
  obtain ⟨w, hw, rfl⟩ := List.mem_map.1 htime
  have hb := bounds_of_mem_clocks ht hy ha hw
  have hi : Inner w := by
    unfold Inner
    omega
  refine ⟨_, hz.instantsOf_eq hi, fun n hn he => ⟨he, w, hb, ?_⟩⟩
  exact fireOf_of_mem_resolve hz hi ((mem_clocks ht).1 hw).1.2.1 hn

/-! ### What a match overlooks -/

/-- A moment that only a skipped time is pushed to, six hours or more into its gap. -/
def Overlooked (t : Timetable) (n : Moment) : Prop :=
  t.fires n.time = .ok false ∧ ∃ c ∈ n.zone.changes, ∃ x, c.Skips x ∧
    n.instant = (x - c.before) * 1000000 ∧ c.start + c.before + 21600 ≤ x

/-- Where no gap is longer than six hours nothing is overlooked. -/
theorem not_overlooked (hz : n.zone.Spaced (Change.MovesBy 21600)) : ¬ t.Overlooked n := by
  rintro ⟨-, c, hc, x, hskips, -, hlate⟩
  have hlim := (hz.changes c hc).1
  have hend := hskips.2
  omega

/-- A moment of a fire time is a match if it is not overlooked. -/
theorem isMatch_of_fireOf (ht : t.Sound) (hz : z.Spaced (Change.MovesBy 86400)) {w : Int}
    (hw : -62105000000 ≤ w ∧ w ≤ 253371000000) (hfire : t.FireOf z (w * 1000000) n) :
    ∃ b, t.isMatch n = .ok b ∧ (b = true ↔ ¬ t.Overlooked n) := by
  obtain ⟨x, hx, -, hf, hn⟩ := hfire.exists_resolve hz
  obtain rfl : w = x := by omega
  obtain ⟨u, rfl, hu, hfrom⟩ := hz.exists_of_mem_resolve hn
  have hwhole : (z.momentAt u).Whole (z.clockAt u) u := ⟨rfl, (hz.instantOf_clockAt u).symm⟩
  have hclock := hz.clockAt_near u
  obtain ⟨b, hb, hmatch⟩ := isMatch_eq ht hwhole hz rfl (by unfold Innermost; omega)
  refine ⟨b, hb, ?_⟩
  have hinstant := hz.instant_momentAt u
  rw [hmatch]
  constructor
  · rintro ⟨y, hback, hfy⟩ ⟨hnot, c, hc, x, hskips, hxu, hlate⟩
    rcases hz.readBack_iff.1 hback with rfl | ⟨c', hc', hskips', hy, hsoon⟩
    · rw [time_momentAt, hfy] at hnot
      cases hnot
    · -- both changes lie less than a day before the moment
      have hlim := (hz.changes c hc).1
      have hlim' := (hz.changes c' hc').1
      unfold Change.Skips at hskips hskips'
      obtain rfl : c = c' := hz.eq_of_near hc hc' (by omega) (by omega)
      omega
  · intro hover
    by_contra hnone
    obtain ⟨b', hb'⟩ : ∃ b', t.fires (z.clockAt u * 1000000) = .ok b' := ⟨_, fires_eq ht _⟩
    cases b' with
    | true => exact hnone ⟨_, .inl rfl, hb'⟩
    | false =>
      rcases hfrom with rfl | ⟨hpush, c, hc, hskips⟩
      · rw [hf] at hb'
        cases hb'
      · rw [(hz.instantOf_of_skips hc hskips).1] at hpush
        refine hover ⟨hb', c, hc, w, hskips, by rw [hinstant, hpush], ?_⟩
        by_contra hsoon
        exact hnone ⟨w, hz.readBack_iff.2 (.inr ⟨c, hc, hskips, hpush.symm, by omega⟩), hf⟩

/-- **What the next and the last search find is a match, except where only a skipped time is pushed
there that lies six hours or more into its gap.** -/
theorem isMatch_next_last {s : Schedule} (hD : s.definition ∈ Dialect.all)
    (hv : s.validate = .ok ()) {maxYears : Int} (hn : 1 ≤ maxYears)
    (hz : m.zone.Spaced (Change.MovesBy 86400)) :
    ∃ t, of? s maxYears = .ok t ∧
      (2 ≤ (date m.time).year → (date m.time).year + maxYears ≤ 9998 →
        ∃ r, t.next m = .ok r ∧
          ∀ n ∈ r, ∃ b, t.isMatch n = .ok b ∧ (b = true ↔ ¬ t.Overlooked n)) ∧
      (2 ≤ (date m.time).year - maxYears → (date m.time).year ≤ 9998 →
        ∃ r, t.last m = .ok r ∧
          ∀ n ∈ r, ∃ b, t.isMatch n = .ok b ∧ (b = true ↔ ¬ t.Overlooked n)) := by
  obtain ⟨t, ht, -, rfl, hsound⟩ := exists_of_validate hD hv hn
  have hfound : ∀ dir, t.WithinYears dir m → ∃ r, t.search dir m = .ok r ∧
      ∀ n ∈ r, ∃ b, t.isMatch n = .ok b ∧ (b = true ↔ ¬ t.Overlooked n) := by
    intro dir hyears
    obtain ⟨r, hr, hfires⟩ := exists_search hsound hz hyears
    refine ⟨r, hr, ?_⟩
    intro n hmem
    obtain ⟨-, w, hw, hfire⟩ := hfires n hmem
    exact isMatch_of_fireOf hsound hz hw hfire
  refine ⟨t, ht, ?_, ?_⟩
  · intro hy hy'
    refine hfound .forward ?_
    simp only [WithinYears, Direction.leastYear, Direction.greatestYear]
    omega
  · intro hy hy'
    refine hfound .backward ?_
    simp only [WithinYears, Direction.leastYear, Direction.greatestYear]
    omega

/-- At noon on the 30th of December. -/
def decemberNoon : Schedule :=
  .ofAssignment Dialect.unix fun
    | .minute => some (.value 0)
    | .hour => some (.value 12)
    | .dayOfMonth => some (.value 30)
    | .month => some (.value 12)
    | .dayOfWeek => some .always
    | _ => none

/-- What `decemberNoon` fires at. -/
def decemberTable : Timetable := ⟨decemberNoon, 100, [0], [0], [12], [12]⟩

theorem of?_decemberNoon : of? decemberNoon defaultYears = .ok decemberTable := by rfl

/-- A zone that crosses the date line and skips the 30th of December 2011. -/
def dateLine : Zone := ⟨-36000, [⟨1325239200, 50400⟩]⟩

theorem spaced_dateLine : dateLine.Spaced (Change.MovesBy 86400) := by
  refine ⟨by decide, ?_, ?_, ?_⟩
  · simp only [dateLine, List.forall_mem_singleton]
    decide
  · exact List.pairwise_singleton _ _
  · simp only [changes, changesFrom, dateLine, List.forall_mem_singleton, Change.MovesBy]
    decide

/-- Noon on the 29th. -/
def noonBefore : Moment := ⟨dateLine, 1325160000000000, false⟩

/-- Noon on the 31st. -/
def noonAfter : Moment := ⟨dateLine, 1325332800000000, false⟩

/-- **The search finds noon on the 31st, where noon on the 30th is pushed to, and it is no match.**
-/
theorem next_noonBefore :
    decemberNoon.definition ∈ Dialect.all ∧ decemberNoon.validate = .ok () ∧
      dateLine.Spaced (Change.MovesBy 86400) ∧ (date noonBefore.time).year = 2011 ∧
        of? decemberNoon defaultYears = .ok decemberTable ∧
          decemberTable.next noonBefore = .ok (some noonAfter) ∧
            decemberTable.isMatch noonAfter = .ok false :=
  ⟨List.mem_cons_self, by rfl, spaced_dateLine, by rfl, of?_decemberNoon, by decide +kernel,
    by decide +kernel⟩

/-- Noon is twelve hours into the gap. -/
theorem overlooked_noonAfter :
    ∃ t, of? decemberNoon defaultYears = .ok t ∧ t.next noonBefore = .ok (some noonAfter) ∧
      t.Overlooked noonAfter := by
  have hy : (date noonBefore.time).year = 2011 := by rfl
  obtain ⟨t, ht, hnext, -⟩ := isMatch_next_last (s := decemberNoon) (m := noonBefore)
    List.mem_cons_self (by rfl) (by decide : 1 ≤ defaultYears) spaced_dateLine
  obtain rfl := Except.ok.inj (of?_decemberNoon.symm.trans ht)
  have hfound : decemberTable.next noonBefore = .ok (some noonAfter) := by decide +kernel
  obtain ⟨r, hr, hall⟩ := hnext (by omega) (by rw [hy]; decide)
  obtain rfl := Except.ok.inj (hfound.symm.trans hr)
  obtain ⟨b, hb, hmatch⟩ := hall noonAfter rfl
  have hfalse : decemberTable.isMatch noonAfter = .ok false := by decide +kernel
  obtain rfl := Except.ok.inj (hfalse.symm.trans hb)
  refine ⟨_, ht, hfound, ?_⟩
  by_contra hnot
  exact Bool.false_ne_true (hmatch.2 hnot)

end Timetable

end CronSchedule
