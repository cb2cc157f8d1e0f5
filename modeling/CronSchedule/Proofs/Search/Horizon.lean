import CronSchedule.Proofs.Search.Consistent
import CronSchedule.Proofs.Search.FixedOffset
import CronSchedule.Proofs.Timetable.Cycle

/-!
# The horizon of a search

A search looks at no more than so many years. Forty are enough for a schedule that admits every
year: within forty years it fires if it ever does. So it has no answer only if it never fires.

A moment far from 1970 is compared with its microseconds rounded, up to the next second at most. The
search may then pass over a fire time in that second, the very start of the next year even, and it
takes another one.

* `Timetable.foldlM_holds`: a walk that meets a moment on the searched side comes to a moment.
* `Timetable.exists_clock_ahead`: there is a fire time to meet.
* `Timetable.next_last_isSome_iff`: **the two searches have an answer exactly if the schedule ever
  fires.**
-/

namespace CronSchedule

open LocalTime Moment Zone

namespace Direction

variable {dir : Direction} {z : Zone} {P : Change → Prop}

/-- A whole second is on the searched side of a moment that it lies a second or more away from. -/
theorem eligible_far (hz : z.Spaced P) {u ref : Int} (hu : u.natAbs < 2 ^ 53)
    (hr : ref.natAbs < 2 ^ 38 * 1000000) (h : dir.key ref + 1000000 ≤ dir.key u * 1000000) :
    dir.eligible (z.momentAt u).posix (Posix.ofMicros ref) = true := by
  obtain ⟨hafter, hbefore⟩ := Posix.ofMicros_far hr u
  rw [hz.posix_momentAt hu, eligible, precedes_iff]
  cases dir with
  | forward =>
    simp only [key] at h ⊢
    exact hafter h
  | backward =>
    simp only [key] at h ⊢
    have hlt := hbefore (by omega)
    omega

theorem improve_isSome (dir : Direction) (best : Option Moment × Bool) (next : Moment × Bool) :
    (dir.improve best next).1.isSome = true := by
  obtain ⟨best, flag⟩ := best
  cases best with
  | none => rfl
  | some b =>
    simp only [improve]
    split
    · rfl
    · rfl

/-- The best of some moments is one if there is any. -/
theorem foldl_improve_isSome (dir : Direction) (l : List (Moment × Bool))
    (best : Option Moment × Bool) (h : best.1.isSome = true ∨ l ≠ []) :
    (l.foldl dir.improve best).1.isSome = true := by
  induction l generalizing best with
  | nil => exact h.resolve_right fun hne => hne rfl
  | cons p l ih =>
    apply ih
    exact .inl (improve_isSome dir best p)

end Direction

namespace Timetable

open Direction

variable {t : Timetable} {dir : Direction} {m n : Moment} {z : Zone} {P : Change → Prop}
  {a w ref time offset : Int}

theorem exists_mem_markFirst {l : List Moment} (h : n ∈ l) : ∃ flag, (n, flag) ∈ markFirst l := by
  cases l with
  | nil => cases h
  | cons n' l =>
    rcases List.mem_cons.1 h with rfl | h
    · exact ⟨true, List.mem_cons_self⟩
    · exact ⟨false, List.mem_cons_of_mem _ (List.mem_map_of_mem h)⟩

/-! ### What a search comes to -/

/-- A step or a walk that does not fail and comes to a moment. -/
inductive Holds : Except (Halt Moment) (Option Moment) → Prop
  | best (n : Moment) : Holds (.ok (some n))
  | done (n : Moment) : Holds (.error (.done n))

/-- A step keeps a moment, and it takes one on the searched side. -/
theorem consider_holds {l : List Moment} (hl : instantsOf z time = .ok l) {best : Option Moment}
    (h : best.isSome = true ∨ ∃ n ∈ l, dir.eligible n.posix ref = true) :
    Holds (consider dir z ref best time) := by
  have hcand : best.isSome = true ∨
      ((markFirst (dir.arrange l)).filter fun p => dir.eligible p.1.posix ref) ≠ [] := by
    refine h.imp_right ?_
    rintro ⟨n, hn, he⟩
    obtain ⟨flag, hflag⟩ := exists_mem_markFirst (mem_arrange.2 hn)
    exact List.ne_nil_of_mem (List.mem_filter.2 ⟨hflag, he⟩)
  have hfold := foldl_improve_isSome dir _ (best, false) hcand
  simp only [consider, hl, orFail_ok, bind, Except.bind, pure, Except.pure]
  generalize (markFirst (dir.arrange l)).filter _ = candidates at hfold ⊢
  have hend : ∀ kept : Option Moment × Bool, kept.1.isSome = true →
      Holds (endStep time kept) := by
    rintro ⟨kept, flag⟩ hkept
    obtain ⟨n, rfl⟩ := Option.isSome_iff_exists.1 hkept
    cases flag with
    | true =>
      simp only [endStep]
      split
      · exact .done n
      · exact .best n
    | false => exact .best n
  cases best with
  | none => exact hend _ hfold
  | some b =>
    simp only
    split
    · exact .done b
    · exact hend _ hfold

/-- **A walk that meets a moment on the searched side comes to a moment.** -/
theorem foldlM_holds {times : List Int} (hall : ∀ time ∈ times, ∃ l, instantsOf z time = .ok l)
    (best : Option Moment)
    (h : best.isSome = true ∨ ∃ time ∈ times, ∃ l, instantsOf z time = .ok l ∧
      ∃ n ∈ l, dir.eligible n.posix ref = true) :
    Holds (times.foldlM (consider dir z ref) best) := by
  induction times generalizing best with
  | nil =>
    rcases h with h | ⟨time, hmem, -⟩
    · obtain ⟨n, rfl⟩ := Option.isSome_iff_exists.1 h
      exact .best n
    · cases hmem
  | cons first times ih =>
    obtain ⟨⟨l, hl⟩, hall⟩ := List.forall_mem_cons.1 hall
    rw [List.foldlM_cons]
    -- either the first step comes to a moment, or a later one does whatever the first one comes to
    have hlater : (∃ time ∈ times, ∃ l, instantsOf z time = .ok l ∧
        ∃ n ∈ l, dir.eligible n.posix ref = true) ∨ Holds (consider dir z ref best first) := by
      rcases h with h | ⟨time, hmem, l', hl', hn⟩
      · exact .inr (consider_holds hl (.inl h))
      · rcases List.mem_cons.1 hmem with rfl | hmem
        · exact .inr (consider_holds hl' (.inr hn))
        · exact .inl ⟨time, hmem, l', hl', hn⟩
    have hstep : Keeps (fun _ => True) (consider dir z ref best first) :=
      consider_keeps hl (fun _ _ _ => trivial) fun _ _ => trivial
    generalize consider dir z ref best first = step at hlater hstep ⊢
    rcases hlater with hlater | hheld
    · cases hstep with
      | best _ => exact ih hall _ (.inr hlater)
      | @done n _ => exact .done n
    · cases hheld with
      | best n => exact ih hall _ (.inl rfl)
      | done n => exact .done n

theorem Holds.exists_outcome {r : Except (Halt Moment) (Option Moment)} (h : Holds r) :
    ∃ n, outcome r = .ok (some n) := by
  cases h with
  | best n | done n => exact ⟨n, rfl⟩

/-- A search that meets a moment on the searched side has an answer. -/
theorem search_of_mem_clocks (ht : t.Sound) (hz : m.zone.Spaced P) (hy : t.WithinYears dir m)
    (hstart : searchStart dir m = .ok (a * 1000000))
    (ha : dir.key (LocalTime.seconds m.time) - 172800 ≤ dir.key a ∧
      dir.key a ≤ dir.key (LocalTime.seconds m.time))
    (hw : w ∈ t.clocks dir (a * 1000000)) (hn : n ∈ m.zone.resolve w)
    (he : dir.eligible n.posix m.posix = true) : ∃ n', t.search dir m = .ok (some n') := by
  have hinner : ∀ w ∈ t.clocks dir (a * 1000000), Inner w := by
    intro w hw
    have hb := bounds_of_mem_clocks ht hy ha hw
    unfold Inner
    omega
  rw [search_of_start hstart, walk_eq_foldlM ht, times_eq_map ht]
  apply Holds.exists_outcome
  apply foldlM_holds
  · intro time htime
    obtain ⟨w', hw', rfl⟩ := List.mem_map.1 htime
    exact ⟨_, hz.instantsOf_eq (hinner w' hw')⟩
  · exact .inr ⟨_, List.mem_map_of_mem hw, _, hz.instantsOf_eq (hinner w hw), n, hn, he⟩

/-! ### Fire times within the horizon -/

/-- A search meets a fire time of the years it looks at that lies a second or more away. -/
theorem mem_clocks_of_fires (ht : t.Sound) {x : Int} (hm : micros x = 0) (hf : t.fires x = .ok true)
    (hleast : dir.leastYear (date m.time).year t.maxYears ≤ (date x).year)
    (hgreatest : (date x).year ≤ dir.greatestYear (date m.time).year t.maxYears)
    (hfar : dir.key m.time + 1000000 ≤ dir.key x) :
    ∃ w ∈ t.clocks dir (wholeSecond m.time), dir.key m.time + 1000000 ≤ dir.key w * 1000000 := by
  have hwhole := wholeSecond_le m.time
  have hx := seconds_mul_of_micros hm
  refine ⟨LocalTime.seconds x, ?_, ?_⟩
  · rw [mem_clocks ht, hx, Walked, wholeSecond_wholeSecond, date_wholeSecond, precedes_eq_false_iff]
    refine ⟨⟨hm, hf, hleast, hgreatest⟩, ?_⟩
    cases dir with
    | forward | backward =>
      simp only [key] at hfar ⊢
      omega
  · rw [← key_mul, hx]
    exact hfar

/-- **There is a fire time to meet**, a second or more away, if the schedule ever fires. -/
theorem exists_clock_ahead (ht : t.Sound) (hev : t.EveryYear) (h40 : 40 ≤ t.maxYears)
    (hy : t.WithinYears dir m) {x : Int} (hm : micros x = 0) (hf : t.fires x = .ok true) :
    ∃ w ∈ t.clocks dir (wholeSecond m.time), dir.key m.time + 1000000 ≤ dir.key w * 1000000 := by
  have hwhole : ∀ year, startOfYear year % 1000000 = 0 := by
    intro year
    unfold startOfYear ofDaySeconds
    omega
  obtain ⟨⟨hy1, hy2⟩, hy3, hy4⟩ := hy
  cases dir with
  | forward =>
    obtain ⟨x', hm', hf', hlt, hle⟩ := exists_fires_after_start hev hm hf (date m.time).year
    have hstart : m.time < startOfYear ((date m.time).year + 1) := year_lt_iff.1 (by omega)
    have hsecond := hwhole ((date m.time).year + 1)
    have hyear : ¬ (date x').year < (date m.time).year + 1 := by
      intro hlate
      have hbefore := year_lt_iff.1 hlate
      omega
    simp only [leastYear, greatestYear] at hy3 hy4
    apply mem_clocks_of_fires ht hm' hf'
    · simp only [leastYear]
      omega
    · simp only [greatestYear]
      omega
    · unfold micros at hm'
      simp only [key]
      omega
  | backward =>
    obtain ⟨x', hm', hf', hlt, hle⟩ := exists_fires_after hev hm hf ((date m.time).year - 41)
    have hstart : startOfYear (date m.time).year ≤ m.time := by
      apply Int.not_lt.1
      intro hbefore
      have hyear := year_lt_iff.2 hbefore
      omega
    have hend : x' < startOfYear (date m.time).year := year_lt_iff.1 (by omega)
    have hsecond := hwhole (date m.time).year
    simp only [leastYear, greatestYear] at hy3 hy4
    apply mem_clocks_of_fires ht hm' hf'
    · simp only [leastYear]
      omega
    · simp only [greatestYear]
      omega
    · unfold micros at hm'
      simp only [key]
      omega

/-- In a zone with one offset for all time a search has an answer exactly if the schedule ever
fires. -/
theorem search_isSome_iff (dir : Direction) (ht : t.Sound) (hev : t.EveryYear)
    (h40 : 40 ≤ t.maxYears) (hz : m.zone = fixed offset) (ho : WithinDay offset)
    (hy : t.WithinYears dir m) :
    ∃ r, t.search dir m = .ok r ∧
      (r.isSome = true ↔ ∃ x, micros x = 0 ∧ t.fires x = .ok true ∧
        1 ≤ (date x).year ∧ (date x).year ≤ 9999) := by
  have hspaced : m.zone.Spaced (Change.MovesBack 0) := hz ▸ spaced_fixed ho
  obtain ⟨r, hr, hfound⟩ := exists_search ht hspaced hy
  refine ⟨r, hr, ?_, ?_⟩
  · intro hsome
    obtain ⟨n, rfl⟩ := Option.isSome_iff_exists.1 hsome
    obtain ⟨-, w, hw, hfire⟩ := hfound n rfl
    refine ⟨_, hfire.whole, hfire.fires, ?_, ?_⟩
    · apply Int.not_lt.1
      intro hearly
      have hlt := year_lt_iff.1 hearly
      rw [show startOfYear 1 = -62135596800000000 by decide] at hlt
      omega
    · apply Int.lt_add_one_iff.1
      apply year_lt_iff.2
      rw [show startOfYear (9999 + 1) = 253402300800000000 by decide]
      omega
  · rintro ⟨x, hm, hf, -, -⟩
    obtain ⟨w, hw, hfar⟩ := exists_clock_ahead ht hev h40 hy hm hf
    have hi := inner_of_year hy.1.1 hy.1.2
    have hseconds := wholeSecond_eq m.time
    have hstart : searchStart dir m = .ok (wholeSecond m.time) := searchStart_fixed hz ho hi
    rw [hseconds] at hstart hw
    have ha : dir.key (LocalTime.seconds m.time) - 172800 ≤ dir.key (LocalTime.seconds m.time) ∧
        dir.key (LocalTime.seconds m.time) ≤ dir.key (LocalTime.seconds m.time) := by omega
    have hb := bounds_of_mem_clocks ht hy ha hw
    have hread : m.zone.instantOf w false = w - offset := by
      rw [hz]
      rfl
    have hmem : m.zone.momentAt (w - offset) ∈ m.zone.resolve w :=
      hread ▸ first_mem_resolve m.zone w
    have hinstant : m.instant = m.time - offset * 1000000 := by
      rw [Moment.instant, offset_fixed hz]
    unfold WithinDay at ho
    unfold Inner LocalTime.seconds at hi
    have heligible : dir.eligible (m.zone.momentAt (w - offset)).posix m.posix = true := by
      apply eligible_far hspaced
      · omega
      · omega
      · cases dir with
        | forward | backward =>
          simp only [key] at hfar ⊢
          omega
    obtain ⟨n, hn⟩ := search_of_mem_clocks ht hspaced hy hstart ha hw hmem heligible
    rw [hr] at hn
    cases hn
    rfl

/-- **The horizon loses nothing.** Where a valid schedule puts no restriction on the year, a
timetable that looks forty years ahead or more has a next and a last fire time at every moment of
one offset for all time exactly if the schedule fires at all. The moment may have a fraction of a
second; the offset is a whole number of seconds, and finer ones are outside the model. -/
theorem next_last_isSome_iff {s : Schedule} (hD : s.definition ∈ Dialect.all)
    (hv : s.validate = .ok ())
    (hyear : s.expr? .year = none ∨ s.expr? .year = some .always) {maxYears : Int}
    (hn : 40 ≤ maxYears) (hz : m.zone = fixed offset) (ho : WithinDay offset) :
    ∃ t, of? s maxYears = .ok t ∧
      (2 ≤ (date m.time).year → (date m.time).year + maxYears ≤ 9998 →
        ∃ r, t.next m = .ok r ∧ (r.isSome = true ↔ ∃ x, micros x = 0 ∧ t.fires x = .ok true ∧
          1 ≤ (date x).year ∧ (date x).year ≤ 9999)) ∧
      (2 ≤ (date m.time).year - maxYears → (date m.time).year ≤ 9998 →
        ∃ r, t.last m = .ok r ∧ (r.isSome = true ↔ ∃ x, micros x = 0 ∧ t.fires x = .ok true ∧
          1 ≤ (date x).year ∧ (date x).year ≤ 9999)) := by
  obtain ⟨t, ht, rfl, rfl, hsound⟩ := exists_of_validate hD hv (by omega : 1 ≤ maxYears)
  have hev := everyYear_of_unrestricted hyear
  refine ⟨t, ht, ?_, ?_⟩
  · intro hy hy'
    refine search_isSome_iff .forward hsound hev hn hz ho ?_
    simp only [WithinYears, leastYear, greatestYear]
    omega
  · intro hy hy'
    refine search_isSome_iff .backward hsound hev hn hz ho ?_
    simp only [WithinYears, leastYear, greatestYear]
    omega

/-- At midnight on the 29th of February. -/
def leapDay : Schedule :=
  .ofAssignment Dialect.unix fun
    | .minute | .hour => some (.value 0)
    | .dayOfMonth => some (.value 29)
    | .month => some (.value 2)
    | .dayOfWeek => some .always
    | _ => none

/-- What `leapDay` fires at. -/
def leapTable : Timetable := ⟨leapDay, 100, [0], [0], [0], [2]⟩

/-- The start of 2097 in UTC. No leap day comes before 2104. -/
def afterLeapYear : Moment := ⟨fixed 0, 4007836800000000, false⟩

/-- The answers are the leap days of 2104 and of 2096. -/
theorem next_last_leapDay :
    leapDay.validate = .ok () ∧ leapDay.expr? .year = none ∧
      (date afterLeapYear.time).year = 2097 ∧
        of? leapDay defaultYears = .ok leapTable ∧
          ∃ n l, leapTable.next afterLeapYear = .ok (some n) ∧
            leapTable.last afterLeapYear = .ok (some l) ∧
              n.time = 4233686400000000 ∧ l.time = 3981312000000000 := by
  have hv : leapDay.validate = .ok () := by rfl
  have hy : (date afterLeapYear.time).year = 2097 := by rfl
  have htable : of? leapDay defaultYears = .ok leapTable := by rfl
  obtain ⟨t, ht, hnext, hlast⟩ := next_last_isSome_iff (s := leapDay) (m := afterLeapYear)
    List.mem_cons_self hv (.inl rfl) (by decide : 40 ≤ defaultYears) rfl
    (by decide : WithinDay 0)
  obtain rfl := Except.ok.inj (htable.symm.trans ht)
  -- the schedule fires in 2000
  have hfires : ∃ x, micros x = 0 ∧ leapTable.fires x = .ok true ∧
      1 ≤ (date x).year ∧ (date x).year ≤ 9999 :=
    ⟨951782400000000, by decide, by decide +kernel, by decide, by decide⟩
  obtain ⟨r, hr, hsome⟩ := hnext (by omega) (by rw [hy]; decide)
  obtain ⟨r', hr', hsome'⟩ := hlast (by rw [hy]; decide) (by omega)
  obtain ⟨n, rfl⟩ := Option.isSome_iff_exists.1 (hsome.2 hfires)
  obtain ⟨l, rfl⟩ := Option.isSome_iff_exists.1 (hsome'.2 hfires)
  have hn : leapTable.next afterLeapYear = .ok (some ⟨fixed 0, 4233686400000000, false⟩) := by
    decide +kernel
  have hl : leapTable.last afterLeapYear = .ok (some ⟨fixed 0, 3981312000000000, false⟩) := by
    decide +kernel
  refine ⟨hv, rfl, hy, htable, n, l, hr, hr', ?_, ?_⟩
  · cases hr.symm.trans hn
    rfl
  · cases hr'.symm.trans hl
    rfl

end Timetable

end CronSchedule
