import CronSchedule.Proofs.Search.FixedOffset
import CronSchedule.Timetable.Occurrences

/-!
# Whether two schedules fire together

`Schedule.overlap` takes a walk along the next fire times of each schedule and asks the other one
whether it fires there, too. The second walk is taken only if the first one fails, but what comes
out depends on the two series of fire times alone, and not on which of them comes first.

* `Timetable.occurrences_succ_eq_ok_iff`: one step of a series.
* `Timetable.meets_eq`: a walk asks the other schedule about each fire time of a series.
* `Schedule.overlap_eq`: the overlap, told by the two series.
* `Timetable.exists_occurrences`: at one offset for all time there is a series, and the schedule
  matches each moment of it.
* `Schedule.overlap_fixed`: **two schedules overlap exactly if both match one of the first ten fire
  times of either**, whichever comes first.
-/

namespace CronSchedule

open LocalTime Moment Zone

namespace Timetable

variable {t u : Timetable} {k n : Nat} {m a : Moment} {l : List Moment} {offset : Int}

/-! ### Walks along a series -/

/-- A series is over, or it goes on from the next fire time. -/
theorem occurrences_succ_eq_ok_iff :
    t.occurrences (k + 1) m = .ok l ↔ (t.next m = .ok none ∧ l = []) ∨
      ∃ a l', t.next m = .ok (some a) ∧ t.occurrences k a = .ok l' ∧ l = a :: l' := by
  rw [occurrences, bind_eq_ok_iff]
  constructor
  · rintro ⟨r, hr, h⟩
    cases r with
    | none =>
      cases h
      exact .inl ⟨hr, rfl⟩
    | some a =>
      obtain ⟨l', hl', h⟩ := bind_eq_ok_iff.1 h
      cases h
      exact .inr ⟨a, l', hr, hl', rfl⟩
  · rintro (⟨hr, rfl⟩ | ⟨a, l', hr, hl', rfl⟩)
    · exact ⟨none, hr, rfl⟩
    · exact ⟨some a, hr, bind_eq_ok_iff.2 ⟨l', hl', rfl⟩⟩

/-- A series has a fire time exactly if there is a next one. -/
theorem not_isEmpty_occurrences_iff (h : t.occurrences (k + 1) m = .ok l) :
    (!l.isEmpty) = true ↔ ∃ n, t.next m = .ok (some n) := by
  rcases occurrences_succ_eq_ok_iff.1 h with ⟨hr, rfl⟩ | ⟨a, l', hr, -, rfl⟩
  · refine iff_of_false Bool.false_ne_true ?_
    rintro ⟨n, hn⟩
    rw [hr] at hn
    cases hn
  · exact iff_of_true rfl ⟨a, hr⟩

/-- A shorter series is the start of a longer one. -/
theorem occurrences_of_le (h : t.occurrences n m = .ok l) (hk : k ≤ n) :
    t.occurrences k m = .ok (l.take k) := by
  induction n generalizing k m l with
  | zero =>
    obtain rfl := Nat.le_zero.1 hk
    rfl
  | succ n ih =>
    cases k with
    | zero => rfl
    | succ k =>
      rcases occurrences_succ_eq_ok_iff.1 h with ⟨hr, rfl⟩ | ⟨a, l', hr, hl', rfl⟩
      · exact occurrences_succ_eq_ok_iff.2 (.inl ⟨hr, rfl⟩)
      · have hrest := ih hl' (Nat.le_of_succ_le_succ hk)
        exact occurrences_succ_eq_ok_iff.2 (.inr ⟨a, l'.take k, hr, hrest, rfl⟩)

/-- Whether a schedule fires at one of several moments. -/
def matchesAny (u : Timetable) (l : List Moment) : Bool := l.any fun n => isYes (u.isMatch n)

theorem matchesAny_iff : u.matchesAny l = true ↔ ∃ n ∈ l, u.isMatch n = .ok true := by
  simp only [matchesAny, List.any_eq_true, isYes_iff]

/-- Of moments that one schedule matches, it is the other's answer that counts. -/
theorem matchesAny_or_iff {l' : List Moment} (hl : ∀ n ∈ l, t.isMatch n = .ok true)
    (hl' : ∀ n ∈ l', u.isMatch n = .ok true) :
    (u.matchesAny l || t.matchesAny l') = true ↔
      ∃ n, (n ∈ l ∨ n ∈ l') ∧ t.isMatch n = .ok true ∧ u.isMatch n = .ok true := by
  rw [Bool.or_eq_true, matchesAny_iff, matchesAny_iff]
  constructor
  · rintro (⟨n, hn, hmatch⟩ | ⟨n, hn, hmatch⟩)
    · exact ⟨n, .inl hn, hl n hn, hmatch⟩
    · exact ⟨n, .inr hn, hmatch, hl' n hn⟩
  · rintro ⟨n, hn | hn, hmatch, hmatch'⟩
    · exact .inl ⟨n, hn, hmatch'⟩
    · exact .inr ⟨n, hn, hmatch⟩

/-- **A walk asks the other schedule about each fire time of the series.** -/
theorem meets_eq (h : t.occurrences k a = .ok l)
    (hu : ∀ n ∈ (a :: l).take k, ∃ b, u.isMatch n = .ok b) :
    t.meets u k a = .ok (u.matchesAny ((a :: l).take k)) := by
  induction k generalizing a l with
  | zero => rfl
  | succ k ih =>
    rw [List.take_succ_cons] at hu ⊢
    obtain ⟨hhere, hrest⟩ := List.forall_mem_cons.1 hu
    have hmatch := eq_ok_isYes hhere
    rw [meets, matchesAny, List.any_cons, hmatch]
    cases hb : isYes (u.isMatch a) with
    | true => rfl
    | false =>
      rcases occurrences_succ_eq_ok_iff.1 h with ⟨hr, rfl⟩ | ⟨c, l', hr, hl', rfl⟩
      · rw [hr, List.take_nil]
        rfl
      · rw [hr]
        exact ih hl' hrest

end Timetable

namespace Schedule

open Timetable

variable {a b : Schedule} {t u : Timetable} {now : Moment} {la lb : List Moment}

/-- **What the two series say of an overlap.** Both have to go on, and one of the two walks has to
meet the other schedule. -/
theorem overlap_eq (ha : Timetable.of? a defaultYears = .ok t)
    (hb : Timetable.of? b defaultYears = .ok u)
    (hla : t.occurrences (overlapCount + 1) now = .ok la)
    (hlb : u.occurrences (overlapCount + 1) now = .ok lb)
    (hua : ∀ n ∈ la.take overlapCount, ∃ v, u.isMatch n = .ok v)
    (htb : ∀ n ∈ lb.take overlapCount, ∃ v, t.isMatch n = .ok v) :
    a.overlap b (some now.stamp) = .ok (!la.isEmpty && !lb.isEmpty &&
      (u.matchesAny (la.take overlapCount) || t.matchesAny (lb.take overlapCount))) := by
  have hnow : Stamp.moment (some now.stamp) = .ok now := rfl
  rw [overlap, ha, hb]
  simp only [bind, Except.bind, hnow]
  rcases occurrences_succ_eq_ok_iff.1 hla with ⟨hr, rfl⟩ | ⟨c, l, hr, hl, rfl⟩
  · rcases occurrences_succ_eq_ok_iff.1 hlb with ⟨hr', rfl⟩ | ⟨c', l', hr', -, rfl⟩
    · rw [hr, hr']
      rfl
    · rw [hr, hr']
      rfl
  · rcases occurrences_succ_eq_ok_iff.1 hlb with ⟨hr', rfl⟩ | ⟨c', l', hr', hl', rfl⟩
    · rw [hr, hr']
      rfl
    · have hmeets := meets_eq hl hua
      have hmeets' := meets_eq hl' htb
      rw [hr, hr']
      simp only [hmeets, hmeets']
      cases u.matchesAny ((c :: l).take overlapCount) with
      | true => rfl
      | false => rfl

/-- A schedule that matches its fire times overlaps itself if it has a next one. -/
theorem overlap_self (ha : Timetable.of? a defaultYears = .ok t)
    (hla : t.occurrences (overlapCount + 1) now = .ok la)
    (hall : ∀ n ∈ la, t.isMatch n = .ok true) (hnext : ∃ n, t.next now = .ok (some n)) :
    a.overlap a (some now.stamp) = .ok true := by
  have hanswer : ∀ n ∈ la.take overlapCount, ∃ v, t.isMatch n = .ok v :=
    fun n hn => ⟨true, hall n (List.mem_of_mem_take hn)⟩
  rw [overlap_eq ha ha hla hla hanswer hanswer, (not_isEmpty_occurrences_iff hla).2 hnext]
  rcases occurrences_succ_eq_ok_iff.1 hla with ⟨hr, rfl⟩ | ⟨c, l, hr, -, rfl⟩
  · obtain ⟨n, hn⟩ := hnext
    rw [hr] at hn
    cases hn
  · -- the first fire time is one of its own
    have hmeet : t.matchesAny ((c :: l).take overlapCount) = true :=
      matchesAny_iff.2 ⟨c, List.mem_cons_self, hall c List.mem_cons_self⟩
    rw [hmeet]
    rfl

end Schedule

namespace Timetable

variable {t u : Timetable} {k : Nat} {m n : Moment} {offset : Int}

/-! ### Series at one offset -/

/-- The first searches of a series from a moment, `k` of them, look at no year but those from 2 to
9998. -/
def SearchesWithin (t : Timetable) : Nat → Moment → Prop
  | 0, _ => True
  | k + 1, m => t.WithinYears .forward m ∧ ∀ a, t.next m = .ok (some a) → t.SearchesWithin k a

/-- A whole second at one offset for all time, from which a search does not come near the start of
the calendar. -/
structure Settled (offset : Int) (m : Moment) : Prop where
  zone : m.zone = fixed offset
  whole : micros m.time = 0
  years : 102 ≤ (date m.time).year ∧ (date m.time).year ≤ 9998

/-- At such a moment a match asks for nothing but the local time. -/
theorem Settled.isMatch (h : Settled offset m) (ho : WithinDay offset) (t : Timetable) :
    t.isMatch m = t.fires m.time := by
  have hi : Inner (LocalTime.seconds m.time) := inner_of_year (by have := h.years; omega) h.years.2
  rw [isMatch_fixed h.zone ho hi, if_neg (not_not_intro h.whole)]

theorem Settled.exists_isMatch (h : Settled offset m) (ho : WithinDay offset) (ht : t.Sound) :
    ∃ b, t.isMatch m = .ok b := by
  rw [h.isMatch ho t]
  exact ⟨_, fires_eq ht m.time⟩

/-- The next fire time after such a moment is such a moment, and the schedule matches it. -/
theorem Settled.next (h : Settled offset m) (ho : WithinDay offset) (ht : t.Sound)
    (hmax : t.maxYears = 100) (hy : t.WithinYears .forward m) :
    t.next m = .ok none ∨
      ∃ a, t.next m = .ok (some a) ∧ Settled offset a ∧ t.isMatch a = .ok true ∧
        (date a.time).year ≤ (date m.time).year + 100 := by
  obtain ⟨-, -, hlast⟩ := hy
  simp only [Direction.greatestYear, hmax] at hlast
  have hfirst := h.years.1
  have hi : Inner (LocalTime.seconds m.time) := inner_of_year (by omega) h.years.2
  have hw : m.Whole (LocalTime.seconds m.time)
      (m.zone.instantOf (LocalTime.seconds m.time) m.secondPass) :=
    ⟨(seconds_mul_of_micros h.whole).symm, rfl⟩
  have hsharp := hw.sharp (hw.natAbs_lt (h.zone ▸ spaced_fixed ho) hi)
  obtain ⟨r, hr, hnearest, -⟩ := search_fixed .forward ht h.zone ho (by omega) (by omega)
    (by omega) hsharp
  cases r with
  | none => exact .inl hr
  | some w =>
    right
    obtain ⟨hwhole, hfires, hafter, hyear⟩ := ((hnearest w).1 rfl).1
    simp only [Direction.precedes, decide_eq_true_eq] at hafter
    simp only [Direction.key, hmax] at hyear
    have hlater := year_mono (Int.le_of_lt hafter)
    have hsettled : Settled offset ⟨m.zone, w, false⟩ := ⟨h.zone, hwhole, by simp only; omega⟩
    exact ⟨_, hr, hsettled, (hsettled.isMatch ho t).trans hfires, hyear⟩

/-- **There is a series as long as its searches stay inside the calendar**, and the schedule matches
each moment of it. -/
theorem exists_occurrences (h : Settled offset m) (ho : WithinDay offset) (ht : t.Sound)
    (hmax : t.maxYears = 100) (hk : t.SearchesWithin k m) :
    ∃ l, t.occurrences k m = .ok l ∧ ∀ n ∈ l, Settled offset n ∧ t.isMatch n = .ok true := by
  induction k generalizing m with
  | zero => exact ⟨[], rfl, List.forall_mem_nil _⟩
  | succ k ih =>
    obtain ⟨hy, hrest⟩ := hk
    rcases h.next ho ht hmax hy with hr | ⟨a, hr, ha, hmatch, -⟩
    · exact ⟨[], occurrences_succ_eq_ok_iff.2 (.inl ⟨hr, rfl⟩), List.forall_mem_nil _⟩
    · obtain ⟨l, hl, hall⟩ := ih ha (hrest a hr)
      exact ⟨a :: l, occurrences_succ_eq_ok_iff.2 (.inr ⟨a, l, hr, hl, rfl⟩),
        List.forall_mem_cons.2 ⟨⟨ha, hmatch⟩, hall⟩⟩

/-- The searches of a series stay inside the calendar if there are a hundred years for each. -/
theorem searchesWithin_of_year (h : Settled offset m) (ho : WithinDay offset) (ht : t.Sound)
    (hmax : t.maxYears = 100) (hy : (date m.time).year + 100 * k ≤ 9998) :
    t.SearchesWithin k m := by
  induction k generalizing m with
  | zero => trivial
  | succ k ih =>
    have hfirst := h.years.1
    have hwithin : t.WithinYears .forward m := by
      simp only [WithinYears, Direction.leastYear, Direction.greatestYear, hmax]
      omega
    refine ⟨hwithin, ?_⟩
    intro a ha
    rcases h.next ho ht hmax hwithin with hr | ⟨a', hr, hsettled, -, hyear⟩
    · rw [hr] at ha
      cases ha
    · rw [hr] at ha
      cases ha
      exact ih hsettled (by omega)

end Timetable

namespace Schedule

open Timetable

variable {a b : Schedule} {now : Moment} {offset : Int}

/-! ### Overlaps at one offset -/

/-- **Two schedules overlap exactly if both match one of the first ten fire times of either.** This
holds of any two valid schedules of the four dialects, at one offset for all time and from a whole
second on, as long as no search leaves the calendar. It does not matter which of them comes first,
and a schedule with a next fire time overlaps itself. Offsets finer than a second are outside the
model, and so is the current time, which stands in for a missing stamp elsewhere. -/
theorem overlap_fixed (hD : a.definition ∈ Dialect.all) (hD' : b.definition ∈ Dialect.all)
    (hva : a.validate = .ok ()) (hvb : b.validate = .ok ()) (hz : now.zone = fixed offset)
    (ho : WithinDay offset) (hm : micros now.time = 0) (hy : 102 ≤ (date now.time).year) :
    ∃ t u, Timetable.of? a defaultYears = .ok t ∧ Timetable.of? b defaultYears = .ok u ∧
      (t.SearchesWithin (overlapCount + 1) now → u.SearchesWithin (overlapCount + 1) now →
        ∃ la lb both, t.occurrences overlapCount now = .ok la ∧
          u.occurrences overlapCount now = .ok lb ∧
          a.overlap b (some now.stamp) = .ok both ∧ b.overlap a (some now.stamp) = .ok both ∧
          (both = true ↔ (∃ n, t.next now = .ok (some n)) ∧ (∃ n, u.next now = .ok (some n)) ∧
            ∃ n, (n ∈ la ∨ n ∈ lb) ∧ t.isMatch n = .ok true ∧ u.isMatch n = .ok true) ∧
          ((∃ n, t.next now = .ok (some n)) → a.overlap a (some now.stamp) = .ok true)) := by
  obtain ⟨t, ht, -, hmax, hsound⟩ := exists_of_validate hD hva (by decide : 1 ≤ defaultYears)
  obtain ⟨u, hu, -, hmax', hsound'⟩ := exists_of_validate hD' hvb (by decide : 1 ≤ defaultYears)
  refine ⟨t, u, ht, hu, ?_⟩
  intro hwa hwb
  have hnow : Settled offset now := ⟨hz, hm, hy, hwa.1.1.2⟩
  obtain ⟨la, hla, hall⟩ := exists_occurrences hnow ho hsound hmax hwa
  obtain ⟨lb, hlb, hall'⟩ := exists_occurrences hnow ho hsound' hmax' hwb
  have hfound : ∀ n ∈ la.take overlapCount, Settled offset n ∧ t.isMatch n = .ok true :=
    fun n hn => hall n (List.mem_of_mem_take hn)
  have hfound' : ∀ n ∈ lb.take overlapCount, Settled offset n ∧ u.isMatch n = .ok true :=
    fun n hn => hall' n (List.mem_of_mem_take hn)
  -- wherever one of the schedules fires the other one has an answer
  have hanswer := fun n hn => (hfound n hn).1.exists_isMatch ho hsound'
  have hanswer' := fun n hn => (hfound' n hn).1.exists_isMatch ho hsound
  have hab := overlap_eq ht hu hla hlb hanswer hanswer'
  have hba := overlap_eq hu ht hlb hla hanswer' hanswer
  rw [Bool.and_comm (!lb.isEmpty), Bool.or_comm] at hba
  refine ⟨la.take overlapCount, lb.take overlapCount, _, occurrences_of_le hla (Nat.le_succ _),
    occurrences_of_le hlb (Nat.le_succ _), hab, hba, ?_, ?_⟩
  · rw [Bool.and_eq_true, Bool.and_eq_true, not_isEmpty_occurrences_iff hla,
      not_isEmpty_occurrences_iff hlb, and_assoc,
      matchesAny_or_iff (fun n hn => (hfound n hn).2) (fun n hn => (hfound' n hn).2)]
  · intro hnext
    exact overlap_self ht hla (fun n hn => (hall n hn).2) hnext

/-- At the start of every hour. -/
def everyHour : Schedule :=
  .ofAssignment Dialect.quartz fun
    | .second | .minute => some (.value 0)
    | .hour | .month | .dayOfWeek => some .always
    | .dayOfMonth => some .question
    | _ => none

/-- What `everyHour` fires at. -/
def hourTable : Timetable :=
  ⟨everyHour, defaultYears, [0], [0], intsBetween 0 23, intsBetween 1 12⟩

theorem of?_everyHour : Timetable.of? everyHour defaultYears = .ok hourTable := by rfl

/-- A noon an hour ahead of UTC, the hour after it and the next noon. -/
def november : Moment := ⟨fixed 3600, 1700049600000000, false⟩

def hourAfter : Moment := ⟨fixed 3600, 1700053200000000, false⟩

def noonAfterNovember : Moment := ⟨fixed 3600, 1700136000000000, false⟩

/-- The next noon is not among the next ten hours, but it is the first of the noons. -/
theorem overlap_everyHour_atNoon :
    everyHour.validate = .ok () ∧ atNoon.validate = .ok () ∧
      everyHour.overlap atNoon (some november.stamp) = .ok true ∧
      atNoon.overlap everyHour (some november.stamp) = .ok true := by
  have hv : everyHour.validate = .ok () := by rfl
  have hv' : atNoon.validate = .ok () := by rfl
  have ho : WithinDay 3600 := by decide
  have hyear : (date november.time).year = 2023 := by decide
  have hnow : Settled 3600 november := ⟨rfl, by decide, by rw [hyear]; decide⟩
  have hlast : (date november.time).year + 100 * (overlapCount + 1 : Nat) ≤ 9998 := by
    rw [hyear]
    decide
  obtain ⟨t, u, ht, hu, hoverlap⟩ := overlap_fixed (a := everyHour) (b := atNoon)
    Dialect.quartz_mem_all Dialect.unix_mem_all hv hv' (rfl : november.zone = fixed 3600) ho
    hnow.whole hnow.years.1
  obtain ⟨hmax, hsound⟩ := sound_of_validate Dialect.quartz_mem_all hv (by decide) ht
  obtain ⟨hmax', hsound'⟩ := sound_of_validate Dialect.unix_mem_all hv' (by decide) hu
  obtain ⟨la, lb, both, -, hlb, hab, hba, hboth, -⟩ :=
    hoverlap (searchesWithin_of_year hnow ho hsound hmax hlast)
      (searchesWithin_of_year hnow ho hsound' hmax' hlast)
  obtain rfl := Except.ok.inj (of?_everyHour.symm.trans ht)
  obtain rfl := Except.ok.inj (of?_atNoon.symm.trans hu)
  have hhour : hourTable.next november = .ok (some hourAfter) := by decide +kernel
  have hnoon : noonTable.next november = .ok (some noonAfterNovember) := by decide +kernel
  have hmem : noonAfterNovember ∈ lb := by
    rcases occurrences_succ_eq_ok_iff.1 hlb with ⟨hr, -⟩ | ⟨c, l, hr, -, rfl⟩
    · rw [hnoon] at hr
      cases hr
    · rw [hnoon] at hr
      cases hr
      exact List.mem_cons_self
  have htrue : both = true := by
    apply hboth.2
    refine ⟨⟨_, hhour⟩, ⟨_, hnoon⟩, noonAfterNovember, .inr hmem, ?_, ?_⟩
    · decide +kernel
    · decide +kernel
  rw [htrue] at hab hba
  exact ⟨hv, hv', hab, hba⟩

end Schedule

end CronSchedule
