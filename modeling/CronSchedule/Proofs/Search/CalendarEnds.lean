import CronSchedule.Proofs.Search.FixedOffset

/-!
# Searches at the ends of the calendar

The years 1 to 9999 end a search, but it does its arithmetic in two times, the local one and that of
UTC, and it looks six hours back before it goes ahead. So close to the ends a question can fail with
a time outside the calendar, though it is asked about a time inside. At one offset for all time it
is told here exactly when.

* `Moment.LooksBack`: the instant six hours before can be shown; `Moment.looksBack_iff`.
* `Timetable.Overshoots`: the way of a search leads out of the calendar before it leads to a fire
  time.
* `Timetable.outcome_walk`: a walk fails exactly if it overshoots.
* `Timetable.failsIff_queries`: **when the two searches and the match fail.**
* `Timetable.not_overshoots`: a search that stays inside the years 2 to 9998 does not overshoot.
-/

namespace CronSchedule

open LocalTime Moment Zone

variable {offset w : Int} {m : Moment} {dir : Direction}

theorem LocalTime.inRange_iff_year {t : Int} :
    InRange t ↔ 1 ≤ (date t).year ∧ (date t).year ≤ 9999 := by
  have hfirst := year_lt_iff (t := t) (y := 1)
  have hlast := year_lt_iff (t := t) (y := 10000)
  rw [show startOfYear 1 = -62135596800000000 by decide] at hfirst
  rw [show startOfYear 10000 = 253402300800000000 by decide] at hlast
  unfold InRange
  rw [first_eq, last_eq]
  omega

theorem LocalTime.inRange_seconds {t : Int} (h : InRange t) :
    InRange (LocalTime.seconds t * 1000000) := by
  unfold InRange LocalTime.seconds at *
  rw [first_eq, last_eq] at *
  omega

theorem Moment.instant_fixed (hz : m.zone = fixed offset) :
    m.instant = m.time - offset * 1000000 := by
  rw [Moment.instant, offset_fixed hz]

theorem Zone.clockAt_fixed (offset w : Int) : (fixed offset).clockAt (w - offset) = w := by
  rw [clockAt, offsetAt_fixed, Int.sub_add_cancel]

/-- A question fails with a time outside the calendar under a condition, and has an answer
otherwise. -/
structure FailsIff {α : Type} (answer : Except TimeError α) (P : Prop) : Prop where
  fails : P → answer = .error .dateRange
  answers : ¬ P → ∃ a, answer = .ok a

theorem FailsIff.congr {α : Type} {answer : Except TimeError α} {P Q : Prop}
    (h : FailsIff answer P) (hiff : P ↔ Q) : FailsIff answer Q := by
  constructor
  · exact fun hq => h.fails (hiff.2 hq)
  · exact fun hq => h.answers fun hp => hq (hiff.1 hp)

/-! ### Six hours back -/

namespace Moment

/-- Whether the instant six hours before a moment, worked out in POSIX seconds, can be shown. -/
def LooksBack (m : Moment) : Prop :=
  let earlier := Posix.toMicros (Posix.subSeconds m.posix probeSeconds)
  InRange earlier ∧ InRange (earlier + m.zone.offsetAt (LocalTime.seconds earlier) * 1000000)

instance (m : Moment) : Decidable m.LooksBack := inferInstanceAs (Decidable (_ ∧ _))

/-- At one offset there is no jump to be found, but the way back may fail. -/
theorem forwardJump_eq (hz : m.zone = fixed offset) :
    m.forwardJump = if m.LooksBack then .ok 0 else .error .dateRange := by
  obtain ⟨earlier, he⟩ : ∃ x, x = Posix.toMicros (Posix.subSeconds m.posix probeSeconds) := ⟨_, rfl⟩
  simp only [forwardJump, ofPosix, ofInstant, LooksBack, ← he]
  by_cases hutc : InRange earlier
  · rw [Moment.inRange_eq_ok hutc]
    simp only [hutc, true_and, bind, Except.bind, Moment.inRange]
    by_cases hlocal : InRange (earlier + m.zone.offsetAt (LocalTime.seconds earlier) * 1000000)
    · rw [if_pos hlocal, if_pos hlocal]
      have hsame := offset_fixed (m := Moment.mk m.zone
        (earlier + m.zone.offsetAt (LocalTime.seconds earlier) * 1000000)
        (m.zone.inSecondPass (LocalTime.seconds earlier))) hz
      simp only [pure, Except.pure, hsame, offset_fixed hz, Int.sub_self, Int.max_self]
    · rw [if_neg hlocal, if_neg hlocal]
  · simp only [Moment.inRange, hutc, if_false, false_and, bind, Except.bind]

/-- At a whole second the way back can be shown from six hours after the start of the calendar on,
in the local time and in UTC. -/
theorem looksBack_iff (hz : m.zone = fixed offset) (hm : micros m.time = 0)
    (hlocal : InRange m.time) (hutc : InRange m.instant) :
    m.LooksBack ↔ first + 21600000000 ≤ m.time ∧ first + 21600000000 ≤ m.instant := by
  have hinstant := instant_fixed hz
  unfold InRange at hlocal hutc
  unfold micros at hm
  rw [first_eq, last_eq] at *
  obtain ⟨u, hu⟩ : ∃ u, m.instant = u * 1000000 := ⟨m.instant / 1000000, by omega⟩
  have hearlier : Posix.toMicros (Posix.subSeconds m.posix probeSeconds) =
      (u - 21600) * 1000000 := by
    rw [Moment.posix, hu, Posix.ofMicros_whole (by omega), probeSeconds,
      Posix.subSeconds_whole (by omega), Posix.toMicros_whole]
    rfl
  simp only [LooksBack, hearlier, hz, offsetAt_fixed, InRange, first_eq, last_eq]
  omega

end Moment

/-! ### The walk -/

/-- A local time stands for one moment at one offset, if this can be shown. -/
theorem instantsOf_fixed (ho : WithinDay offset) (h : InRange (w * 1000000)) :
    instantsOf (fixed offset) (w * 1000000) =
      if (fixed offset).Shown (w - offset) then .ok [(fixed offset).momentAt (w - offset)]
      else .error .dateRange := by
  have hread : ∀ second, (Moment.mk (fixed offset) (w * 1000000) second).normalize =
      if (fixed offset).Shown (w - offset) then .ok ((fixed offset).momentAt (w - offset))
      else .error .dateRange := by
    intro second
    rw [(spaced_fixed ho).normalize_reading h, instantOf, localOffset_fixed]
  by_cases hs : (fixed offset).Shown (w - offset)
  · simp only [instantsOf, hread, hs, if_true, bind, Except.bind, pure, Except.pure,
      time_momentAt, clockAt_fixed, ne_eq, not_true_eq_false, if_false]
  · simp only [instantsOf, hread, hs, if_false, bind, Except.bind]

namespace Timetable

open Direction

variable {t : Timetable} {ref : Int} {ws : List Int}

/-- One step of a search at one offset: it fails, it takes the moment, or it goes on. -/
theorem consider_fixed (ho : WithinDay offset) (h : InRange (w * 1000000)) :
    consider dir (fixed offset) ref none (w * 1000000) =
      if (fixed offset).Shown (w - offset) then
        if dir.eligible ((fixed offset).momentAt (w - offset)).posix ref then
          .error (.done ((fixed offset).momentAt (w - offset)))
        else .ok none
      else .error (.failed .dateRange) := by
  have harrange : ∀ n, dir.arrange [n] = [n] := by
    intro n
    cases dir with
    | forward | backward => rfl
  rw [consider, instantsOf_fixed ho h]
  by_cases hs : (fixed offset).Shown (w - offset)
  · simp only [if_pos hs, orFail_ok, bind, Except.bind, pure, Except.pure, harrange, markFirst,
      List.map_nil]
    cases he : dir.eligible ((fixed offset).momentAt (w - offset)).posix ref with
    | true =>
      simp [he, improve, clockAt_fixed]
      rfl
    | false => simp [he]
  · simp only [if_neg hs]
    rfl

/-- Some clock times lead a search out of the calendar: one of them cannot be shown in UTC, and none
of the others is on the searched side. -/
def LeadOut (dir : Direction) (offset ref : Int) (ws : List Int) : Prop :=
  (∃ w ∈ ws, ¬ (fixed offset).Shown (w - offset)) ∧
    ∀ w ∈ ws, (fixed offset).Shown (w - offset) →
      dir.eligible ((fixed offset).momentAt (w - offset)).posix ref = false

/-- **A walk fails exactly if it leads out of the calendar**, where no clock time that can be shown
comes after one that cannot. -/
theorem outcome_walk (ho : WithinDay offset) (hlocal : ∀ w ∈ ws, InRange (w * 1000000))
    (horder : ws.Pairwise fun a b =>
      (fixed offset).Shown (b - offset) → (fixed offset).Shown (a - offset)) :
    FailsIff (outcome ((ws.map (· * 1000000)).foldlM (consider dir (fixed offset) ref) none))
      (LeadOut dir offset ref ws) := by
  induction ws with
  | nil =>
    constructor
    · rintro ⟨⟨w, hw, -⟩, -⟩
      cases hw
    · exact fun _ => ⟨none, rfl⟩
  | cons w ws ih =>
    obtain ⟨hw, hlocal⟩ := List.forall_mem_cons.1 hlocal
    obtain ⟨hbefore, horder⟩ := List.pairwise_cons.1 horder
    rw [List.map_cons, List.foldlM_cons, consider_fixed ho hw]
    by_cases hs : (fixed offset).Shown (w - offset)
    · rw [if_pos hs]
      cases he : dir.eligible ((fixed offset).momentAt (w - offset)).posix ref with
      | true =>
        constructor
        · rintro ⟨-, hnone⟩
          rw [hnone w List.mem_cons_self hs] at he
          cases he
        · exact fun _ => ⟨_, rfl⟩
      | false =>
        -- the step goes on, and what leads out lies in the rest of the way
        have hrest : LeadOut dir offset ref ws ↔ LeadOut dir offset ref (w :: ws) := by
          simp only [LeadOut, List.exists_mem_cons_iff, List.forall_mem_cons, hs, he,
            not_true_eq_false, false_or, true_implies, true_and]
        exact (ih hlocal horder).congr hrest
    · rw [if_neg hs]
      constructor
      · exact fun _ => rfl
      · intro h
        refine absurd ⟨⟨w, List.mem_cons_self, hs⟩, ?_⟩ h
        intro v hv hsv
        rcases List.mem_cons.1 hv with rfl | hv
        · exact absurd hsv hs
        · exact absurd (hbefore v hv hsv) hs

/-! ### The way of a search -/

/-- The fire times on the way of a search from a moment, in the years that it looks at. -/
def route (t : Timetable) (dir : Direction) (m : Moment) : Set Int :=
  {x | t.Walked dir m.time x ∧ dir.precedes x (wholeSecond m.time) = false}

/-- A search overshoots the calendar: some fire time on its way has no time in UTC, and of those
that have one none is on the searched side. -/
def Overshoots (t : Timetable) (dir : Direction) (m : Moment) : Prop :=
  (∃ x ∈ t.route dir m, ¬ InRange (x - m.offset * 1000000)) ∧
    ∀ x ∈ t.route dir m, InRange (x - m.offset * 1000000) →
      dir.eligible (Posix.ofMicros (x - m.offset * 1000000)) m.posix = false

theorem mem_route_iff (ht : t.Sound) :
    w * 1000000 ∈ t.route dir m ↔ w ∈ t.clocks dir (wholeSecond m.time) := by
  rw [mem_clocks ht, Walked, date_wholeSecond, wholeSecond_wholeSecond]
  rfl

theorem inRange_of_mem_route (hm : InRange m.time) {x : Int} (hx : x ∈ t.route dir m) :
    InRange x := by
  obtain ⟨⟨-, -, hleast, hgreatest⟩, -⟩ := hx
  rw [inRange_iff_year] at hm ⊢
  cases dir with
  | forward | backward =>
    simp only [leastYear, greatestYear] at hleast hgreatest
    omega

/-- On the way of a search a clock time can be shown if its time in UTC is one of the calendar. -/
theorem shown_iff (h : InRange (w * 1000000)) :
    (fixed offset).Shown (w - offset) ↔ InRange (w * 1000000 - offset * 1000000) := by
  rw [Shown, clockAt_fixed, and_iff_left h, Int.sub_mul]

theorem overshoots_iff (ht : t.Sound) (hz : m.zone = fixed offset) (ho : WithinDay offset)
    (hm : InRange m.time) :
    t.Overshoots dir m ↔ LeadOut dir offset m.posix (t.clocks dir (wholeSecond m.time)) := by
  have hposix : ∀ w, ((fixed offset).momentAt (w - offset)).posix =
      Posix.ofMicros (w * 1000000 - offset * 1000000) := by
    intro w
    rw [Moment.posix, (spaced_fixed ho).instant_momentAt, Int.sub_mul]
  have hwhole : ∀ x ∈ t.route dir m, LocalTime.seconds x * 1000000 = x :=
    fun x hx => seconds_mul_of_micros hx.1.1
  rw [Overshoots, LeadOut, offset_fixed hz]
  constructor
  · rintro ⟨⟨x, hx, hout⟩, hnone⟩
    have heq := hwhole x hx
    rw [← heq] at hx hout
    refine ⟨⟨_, (mem_route_iff ht).1 hx, ?_⟩, ?_⟩
    · rwa [shown_iff (inRange_of_mem_route hm hx)]
    · intro w hw hs
      have hmem := (mem_route_iff ht).2 hw
      rw [shown_iff (inRange_of_mem_route hm hmem)] at hs
      rw [hposix]
      exact hnone _ hmem hs
  · rintro ⟨⟨w, hw, hout⟩, hnone⟩
    have hmem := (mem_route_iff ht).2 hw
    rw [shown_iff (inRange_of_mem_route hm hmem)] at hout
    refine ⟨⟨_, hmem, hout⟩, ?_⟩
    intro x hx hin
    have heq := hwhole x hx
    rw [← heq] at hx hin ⊢
    rw [← hposix]
    exact hnone _ ((mem_route_iff ht).1 hx) ((shown_iff (inRange_of_mem_route hm hx)).2 hin)

/-- **Once a search starts at its moment, it fails exactly if it overshoots.** -/
theorem failsIff_search (ht : t.Sound) (hz : m.zone = fixed offset) (ho : WithinDay offset)
    (hm : InRange m.time) (hu : InRange m.instant)
    (hstart : searchStart dir m = .ok (wholeSecond m.time)) :
    FailsIff (t.search dir m) (t.Overshoots dir m) := by
  have hlocal : ∀ w ∈ t.clocks dir (wholeSecond m.time), InRange (w * 1000000) :=
    fun w hw => inRange_of_mem_route hm ((mem_route_iff ht).2 hw)
  -- the way starts inside the calendar, so it leaves it once and for all
  have horder : (t.clocks dir (wholeSecond m.time)).Pairwise fun a b =>
      (fixed offset).Shown (b - offset) → (fixed offset).Shown (a - offset) := by
    refine (sorted_clocks ht _).imp_of_mem ?_
    intro a b ha hb hab
    have hinstant := instant_fixed hz
    have hfirst := ((mem_route_iff ht).2 ha).2
    have hwhole := wholeSecond_eq m.time
    rw [shown_iff (hlocal a ha), shown_iff (hlocal b hb)]
    rw [precedes_eq_false_iff, hwhole] at hfirst
    rw [precedes_iff] at hab
    unfold InRange at hu ⊢
    unfold LocalTime.seconds at hfirst
    rw [first_eq, last_eq] at hu ⊢
    cases dir with
    | forward | backward =>
      simp only [key] at hfirst hab
      omega
  rw [search_of_start hstart, walk_eq_foldlM ht, times_eq_map ht, hz]
  exact (outcome_walk ho hlocal horder).congr (overshoots_iff ht hz ho hm).symm

/-! ### The three questions -/

theorem instantsOf_start (hz : m.zone = fixed offset) (ho : WithinDay offset)
    (hm : InRange m.time) (hu : InRange m.instant) :
    ∃ n, instantsOf m.zone (wholeSecond m.time) = .ok [n] := by
  have hlocal := inRange_seconds hm
  have hs : (fixed offset).Shown (LocalTime.seconds m.time - offset) := by
    have hutc := inRange_seconds hu
    have hsame : LocalTime.seconds m.instant * 1000000 =
        LocalTime.seconds m.time * 1000000 - offset * 1000000 := by
      rw [instant_fixed hz]
      unfold LocalTime.seconds
      omega
    rwa [shown_iff hlocal, ← hsame]
  rw [wholeSecond_eq, hz, instantsOf_fixed ho hlocal, if_pos hs]
  exact ⟨_, rfl⟩

/-- A search backward starts at its moment. -/
theorem searchStart_last (hz : m.zone = fixed offset) (ho : WithinDay offset)
    (hm : InRange m.time) (hu : InRange m.instant) :
    searchStart .backward m = .ok (wholeSecond m.time) := by
  obtain ⟨n, hn⟩ := instantsOf_start hz ho hm hu
  rw [searchStart, hn]
  rfl

/-- A search forward starts at its moment if it can look six hours back. -/
theorem searchStart_next (hz : m.zone = fixed offset) (ho : WithinDay offset)
    (hm : InRange m.time) (hu : InRange m.instant) :
    searchStart .forward m =
      if m.LooksBack then .ok (wholeSecond m.time) else .error .dateRange := by
  have hr : InRange (wholeSecond m.time) := by
    rw [wholeSecond_eq]
    exact inRange_seconds hm
  obtain ⟨n, hn⟩ := instantsOf_start hz ho hm hu
  simp only [searchStart, hn, bind, Except.bind, Moment.forwardJump_eq hz]
  by_cases hback : m.LooksBack
  · simp only [if_pos hback, Int.zero_mul, Int.sub_zero, inRange_eq_ok hr]
  · simp only [if_neg hback]

theorem failsIff_next (ht : t.Sound) (hz : m.zone = fixed offset) (ho : WithinDay offset)
    (hm : InRange m.time) (hu : InRange m.instant) :
    FailsIff (t.next m) (¬ m.LooksBack ∨ t.Overshoots .forward m) := by
  have hstart := searchStart_next hz ho hm hu
  by_cases hback : m.LooksBack
  · rw [if_pos hback] at hstart
    have hsearch := failsIff_search ht hz ho hm hu hstart
    constructor
    · rintro (h | h)
      · exact absurd hback h
      · exact hsearch.fails h
    · exact fun h => hsearch.answers fun h' => h (.inr h')
  · rw [if_neg hback] at hstart
    constructor
    · intro _
      rw [next, search, hstart]
      rfl
    · exact fun h => absurd (.inl hback) h

theorem failsIff_last (ht : t.Sound) (hz : m.zone = fixed offset) (ho : WithinDay offset)
    (hm : InRange m.time) (hu : InRange m.instant) :
    FailsIff (t.last m) (t.Overshoots .backward m) :=
  failsIff_search ht hz ho hm hu (searchStart_last hz ho hm hu)

theorem failsIff_isMatch (ht : t.Sound) (hz : m.zone = fixed offset) :
    FailsIff (t.isMatch m)
      (micros m.time = 0 ∧ t.fires m.time = .ok false ∧ ¬ m.LooksBack) := by
  obtain ⟨b, hfires⟩ : ∃ b, t.fires m.time = .ok b := ⟨_, fires_eq ht m.time⟩
  rw [isMatch, skipped?, Moment.forwardJump_eq hz, hfires]
  by_cases hwhole : micros m.time ≠ 0
  · rw [if_pos hwhole]
    constructor
    · exact fun h => absurd h.1 hwhole
    · exact fun _ => ⟨false, rfl⟩
  · rw [if_neg hwhole]
    cases b with
    | true =>
      constructor
      · rintro ⟨-, h, -⟩
        cases h
      · exact fun _ => ⟨true, rfl⟩
    | false =>
      by_cases hback : m.LooksBack
      · rw [if_pos hback]
        constructor
        · exact fun h => absurd hback h.2.2
        · exact fun _ => ⟨false, rfl⟩
      · rw [if_neg hback]
        constructor
        · exact fun _ => rfl
        · exact fun h => absurd ⟨not_not.1 hwhole, rfl, hback⟩ h

/-- **A search that stays inside the years 2 to 9998 does not overshoot.** -/
theorem not_overshoots (hz : m.zone = fixed offset) (ho : WithinDay offset)
    (hy : t.WithinYears dir m) : ¬ t.Overshoots dir m := by
  rintro ⟨⟨x, ⟨⟨-, -, hleast, hgreatest⟩, -⟩, hout⟩, -⟩
  obtain ⟨-, hfirst, hlast⟩ := hy
  have h1 := le_of_two_le_year (t := x) (by omega)
  have h2 := lt_of_year_le (t := x) (by omega)
  apply hout
  unfold WithinDay at ho
  unfold InRange
  rw [offset_fixed hz, first_eq, last_eq]
  omega

/-- **The match fails exactly at a whole second that does not fire and is too close to the start of
the calendar to look back from, the search forward there and where it overshoots, and the search
backward where it overshoots. Otherwise each has an answer.** -/
theorem failsIff_queries {s : Schedule} (hD : s.definition ∈ Dialect.all)
    (hv : s.validate = .ok ()) {maxYears : Int} (hn : 1 ≤ maxYears) (hz : m.zone = fixed offset)
    (ho : WithinDay offset) (hm : InRange m.time) (hu : InRange m.instant) :
    ∃ t, of? s maxYears = .ok t ∧ t.maxYears = maxYears ∧
      FailsIff (t.isMatch m)
        (micros m.time = 0 ∧ t.fires m.time = .ok false ∧ ¬ m.LooksBack) ∧
      FailsIff (t.next m) (¬ m.LooksBack ∨ t.Overshoots .forward m) ∧
      FailsIff (t.last m) (t.Overshoots .backward m) := by
  obtain ⟨t, ht, -, hmax, hsound⟩ := exists_of_validate hD hv hn
  exact ⟨t, ht, hmax, failsIff_isMatch hsound hz, failsIff_next hsound hz ho hm hu,
    failsIff_last hsound hz ho hm hu⟩

theorem failsIff_queries_pastNoon :
    atNoon.validate = .ok () ∧ InRange pastNoon.time ∧ InRange pastNoon.instant ∧
      ∃ t, of? atNoon defaultYears = .ok t ∧ (∃ b, t.isMatch pastNoon = .ok b) ∧
        (∃ r, t.next pastNoon = .ok r) ∧ ∃ r, t.last pastNoon = .ok r := by
  have hv : atNoon.validate = .ok () := by rfl
  have ho : WithinDay 3600 := by decide
  have hyear : (date pastNoon.time).year = 2023 := by decide
  have hback : pastNoon.LooksBack := by decide +kernel
  have hm : InRange pastNoon.time := by decide
  have hu : InRange pastNoon.instant := by decide
  obtain ⟨t, ht, hmax, hmatch, hnext, hlast⟩ := failsIff_queries (s := atNoon) (m := pastNoon)
    Dialect.unix_mem_all hv (by decide : 1 ≤ defaultYears) rfl ho hm hu
  have hyears : ∀ dir, t.WithinYears dir pastNoon := by
    intro dir
    rw [WithinYears, hmax, hyear]
    cases dir with
    | forward | backward => decide
  refine ⟨hv, hm, hu, t, ht, hmatch.answers ?_, hnext.answers ?_, hlast.answers ?_⟩
  · exact fun h => h.2.2 hback
  · exact fun h => h.elim (absurd hback) (not_overshoots rfl ho (hyears .forward))
  · exact not_overshoots rfl ho (hyears .backward)

/-- The first moment of the calendar, in UTC. -/
def firstMidnight : Moment := ⟨fixed 0, first, false⟩

/-- Every day at eleven in the evening. -/
def atEleven : Schedule :=
  .ofAssignment Dialect.unix fun
    | .minute => some (.value 0)
    | .hour => some (.value 23)
    | .dayOfMonth | .month | .dayOfWeek => some .always
    | _ => none

/-- What `atEleven` fires at. -/
def elevenTable : Timetable := ⟨atEleven, defaultYears, [0], [0], [23], intsBetween 1 12⟩

/-- Noon of the last day of the calendar, five hours behind UTC. -/
def lastNoon : Moment := ⟨fixed (-18000), 253402257600000000, false⟩

/-- **At the first midnight a search for the next noon and a match fail, and on the last day, where
it is five hours later in UTC, so does a search for the next eleven in the evening.** -/
theorem next_isMatch_firstMidnight :
    (atNoon.definition ∈ Dialect.all ∧ atNoon.validate = .ok () ∧
      of? atNoon defaultYears = .ok noonTable ∧ InRange firstMidnight.time ∧
        InRange firstMidnight.instant ∧ noonTable.next firstMidnight = .error .dateRange ∧
          noonTable.isMatch firstMidnight = .error .dateRange) ∧
      atEleven.definition ∈ Dialect.all ∧ atEleven.validate = .ok () ∧
        of? atEleven defaultYears = .ok elevenTable ∧ InRange lastNoon.time ∧
          InRange lastNoon.instant ∧ elevenTable.next lastNoon = .error .dateRange := by
  refine ⟨⟨Dialect.unix_mem_all, by rfl, of?_atNoon, by decide, by decide, ?_, ?_⟩,
    Dialect.unix_mem_all, by rfl, by rfl, by decide, by decide, ?_⟩
  · decide +kernel
  · decide +kernel
  · decide +kernel

end Timetable

end CronSchedule
