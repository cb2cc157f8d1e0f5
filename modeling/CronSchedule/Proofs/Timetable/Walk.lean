import CronSchedule.Proofs.Calendar
import CronSchedule.Proofs.Timetable.Sound
import CronSchedule.Timetable.Walk
import Mathlib.Tactic.ByContra
import Mathlib.Tactic.Tauto

/-!
# The walk goes through the fire times

* `Timetable.walk_eq_foldlM`: in a sound timetable the walk is a fold over a list of local
  times, `Timetable.times`; no level of it fails.
* `Timetable.enumerates_times`: **the list holds the fire times of the years searched that
  do not come before the start, each once and in the order of the way.** Each level of the
  calendar is one use of `Enumerates.level`.
* `Timetable.walk_yields_fires`: the two together, for a validated schedule.
-/

namespace CronSchedule

/-! ### Folds -/

theorem foldlM_congr_mem {m : Type → Type} [Monad m] {α β : Type} {f g : β → α → m β} :
    ∀ {l : List α} {b : β}, (∀ b, ∀ a ∈ l, f b a = g b a) → l.foldlM f b = l.foldlM g b
  | [], _, _ => rfl
  | a :: l, b, h => by
    rw [List.foldlM_cons, List.foldlM_cons, h b a List.mem_cons_self]
    congr 1
    funext b'
    exact foldlM_congr_mem fun b x hx => h b x (List.mem_cons_of_mem a hx)

theorem foldlM_flatMap {m : Type → Type} [Monad m] [LawfulMonad m] {α β γ : Type} {f : γ → β → m γ}
    {g : α → List β} {l : List α} {c : γ} :
    (l.flatMap g).foldlM f c = l.foldlM (fun c a => (g a).foldlM f c) c := by
  induction l generalizing c with
  | nil => simp
  | cons a l ih => simp [List.flatMap_cons, List.foldlM_append, ih]

/-! ### Values in the order of the way -/

namespace Direction

variable {dir : Direction} {l : List Int}

theorem mem_select {bound : Option Int} {v : Int} :
    v ∈ dir.select l bound ↔ v ∈ l ∧ ∀ b ∈ bound, dir.precedes v b = false := by
  cases dir <;> cases bound <;> simp [select]

theorem pairwise_select (dir : Direction) (h : l.Pairwise (· < ·)) (bound : Option Int) :
    (dir.select l bound).Pairwise fun a b => dir.precedes a b = true := by
  cases dir with
  | forward =>
    have hl : ∀ {k : List Int}, k.Pairwise (· < ·) →
        k.Pairwise fun a b => forward.precedes a b = true := fun hk =>
      hk.imp fun hab => by simpa [precedes] using hab
    cases bound with
    | none => exact hl h
    | some b => exact hl (h.filter _)
  | backward =>
    have hl : ∀ {k : List Int}, k.Pairwise (· < ·) →
        k.reverse.Pairwise fun a b => backward.precedes a b = true := fun hk =>
      List.pairwise_reverse.2 (hk.imp fun hab => by simpa [precedes] using hab)
    cases bound with
    | none => exact hl h
    | some b => exact hl (h.filter _)

/-- The least year that a walk visits. -/
def leastYear (dir : Direction) (year count : Int) : Int :=
  match dir with
  | forward => year
  | backward => max (year - count) 1

/-- The greatest year that a walk visits. -/
def greatestYear (dir : Direction) (year count : Int) : Int :=
  match dir with
  | forward => min (year + count) 9999
  | backward => year

theorem years_eq_select (year count : Int) :
    dir.years year count =
      dir.select (intsBetween (dir.leastYear year count) (dir.greatestYear year count))
        (some year) := by
  cases dir with
  | forward =>
    rw [years, select, List.filter_eq_self.2]
    · rfl
    · intro v hv
      rw [leastYear, mem_intsBetween] at hv
      simpa [precedes] using hv.1
  | backward =>
    rw [years, select, List.filter_eq_self.2]
    · rfl
    · intro v hv
      rw [greatestYear, mem_intsBetween] at hv
      simpa [precedes] using hv.2

end Direction

/-! ### Lists that go through the times of a set -/

/-- The local time of a reading. -/
def Reading.time (r : Reading) : Int := LocalTime.ofParts r.date r.hour r.minute r.second

@[simp] theorem Reading.time_ofLocal (x : Int) :
    (Reading.ofLocal x).time = LocalTime.wholeSecond x :=
  LocalTime.ofParts_read x

theorem Reading.ofLocal_wholeSecond (x : Int) :
    Reading.ofLocal (LocalTime.wholeSecond x) = Reading.ofLocal x := by
  have h1 : LocalTime.wholeSecond x / 86400000000 = x / 86400000000 := by
    unfold LocalTime.wholeSecond LocalTime.micros; omega
  have h2 : LocalTime.wholeSecond x / 1000000 = x / 1000000 := by
    unfold LocalTime.wholeSecond LocalTime.micros; omega
  simp only [ofLocal, LocalTime.date, LocalTime.hour, LocalTime.minute, LocalTime.second, mk.injEq]
  rw [h1, h2]
  exact ⟨rfl, by omega, by omega, rfl⟩

/-- A list that goes through the times of a set, those left out that come before a start. -/
structure Enumerates (dir : Direction) (start : Option Int) (S : Int → Prop) (l : List Int) :
    Prop where
  sorted : l.Pairwise fun a b => dir.precedes a b = true
  mem : ∀ x, x ∈ l ↔ S x ∧ ∀ a ∈ start, dir.precedes x a = false

theorem Enumerates.congr {dir : Direction} {start : Option Int} {S S' : Int → Prop} {l : List Int}
    (h : Enumerates dir start S l) (hS : ∀ x, S x ↔ S' x) : Enumerates dir start S' l :=
  ⟨h.sorted, fun x => by rw [h.mem, hS]⟩

/-- **One level of the walk.** Times of a block are ordered by a number that they show; the
values of that number are visited in order, and those of the start go on with the start. -/
theorem Enumerates.level {dir : Direction} {vs : List Int} {pin : Option Reading}
    {key : Reading → Int} {coord : Int → Int} {Block rest : Int → Prop}
    {sub : Option Reading → Int → List Int} (hvs : vs.Pairwise (· < ·))
    (hlt : ∀ a b, Block a → Block b → coord a < coord b → a < b)
    (hpin : ∀ r ∈ pin, Block r.time ∧ coord r.time = key r)
    (hsub : ∀ v ∈ vs, ∀ p : Option Reading, (∀ r ∈ p, r ∈ pin ∧ key r = v) →
      Enumerates dir (p.map (·.time)) (fun x => (Block x ∧ coord x = v) ∧ rest x) (sub p v)) :
    Enumerates dir (pin.map (·.time)) (fun x => Block x ∧ coord x ∈ vs ∧ rest x)
      ((dir.select vs (pin.map key)).flatMap fun v => sub (pin.filter (key · == v)) v) := by
  have hfilter : ∀ v, ∀ r ∈ pin.filter (key · == v), r ∈ pin ∧ key r = v := by
    intro v r hr
    obtain ⟨h1, h2⟩ := Option.filter_eq_some_iff.1 hr
    exact ⟨h1, by simpa using h2⟩
  have hsub' : ∀ v ∈ vs, Enumerates dir ((pin.filter (key · == v)).map (·.time))
      (fun x => (Block x ∧ coord x = v) ∧ rest x) (sub (pin.filter (key · == v)) v) :=
    fun v hv => hsub v hv _ (hfilter v)
  have hprec : ∀ {a b : Int}, Block a → Block b → dir.precedes (coord a) (coord b) = true →
      dir.precedes a b = true := by
    intro a b ha hb h
    cases dir <;> simp only [Direction.precedes, decide_eq_true_eq] at h ⊢
    · exact hlt a b ha hb h
    · exact hlt b a hb ha h
  constructor
  · refine List.pairwise_flatMap.2 ⟨fun v hv => (hsub' v (Direction.mem_select.1 hv).1).sorted, ?_⟩
    have hs := Direction.pairwise_select dir hvs (pin.map key)
    refine (List.Pairwise.and_mem.1 hs).imp ?_
    rintro v w ⟨hv, hw, hvw⟩ x hx y hy
    obtain ⟨⟨⟨hbx, rfl⟩, -⟩, -⟩ := ((hsub' v (Direction.mem_select.1 hv).1).mem x).1 hx
    obtain ⟨⟨⟨hby, rfl⟩, -⟩, -⟩ := ((hsub' w (Direction.mem_select.1 hw).1).mem y).1 hy
    exact hprec hbx hby hvw
  · intro x
    rw [List.mem_flatMap]
    constructor
    · rintro ⟨v, hv, hx⟩
      obtain ⟨hv, hb⟩ := Direction.mem_select.1 hv
      obtain ⟨⟨⟨hbx, rfl⟩, hr⟩, hp⟩ := ((hsub' v hv).mem x).1 hx
      refine ⟨⟨hbx, hv, hr⟩, ?_⟩
      cases pin with
      | none => simp
      | some r =>
        obtain ⟨hbr, hcr⟩ := hpin r rfl
        simp only [Option.map_some, Option.mem_some_iff, forall_eq'] at hb ⊢
        by_cases he : key r = coord x
        · simpa [Option.filter, he] using hp
        · -- the number shown lies strictly on the far side of that of the start
          cases dir <;> simp only [Direction.precedes, decide_eq_false_iff_not] at hb ⊢
          · have := hlt r.time x hbr hbx (by omega); omega
          · have := hlt x r.time hbx hbr (by omega); omega
    · rintro ⟨⟨hbx, hv, hr⟩, hp⟩
      refine ⟨coord x, Direction.mem_select.2 ⟨hv, ?_⟩,
        ((hsub' _ hv).mem x).2 ⟨⟨⟨hbx, rfl⟩, hr⟩, ?_⟩⟩
      · cases pin with
        | none => simp
        | some r =>
          obtain ⟨hbr, hcr⟩ := hpin r rfl
          simp only [Option.map_some, Option.mem_some_iff, forall_eq'] at hp ⊢
          by_contra hc
          rw [Bool.not_eq_false, ← hcr] at hc
          rw [hprec hbx hbr hc] at hp
          exact absurd hp (by decide)
      · intro a ha
        obtain ⟨r, hr', rfl⟩ := Option.map_eq_some_iff.1 ha
        exact hp _ (Option.mem_map_of_mem _ (hfilter _ r hr').1)

namespace Timetable

open LocalTime

variable {t : Timetable} {dir : Direction} {pin : Option Reading}

/-! ### Fire times level by level -/

/-- The fire times of a minute. -/
def secondTimes (t : Timetable) (dir : Direction) (pin : Option Reading) (date : Date)
    (hour minute : Int) : List Int :=
  (dir.select t.seconds (pin.map (·.second))).flatMap fun second =>
    [ofParts date hour minute second]

/-- The fire times of an hour. -/
def minuteTimes (t : Timetable) (dir : Direction) (pin : Option Reading) (date : Date)
    (hour : Int) : List Int :=
  (dir.select t.minutes (pin.map (·.minute))).flatMap fun minute =>
    t.secondTimes dir (pin.filter (·.minute == minute)) date hour minute

/-- The fire times of a day. -/
def hourTimes (t : Timetable) (dir : Direction) (pin : Option Reading) (date : Date) : List Int :=
  (dir.select t.hours (pin.map (·.hour))).flatMap fun hour =>
    t.minuteTimes dir (pin.filter (·.hour == hour)) date hour

/-- The days of a month that the schedule admits. -/
def admittedDays (t : Timetable) (year month : Int) : List Int :=
  (intsBetween 1 (daysInMonth year month)).filter fun day => isYes (t.admitsDay ⟨year, month, day⟩)

/-- The fire times of a month. -/
def dayTimes (t : Timetable) (dir : Direction) (pin : Option Reading) (year month : Int) :
    List Int :=
  (dir.select (t.admittedDays year month) (pin.map (·.date.day))).flatMap fun day =>
    t.hourTimes dir (pin.filter (·.date.day == day)) ⟨year, month, day⟩

/-- The fire times of a year. -/
def monthTimes (t : Timetable) (dir : Direction) (pin : Option Reading) (year : Int) : List Int :=
  (dir.select t.months (pin.map (·.date.month))).flatMap fun month =>
    t.dayTimes dir (pin.filter (·.date.month == month)) year month

/-- The fire times from a start on, in the order of the way. -/
def times (t : Timetable) (dir : Direction) (start : Int) : List Int :=
  let pin := Reading.ofLocal start
  (dir.years pin.date.year t.maxYears).flatMap fun year =>
    if isYes (t.admitsYear year) then
      t.monthTimes dir ((some pin).filter (·.date.year == year)) year
    else []

/-! ### The walk is a fold over them -/

section Fold

variable {σ ρ : Type} {visit : σ → Int → Except (Halt ρ) σ}

theorem fitsWord_of_clock {n : Int} (h : 0 ≤ n ∧ n ≤ 59) : fitsWord n = true := by
  simp only [fitsWord, Bool.and_eq_true, decide_eq_true_eq]
  omega

theorem ofClock_eq_ok (date : Date) {hour minute second : Int} (hh : 0 ≤ hour ∧ hour ≤ 23)
    (hm : 0 ≤ minute ∧ minute ≤ 59) (hs : 0 ≤ second ∧ second ≤ 59) :
    ofClock date hour minute second = .ok (ofParts date hour minute second) := by
  rw [ofClock, if_neg (by omega), if_neg (by omega), if_neg (by omega)]

theorem toLocal_eq_ok (date : Date) {hour minute second : Int} (hh : 0 ≤ hour ∧ hour ≤ 23)
    (hm : 0 ≤ minute ∧ minute ≤ 59) (hs : 0 ≤ second ∧ second ≤ 59) :
    (Reading.mk date hour minute second).toLocal = .ok (ofParts date hour minute second) := by
  simp only [Reading.toLocal, fitsWord_of_clock (n := hour) (by omega), fitsWord_of_clock hm,
    fitsWord_of_clock hs, ofClock_eq_ok date hh hm hs]
  rfl

theorem orFail_ok {α : Type} (a : α) : orFail (.ok a) = (.ok a : Except (Halt ρ) α) := rfl

theorem walkSeconds_eq (ht : t.Sound) {date : Date} {hour minute : Int}
    (hh : 0 ≤ hour ∧ hour ≤ 23) (hm : 0 ≤ minute ∧ minute ≤ 59) (s : σ) :
    walkSeconds t dir visit pin date hour minute s =
      (t.secondTimes dir pin date hour minute).foldlM visit s := by
  rw [walkSeconds, secondTimes, foldlM_flatMap]
  apply foldlM_congr_mem
  intro s second hsec
  rw [toLocal_eq_ok date hh hm (ht.seconds.2 second (Direction.mem_select.1 hsec).1)]
  simp [orFail_ok, bind, Except.bind, pure, Except.pure]
  cases visit s (ofParts date hour minute second) <;> rfl

theorem walkMinutes_eq (ht : t.Sound) {date : Date} {hour : Int} (hh : 0 ≤ hour ∧ hour ≤ 23)
    (s : σ) :
    walkMinutes t dir visit pin date hour s = (t.minuteTimes dir pin date hour).foldlM visit s := by
  rw [walkMinutes, minuteTimes, foldlM_flatMap]
  exact foldlM_congr_mem fun s minute hmin =>
    walkSeconds_eq ht hh (ht.minutes.2 minute (Direction.mem_select.1 hmin).1) s

theorem walkHours_eq (ht : t.Sound) (date : Date) (s : σ) :
    walkHours t dir visit pin date s = (t.hourTimes dir pin date).foldlM visit s := by
  rw [walkHours, hourTimes, foldlM_flatMap]
  exact foldlM_congr_mem fun s hour hhour =>
    walkMinutes_eq ht (ht.hours.2 hour (Direction.mem_select.1 hhour).1) s

theorem days_eq (ht : t.Sound) {year month : Int} (hm : 1 ≤ month ∧ month ≤ 12) :
    t.days year month = .ok (t.admittedDays year month) := by
  rw [days, if_neg (by omega)]
  exact selectM_eq_ok_filter fun day _ => eq_ok_isYes (ht.day _)

theorem walkDays_eq (ht : t.Sound) {year month : Int} (hm : 1 ≤ month ∧ month ≤ 12) (s : σ) :
    walkDays t dir visit pin year month s = (t.dayTimes dir pin year month).foldlM visit s := by
  rw [walkDays, days_eq ht hm, dayTimes, foldlM_flatMap]
  exact foldlM_congr_mem fun s day _ => walkHours_eq ht ⟨year, month, day⟩ s

theorem walkMonths_eq (ht : t.Sound) (year : Int) (s : σ) :
    walkMonths t dir visit pin year s = (t.monthTimes dir pin year).foldlM visit s := by
  rw [walkMonths, monthTimes, foldlM_flatMap]
  exact foldlM_congr_mem fun s month hmonth =>
    walkDays_eq ht (ht.months.2 month (Direction.mem_select.1 hmonth).1) s

/-- **The walk through a sound timetable is a fold over its fire times.** -/
theorem walk_eq_foldlM (ht : t.Sound) (start : Int) (s : σ) :
    t.walk dir start visit s = (t.times dir start).foldlM visit s := by
  rw [walk, times, foldlM_flatMap]
  apply foldlM_congr_mem
  intro s year _
  rw [eq_ok_isYes (ht.year year)]
  cases isYes (t.admitsYear year) with
  | true => exact walkMonths_eq ht year s
  | false => rfl

end Fold

/-! ### The list holds the fire times -/

theorem fires_eq (ht : t.Sound) (x : Int) :
    t.fires x = .ok (isYes (t.admitsYear (date x).year) && (decide ((date x).month ∈ t.months) &&
      (decide (hour x ∈ t.hours) && (decide (minute x ∈ t.minutes) &&
        (decide (second x ∈ t.seconds) && isYes (t.admitsDay (date x))))))) := by
  have hy := eq_ok_isYes (ht.year (date x).year)
  have hd := eq_ok_isYes (ht.day (date x))
  generalize isYes (t.admitsYear (date x).year) = y at hy ⊢
  generalize isYes (t.admitsDay (date x)) = d at hd ⊢
  unfold fires
  simp only [hy, hd, bind, Except.bind, pure, Except.pure]
  cases y with
  | false => rfl
  | true =>
    simp only [if_true, Bool.true_and]
    split
    · next h => simp [h]
    · next h =>
      simp only [Decidable.not_and_iff_or_not] at h
      rcases h with h | h | h | h <;> simp [h]

/-- A start that the walk is still bound to, in a block of times. -/
def Bound (pin : Option Reading) (Block : Int → Prop) : Prop :=
  ∀ r ∈ pin, Block r.time ∧ Reading.ofLocal r.time = r

theorem Bound.sub {Block : Int → Prop} {key : Reading → Int} {coord : Int → Int} {v : Int}
    (h : Bound pin Block) (hk : ∀ x, key (Reading.ofLocal x) = coord x) {p : Option Reading}
    (hp : ∀ r ∈ p, r ∈ pin ∧ key r = v) : Bound p fun x => Block x ∧ coord x = v := by
  intro r hr
  obtain ⟨hr, hv⟩ := hp r hr
  obtain ⟨hb, hl⟩ := h r hr
  exact ⟨⟨hb, by rw [← hk, hl, hv]⟩, hl⟩

/-- A level of the walk whose start shows the numbers that the level goes by. -/
theorem enumerates_of_level {l : List Int} (key : Reading → Int) (coord : Int → Int)
    (Block : Int → Prop) (sub : Option Reading → Int → List Int) {rest : Int → Prop}
    (hl : l.Pairwise (· < ·)) (hk : ∀ x, key (Reading.ofLocal x) = coord x)
    (hpin : Bound pin Block) (hlt : ∀ a b, Block a → Block b → coord a < coord b → a < b)
    (hsub : ∀ v ∈ l, ∀ p, Bound p (fun x => Block x ∧ coord x = v) →
      Enumerates dir (p.map (·.time)) (fun x => (Block x ∧ coord x = v) ∧ rest x) (sub p v)) :
    Enumerates dir (pin.map (·.time)) (fun x => Block x ∧ coord x ∈ l ∧ rest x)
      ((dir.select l (pin.map key)).flatMap fun v => sub (pin.filter (key · == v)) v) :=
  Enumerates.level hl hlt (fun r hr => ⟨(hpin r hr).1, by rw [← hk, (hpin r hr).2]⟩)
    fun v hv p hp => hsub v hv p (hpin.sub hk hp)

/-- The whole seconds of a year. -/
def InYear (year x : Int) : Prop := micros x = 0 ∧ (date x).year = year

/-- The whole seconds of a month. -/
def InMonth (year month x : Int) : Prop := InYear year x ∧ (date x).month = month

/-- The whole seconds of a day. -/
def InDay (d : Date) (x : Int) : Prop := micros x = 0 ∧ date x = d

/-- The whole seconds of an hour. -/
def InHour (d : Date) (h x : Int) : Prop := InDay d x ∧ hour x = h

/-- The whole seconds of a minute. -/
def InMinute (d : Date) (h m x : Int) : Prop := InHour d h x ∧ minute x = m

theorem inDay_iff {year month day x : Int} :
    InDay ⟨year, month, day⟩ x ↔ InMonth year month x ∧ (date x).day = day := by
  unfold InDay InMonth InYear
  cases date x
  simp [and_assoc]

/-- A minute has one time for each second. -/
theorem eq_ofParts_iff {d : Date} (hd : d.Valid) {h m s x : Int} (hh : 0 ≤ h ∧ h ≤ 23)
    (hm : 0 ≤ m ∧ m ≤ 59) (hs : 0 ≤ s ∧ s ≤ 59) :
    x = ofParts d h m s ↔ InMinute d h m x ∧ second x = s := by
  constructor
  · rintro rfl
    obtain ⟨h1, h2, h3, h4⟩ := clock_ofParts d (h := h) (m := m) (s := s) (by omega) (by omega)
      (by omega)
    exact ⟨⟨⟨⟨h4, date_ofParts hd (by omega) (by omega) (by omega)⟩, h1⟩, h2⟩, h3⟩
  · rintro ⟨⟨⟨⟨h0, rfl⟩, rfl⟩, rfl⟩, rfl⟩
    rw [ofParts_read, wholeSecond, h0, Int.sub_zero]

theorem enumerates_secondTimes (ht : t.Sound) {d : Date} {h m : Int} (hd : d.Valid)
    (hh : 0 ≤ h ∧ h ≤ 23) (hm : 0 ≤ m ∧ m ≤ 59) (hp : Bound pin (InMinute d h m)) :
    Enumerates dir (pin.map (·.time)) (fun x => InMinute d h m x ∧ second x ∈ t.seconds ∧ True)
      (t.secondTimes dir pin d h m) := by
  refine enumerates_of_level (·.second) second (InMinute d h m) (fun _ s => [ofParts d h m s])
    ht.seconds.1 (fun _ => rfl) hp ?_ ?_
  · rintro a b ⟨⟨⟨-, ha⟩, ha'⟩, ha''⟩ ⟨⟨⟨-, hb⟩, hb'⟩, hb''⟩ hab
    exact lt_of_second_lt (ha.trans hb.symm) (ha'.trans hb'.symm) (ha''.trans hb''.symm) hab
  · intro s hs p hp
    constructor
    · simp
    · intro x
      rw [List.mem_singleton, eq_ofParts_iff hd hh hm (ht.seconds.2 s hs)]
      constructor
      · intro hx
        refine ⟨⟨hx, trivial⟩, ?_⟩
        intro a ha
        obtain ⟨r, hr, rfl⟩ := Option.map_eq_some_iff.1 ha
        -- the start shows this very time
        have h1 := (eq_ofParts_iff hd hh hm (ht.seconds.2 s hs)).2 hx
        have h2 := (eq_ofParts_iff hd hh hm (ht.seconds.2 s hs)).2 (hp r hr).1
        rw [h1, h2]
        cases dir <;> simp [Direction.precedes]
      · intro hx
        exact hx.1.1

theorem enumerates_minuteTimes (ht : t.Sound) {d : Date} {h : Int} (hd : d.Valid)
    (hh : 0 ≤ h ∧ h ≤ 23) (hp : Bound pin (InHour d h)) :
    Enumerates dir (pin.map (·.time))
      (fun x => InHour d h x ∧ minute x ∈ t.minutes ∧ second x ∈ t.seconds ∧ True)
      (t.minuteTimes dir pin d h) := by
  refine enumerates_of_level (·.minute) minute (InHour d h)
    (fun p m => t.secondTimes dir p d h m) ht.minutes.1 (fun _ => rfl) hp ?_ ?_
  · rintro a b ⟨⟨-, ha⟩, ha'⟩ ⟨⟨-, hb⟩, hb'⟩ hab
    exact lt_of_minute_lt (ha.trans hb.symm) (ha'.trans hb'.symm) hab
  · intro m hm p hp
    exact enumerates_secondTimes ht hd hh (ht.minutes.2 m hm) hp

theorem enumerates_hourTimes (ht : t.Sound) {d : Date} (hd : d.Valid) (hp : Bound pin (InDay d)) :
    Enumerates dir (pin.map (·.time))
      (fun x => InDay d x ∧ hour x ∈ t.hours ∧ minute x ∈ t.minutes ∧ second x ∈ t.seconds ∧ True)
      (t.hourTimes dir pin d) := by
  refine enumerates_of_level (·.hour) hour (InDay d) (fun p h => t.minuteTimes dir p d h)
    ht.hours.1 (fun _ => rfl) hp ?_ ?_
  · rintro a b ⟨-, ha⟩ ⟨-, hb⟩ hab
    exact lt_of_hour_lt (ha.trans hb.symm) hab
  · intro h hh p hp
    exact enumerates_minuteTimes ht hd (ht.hours.2 h hh) hp

theorem mem_admittedDays {year month day : Int} :
    day ∈ t.admittedDays year month ↔
      (1 ≤ day ∧ day ≤ daysInMonth year month) ∧ isYes (t.admitsDay ⟨year, month, day⟩) = true := by
  rw [admittedDays, List.mem_filter, mem_intsBetween]

theorem enumerates_dayTimes (ht : t.Sound) {year month : Int} (hm : 1 ≤ month ∧ month ≤ 12)
    (hp : Bound pin (InMonth year month)) :
    Enumerates dir (pin.map (·.time))
      (fun x => InMonth year month x ∧ (date x).day ∈ t.admittedDays year month ∧
        hour x ∈ t.hours ∧ minute x ∈ t.minutes ∧ second x ∈ t.seconds ∧ True)
      (t.dayTimes dir pin year month) := by
  refine enumerates_of_level (·.date.day) (fun x => (date x).day) (InMonth year month)
    (fun p day => t.hourTimes dir p ⟨year, month, day⟩) (l := t.admittedDays year month)
    ((pairwise_intsBetween _ _).filter _) (fun _ => rfl) hp ?_ ?_
  · rintro a b ⟨⟨-, ha⟩, ha'⟩ ⟨⟨-, hb⟩, hb'⟩ hab
    exact lt_of_day_lt (ha.trans hb.symm) (ha'.trans hb'.symm) hab
  · intro day hday p hp
    simp only [← inDay_iff] at hp ⊢
    exact enumerates_hourTimes ht ⟨hm, (mem_admittedDays.1 hday).1⟩ hp

theorem enumerates_monthTimes (ht : t.Sound) {year : Int} (hp : Bound pin (InYear year)) :
    Enumerates dir (pin.map (·.time))
      (fun x => InYear year x ∧ (date x).month ∈ t.months ∧ isYes (t.admitsDay (date x)) = true ∧
        hour x ∈ t.hours ∧ minute x ∈ t.minutes ∧ second x ∈ t.seconds ∧ True)
      (t.monthTimes dir pin year) := by
  refine enumerates_of_level (·.date.month) (fun x => (date x).month) (InYear year)
    (fun p month => t.dayTimes dir p year month) ht.months.1 (fun _ => rfl) hp ?_ ?_
  · rintro a b ⟨-, ha⟩ ⟨-, hb⟩ hab
    exact lt_of_month_lt (ha.trans hb.symm) hab
  · intro month hmonth p hp
    apply (enumerates_dayTimes ht (ht.months.2 month hmonth) hp).congr
    intro x
    refine and_congr_right fun hx => and_congr_left' ?_
    obtain ⟨⟨-, hy⟩, hm⟩ := hx
    obtain ⟨-, hday⟩ := valid_date x
    rw [hy, hm] at hday
    rw [mem_admittedDays, ← hy, ← hm]
    exact and_iff_right (hy ▸ hm ▸ hday)

/-- The fire times that a walk from a start goes through: whole seconds of the years searched. -/
def Walked (t : Timetable) (dir : Direction) (start x : Int) : Prop :=
  micros x = 0 ∧ t.fires x = .ok true ∧
    dir.leastYear (date start).year t.maxYears ≤ (date x).year ∧
    (date x).year ≤ dir.greatestYear (date start).year t.maxYears

/-- **The list that the walk goes through holds the fire times of the years searched that
do not come before the start, each once and in the order of the way.** -/
theorem enumerates_times (ht : t.Sound) (dir : Direction) (start : Int) :
    Enumerates dir (some (wholeSecond start)) (t.Walked dir start) (t.times dir start) := by
  have hp : Bound (some (Reading.ofLocal start)) fun x => micros x = 0 := by
    rintro r hr
    obtain rfl : Reading.ofLocal start = r := by simpa using hr
    rw [Reading.time_ofLocal, Reading.ofLocal_wholeSecond]
    exact ⟨micros_wholeSecond start, rfl⟩
  have h : Enumerates dir ((some (Reading.ofLocal start)).map (·.time))
      (fun x => micros x = 0 ∧
        (date x).year ∈ intsBetween (dir.leastYear (date start).year t.maxYears)
          (dir.greatestYear (date start).year t.maxYears) ∧ t.fires x = .ok true)
      (t.times dir start) := by
    rw [times, Direction.years_eq_select]
    refine enumerates_of_level (·.date.year) (fun x => (date x).year) (fun x => micros x = 0)
      (fun p year => if isYes (t.admitsYear year) then t.monthTimes dir p year else [])
      (pairwise_intsBetween _ _) (fun _ => rfl) hp (fun a b _ _ hab => lt_of_year_lt hab) ?_
    intro year _ p hp
    by_cases hy : isYes (t.admitsYear year) = true
    · rw [if_pos hy]
      refine (enumerates_monthTimes ht hp).congr fun x => and_congr_right ?_
      intro hx
      rw [fires_eq ht, hx.2]
      simp only [hy, Except.ok.injEq, Bool.and_eq_true, decide_eq_true_eq, true_and, and_true]
      tauto
    · rw [if_neg hy]
      refine ⟨List.Pairwise.nil, fun x => ⟨by simp, ?_⟩⟩
      rintro ⟨⟨⟨-, rfl⟩, hf⟩, -⟩
      rw [fires_eq ht] at hf
      simp [hy] at hf
  rw [Option.map_some, Reading.time_ofLocal] at h
  apply h.congr
  intro x
  rw [Walked, mem_intsBetween]
  tauto

/-! ### What a visitor gets -/

/-- A walk shows a visitor the members of a list, one by one, until the visitor ends it. -/
def Yields (t : Timetable) (dir : Direction) (start : Int) (l : List Int) : Prop :=
  ∀ {σ ρ : Type} (visit : σ → Int → Except (Halt ρ) σ) (s : σ),
    t.walk dir start visit s = l.foldlM visit s

/-- From a whole second on, the fire times of the years searched that do not come before it. -/
theorem exists_yields (ht : t.Sound) (dir : Direction) {start : Int} (hstart : micros start = 0) :
    ∃ l, t.Yields dir start l ∧ l.Pairwise (fun a b => dir.precedes a b = true) ∧
      ∀ w, w ∈ l ↔ micros w = 0 ∧ t.fires w = .ok true ∧ dir.precedes w start = false ∧
        dir.leastYear (date start).year t.maxYears ≤ (date w).year ∧
        (date w).year ≤ dir.greatestYear (date start).year t.maxYears := by
  obtain ⟨hsorted, hmem⟩ := enumerates_times ht dir start
  have hwhole : wholeSecond start = start := by rw [wholeSecond, hstart, Int.sub_zero]
  refine ⟨t.times dir start, fun _ s => walk_eq_foldlM ht start s, hsorted, ?_⟩
  intro w
  rw [hmem, hwhole, Walked]
  simp only [Option.mem_some_iff, forall_eq']
  tauto

/-- **A walk from a whole second yields the fire times of the years searched that do not come before
it**, each once: forward in ascending order, and backward in descending order. -/
theorem walk_yields_fires {s : Schedule} (hD : s.definition ∈ Dialect.all)
    (hv : s.validate = .ok ()) {maxYears : Int} (hn : 1 ≤ maxYears) :
    ∃ t, of? s maxYears = .ok t ∧ ∀ start, micros start = 0 →
      (∃ l, t.Yields .forward start l ∧ l.Pairwise (· < ·) ∧
        ∀ w, w ∈ l ↔ micros w = 0 ∧ t.fires w = .ok true ∧ start ≤ w ∧
          (date start).year ≤ (date w).year ∧
          (date w).year ≤ min ((date start).year + maxYears) 9999) ∧
      ∃ l, t.Yields .backward start l ∧ l.Pairwise (· > ·) ∧
        ∀ w, w ∈ l ↔ micros w = 0 ∧ t.fires w = .ok true ∧ w ≤ start ∧
          max ((date start).year - maxYears) 1 ≤ (date w).year ∧
          (date w).year ≤ (date start).year := by
  obtain ⟨t, ht, -, rfl, hsound⟩ := exists_of_validate hD hv hn
  refine ⟨t, ht, ?_⟩
  intro start hstart
  have hforward := exists_yields hsound .forward hstart
  have hbackward := exists_yields hsound .backward hstart
  simp only [Direction.precedes, decide_eq_true_eq, decide_eq_false_iff_not, Int.not_lt,
    Direction.leastYear, Direction.greatestYear] at hforward hbackward
  exact ⟨hforward, hbackward⟩

/-- At ten past and ten to the hour, at two and at ten in the evening of a leap day. -/
def leapNights : Schedule :=
  .ofAssignment Dialect.unix fun
    | .minute => some (.list [.value 10, .value 50])
    | .hour => some (.list [.value 2, .value 22])
    | .dayOfMonth => some (.value 29)
    | .month => some (.value 2)
    | .dayOfWeek => some .always
    | _ => none

/-- From half past ten in the evening of a leap day on, ten past ten is over, ten to eleven is yet to
come, and so is ten past two in the night four years later. -/
theorem walk_yields_leapNights :
    leapNights.validate = .ok () ∧ date 1709245800000000 = ⟨2024, 2, 29⟩ ∧
      ∃ t, of? leapNights 5 = .ok t ∧
        ∃ l, t.Yields .forward 1709245800000000 l ∧ l.Pairwise (· < ·) ∧
          1709244600000000 ∉ l ∧ 1709247000000000 ∈ l ∧ 1835403000000000 ∈ l := by
  have hv : leapNights.validate = .ok () := by rfl
  obtain ⟨t, ht, hwalk⟩ := walk_yields_fires (s := leapNights) List.mem_cons_self hv
    (by decide : (1 : Int) ≤ 5)
  have htable : of? leapNights 5 = .ok ⟨leapNights, 5, [0], [10, 50], [2, 22], [2]⟩ := by rfl
  obtain rfl := Except.ok.inj (htable.symm.trans ht)
  obtain ⟨⟨l, hyields, hsorted, hmem⟩, -⟩ := hwalk 1709245800000000 (by decide)
  refine ⟨hv, by decide, _, ht, l, hyields, hsorted, ?_, ?_, ?_⟩
  · intro hin
    obtain ⟨-, -, hlate, -⟩ := (hmem _).1 hin
    omega
  · exact (hmem _).2 ⟨by decide, by decide +kernel, by decide, by decide, by decide⟩
  · exact (hmem _).2 ⟨by decide, by decide +kernel, by decide, by decide, by decide⟩

end Timetable

end CronSchedule
