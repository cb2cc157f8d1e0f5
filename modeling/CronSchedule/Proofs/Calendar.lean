import CronSchedule.Calendar.LocalTime

/-!
# Dates and local times as numbers

* `Date.ofDay_toDay`, `Date.toDay_ofDay`: dates of the calendar and their numbers
  determine each other.
* `Date.toDay_lt_of_year`, `Date.toDay_lt_of_month`: later years and months come later.
* `LocalTime.ofParts_read`, `LocalTime.date_ofParts`: a whole second is what calendar
  and clock show at it.
* `LocalTime.year_lt_iff`: the years as intervals of local times.
* `LocalTime.lt_of_year_lt` and its siblings: the order of local times is that of what
  calendar and clock show, from the years down to the seconds.
-/

namespace CronSchedule

/-! ### Years and months -/

theorem daysBeforeYear_succ_le {a b : Int} (h : a < b) :
    daysBeforeYear (a + 1) ≤ daysBeforeYear b := by
  simp only [daysBeforeYear]
  omega

theorem daysBeforeYear_mono {a b : Int} (h : a ≤ b) : daysBeforeYear a ≤ daysBeforeYear b := by
  simp only [daysBeforeYear]
  omega

theorem yearOfDay_eq {y n : Int} (h : daysBeforeYear y < n) (h' : n ≤ daysBeforeYear (y + 1)) :
    yearOfDay n = y := by
  obtain ⟨h1, h2⟩ := Date.daysBeforeYear_yearOfDay_lt_le n
  rcases Int.lt_trichotomy (yearOfDay n) y with hlt | heq | hgt
  · have := daysBeforeYear_succ_le hlt; omega
  · exact heq
  · have := daysBeforeYear_succ_le hgt; omega

theorem daysInMonth_bounds (year month : Int) :
    28 ≤ daysInMonth year month ∧ daysInMonth year month ≤ 31 := by
  unfold daysInMonth
  split
  · split <;> omega
  · split <;> omega

/-- A month starts where the one before it ends. -/
theorem daysBeforeMonth_succ (year : Int) {m : Int} (h : 1 ≤ m) (h' : m < 12) :
    daysBeforeMonth year (m + 1) = daysBeforeMonth year m + daysInMonth year m := by
  have hm : m = 1 ∨ m = 2 ∨ m = 3 ∨ m = 4 ∨ m = 5 ∨ m = 6 ∨ m = 7 ∨ m = 8 ∨ m = 9 ∨ m = 10 ∨
      m = 11 := by omega
  unfold daysBeforeMonth daysInMonth
  rcases hm with h | h | h | h | h | h | h | h | h | h | h <;> subst h <;>
    cases isLeapYear year <;> rfl

/-- The last month ends where the year ends. -/
theorem daysBeforeYear_add_december (year : Int) :
    daysBeforeYear year + daysBeforeMonth year 12 + daysInMonth year 12 =
      daysBeforeYear (year + 1) := by
  have h31 : daysInMonth year 12 = 31 := rfl
  have h334 : daysBeforeMonth year 12 = 334 + if isLeapYear year then 1 else 0 := rfl
  rw [daysBeforeYear_succ, h31, h334]
  split <;> omega

theorem daysBeforeMonth_mono (year : Int) {a b : Int} (ha : 1 ≤ a) (hab : a ≤ b) (hb : b ≤ 12) :
    daysBeforeMonth year a ≤ daysBeforeMonth year b := by
  obtain ⟨k, rfl⟩ : ∃ k : Nat, b = a + k := ⟨(b - a).toNat, by omega⟩
  clear hab
  induction k with
  | zero => simp
  | succ k ih =>
    have h := daysBeforeMonth_succ year (m := a + k) (by omega) (by omega)
    have hd := (daysInMonth_bounds year (a + k)).1
    have := ih (by omega)
    rw [show a + ((k + 1 : Nat) : Int) = a + k + 1 by omega, h]
    omega

theorem monthOfYearDay_eq {year m n : Int} (hm : 1 ≤ m) (hm' : m ≤ 12)
    (h : daysBeforeMonth year m < n) (h' : n ≤ daysBeforeMonth year m + daysInMonth year m) :
    monthOfYearDay year n = m := by
  -- the chain of tests stops at the first month that starts after the day
  have key : ∀ k : Int, 2 ≤ k → k ≤ 12 → (n ≤ daysBeforeMonth year k ↔ m < k) := by
    intro k hk hk'
    constructor
    · intro hn
      rcases Int.lt_or_le m k with hlt | hge
      · exact hlt
      · have := daysBeforeMonth_mono year (a := k) (by omega) hge hm'; omega
    · intro hlt
      have hs := daysBeforeMonth_succ year hm (by omega)
      have := daysBeforeMonth_mono year (a := m + 1) (by omega) (by omega) hk'
      omega
  unfold monthOfYearDay
  simp only [key 2 (by decide) (by decide), key 3 (by decide) (by decide),
    key 4 (by decide) (by decide), key 5 (by decide) (by decide), key 6 (by decide) (by decide),
    key 7 (by decide) (by decide), key 8 (by decide) (by decide), key 9 (by decide) (by decide),
    key 10 (by decide) (by decide), key 11 (by decide) (by decide), key 12 (by decide) (by decide)]
  omega

/-- A day of the year lies in its month. -/
theorem monthOfYearDay_spec (year n : Int) (h : 1 ≤ n)
    (h' : daysBeforeYear year + n ≤ daysBeforeYear (year + 1)) :
    (1 ≤ monthOfYearDay year n ∧ monthOfYearDay year n ≤ 12) ∧
      daysBeforeMonth year (monthOfYearDay year n) < n ∧
      n ≤ daysBeforeMonth year (monthOfYearDay year n) +
        daysInMonth year (monthOfYearDay year n) := by
  -- the last month up to which the day has not come is found by going up from January
  have key : ∀ k : Nat, (k : Int) < 12 → daysBeforeMonth year (k + 1) < n →
      ∃ m, (1 ≤ m ∧ m ≤ 12) ∧ daysBeforeMonth year m < n ∧
        n ≤ daysBeforeMonth year m + daysInMonth year m := by
    intro k hk
    obtain ⟨j, hj⟩ : ∃ j : Nat, j + k = 11 := ⟨11 - k, by omega⟩
    induction j generalizing k with
    | zero =>
      intro hn
      have := daysBeforeYear_add_december year
      obtain rfl : k = 11 := by omega
      exact ⟨12, by omega, hn, by omega⟩
    | succ j ih =>
      intro hn
      by_cases hs : daysBeforeMonth year ((k : Int) + 1 + 1) < n
      · exact ih (k + 1) (by omega) (by omega) (by simpa using hs)
      · have := daysBeforeMonth_succ year (m := (k : Int) + 1) (by omega) (by omega)
        exact ⟨(k : Int) + 1, by omega, hn, by omega⟩
  obtain ⟨m, hm, h1, h2⟩ := key 0 (by omega) (by simp [daysBeforeMonth]; omega)
  rw [monthOfYearDay_eq hm.1 hm.2 h1 h2]
  exact ⟨hm, h1, h2⟩

/-! ### Dates and their numbers -/

namespace Date

theorem Valid.yearDay_bounds {d : Date} (h : d.Valid) :
    1 ≤ d.yearDay ∧ daysBeforeYear d.year + d.yearDay ≤ daysBeforeYear (d.year + 1) := by
  obtain ⟨⟨hm, hm'⟩, hd, hd'⟩ := h
  have h0 := daysBeforeMonth_mono d.year (Int.le_refl 1) hm hm'
  have h1 : daysBeforeMonth d.year 1 = 0 := rfl
  have h12 := daysBeforeYear_add_december d.year
  unfold yearDay
  refine ⟨by omega, ?_⟩
  by_cases hl : d.month = 12
  · rw [hl] at hd' ⊢; omega
  · have hs := daysBeforeMonth_succ d.year hm (by omega)
    have := daysBeforeMonth_mono d.year (a := d.month + 1) (by omega) (by omega) (Int.le_refl 12)
    have := (daysInMonth_bounds d.year 12).1
    omega

/-- The number of a date of the calendar gives the date back. -/
theorem ofDay_toDay {d : Date} (h : d.Valid) : ofDay d.toDay = d := by
  obtain ⟨hb, hb'⟩ := h.yearDay_bounds
  have hy : yearOfDay d.toDay = d.year := by
    apply yearOfDay_eq <;> unfold toDay <;> omega
  have hm : monthOfYearDay d.year d.yearDay = d.month := by
    obtain ⟨⟨hm, hm'⟩, hd, hd'⟩ := h
    apply monthOfYearDay_eq hm hm' <;> unfold yearDay <;> omega
  have hd : d.toDay - daysBeforeYear d.year = d.yearDay := by unfold toDay; omega
  simp only [ofDay, hy, hd, hm]
  cases d
  simp only [yearDay, mk.injEq, true_and]
  omega

/-- Every number is that of a date of the calendar. -/
theorem valid_ofDay (n : Int) : (ofDay n).Valid := by
  obtain ⟨h1, h2⟩ := daysBeforeYear_yearOfDay_lt_le n
  obtain ⟨hm, hd, hd'⟩ :=
    monthOfYearDay_spec (yearOfDay n) (n - daysBeforeYear (yearOfDay n)) (by omega)
      (by omega)
  exact ⟨hm, by simp only [ofDay]; omega, by simp only [ofDay]; omega⟩

/-- The date with a number has this number. -/
theorem toDay_ofDay (n : Int) : (ofDay n).toDay = n := by
  simp only [toDay, yearDay, ofDay]
  omega

theorem toDay_lt_of_year {a b : Date} (ha : a.Valid) (hb : b.Valid) (h : a.year < b.year) :
    a.toDay < b.toDay := by
  have h1 := ha.yearDay_bounds.2
  have h2 := hb.yearDay_bounds.1
  have := daysBeforeYear_succ_le h
  unfold toDay
  omega

theorem toDay_lt_of_month {a b : Date} (ha : a.Valid) (hb : b.Valid) (hy : a.year = b.year)
    (h : a.month < b.month) : a.toDay < b.toDay := by
  obtain ⟨⟨hm, -⟩, -, hd⟩ := ha
  obtain ⟨⟨-, hm'⟩, hd', -⟩ := hb
  have hs := daysBeforeMonth_succ a.year hm (by omega)
  have := daysBeforeMonth_mono a.year (a := a.month + 1) (by omega) (by omega) hm'
  unfold toDay yearDay
  rw [← hy]
  omega

end Date

/-! ### Local times -/

namespace LocalTime

/-- A whole second is what calendar and clock show at it. -/
theorem ofParts_read (t : Int) :
    ofParts (date t) (hour t) (minute t) (second t) = wholeSecond t := by
  simp only [ofParts, ofDaySeconds, date, Date.toDay_ofDay, hour, minute, second, wholeSecond,
    micros]
  omega

theorem date_ofParts {d : Date} (hd : d.Valid) {h m s : Int} (hh : 0 ≤ h ∧ h < 24)
    (hm : 0 ≤ m ∧ m < 60) (hs : 0 ≤ s ∧ s < 60) : date (ofParts d h m s) = d := by
  have hn : ofParts d h m s / 86400000000 + epochDay = d.toDay := by
    simp only [ofParts, ofDaySeconds]
    omega
  rw [date, hn, Date.ofDay_toDay hd]

theorem valid_date (t : Int) : (date t).Valid := Date.valid_ofDay _

/-- The first moment of a year. -/
def startOfYear (year : Int) : Int := ofDaySeconds (daysBeforeYear year + 1) 0

/-- A time lies before a year if and only if it comes before the year's first moment. -/
theorem year_lt_iff {t y : Int} : (date t).year < y ↔ t < startOfYear y := by
  obtain ⟨h1, h2⟩ := Date.daysBeforeYear_yearOfDay_lt_le (t / 86400000000 + epochDay)
  have hy : (date t).year = yearOfDay (t / 86400000000 + epochDay) := rfl
  rw [← hy] at h1 h2
  unfold startOfYear ofDaySeconds
  rcases Int.lt_or_le (date t).year y with hlt | hge
  · have := daysBeforeYear_succ_le hlt
    exact ⟨fun _ => by omega, fun _ => hlt⟩
  · have hle : daysBeforeYear y ≤ daysBeforeYear (date t).year := daysBeforeYear_mono hge
    exact ⟨fun h => by omega, fun h => by omega⟩

theorem year_mono {a b : Int} (h : a ≤ b) : (date a).year ≤ (date b).year := by
  apply Int.not_lt.1
  intro hlt
  have hb := year_lt_iff.1 hlt
  have ha : (date a).year < (date a).year := year_lt_iff.2 (Int.lt_of_le_of_lt h hb)
  omega

theorem date_startOfYear (year : Int) : date (startOfYear year) = ⟨year, 1, 1⟩ := by
  have hday : startOfYear year / 86400000000 + epochDay = (Date.mk year 1 1).toDay := by
    have hfirst : (Date.mk year 1 1).toDay = daysBeforeYear year + 1 := rfl
    rw [hfirst]
    unfold startOfYear ofDaySeconds
    omega
  have hvalid : Date.Valid ⟨year, 1, 1⟩ := by
    have hlength : daysInMonth year 1 = 31 := rfl
    simp only [Date.Valid, hlength]
    decide
  rw [date, hday, Date.ofDay_toDay hvalid]

/-- Times a common year apart at most are of the same year or of two that follow each other. -/
theorem year_le_succ {a b : Int} (h : b ≤ a + 31536000000000) :
    (date b).year ≤ (date a).year + 1 := by
  apply Int.not_lt.1
  intro hlt
  have ha : a < startOfYear ((date a).year + 1) := year_lt_iff.1 (by omega)
  have hb : ¬ b < startOfYear ((date a).year + 2) := by
    intro hb
    have := year_lt_iff.2 hb
    omega
  have hy : daysBeforeYear ((date a).year + 1) + 365 ≤ daysBeforeYear ((date a).year + 2) := by
    simp only [daysBeforeYear]
    omega
  unfold startOfYear ofDaySeconds at ha hb
  omega

/-- The times of the years from 2 on. -/
theorem le_of_two_le_year {t : Int} (h : 2 ≤ (date t).year) : -62104060800000000 ≤ t := by
  have h1 := year_lt_iff (t := t) (y := 2)
  rw [show startOfYear 2 = -62104060800000000 by decide] at h1
  omega

/-- The times of the years up to 9998. -/
theorem lt_of_year_le {t : Int} (h : (date t).year ≤ 9998) : t < 253370764800000000 := by
  have h1 := year_lt_iff (t := t) (y := 9999)
  rw [show startOfYear 9999 = 253370764800000000 by decide] at h1
  omega

/-! ### The order of local times -/

theorem toDay_date (t : Int) : (date t).toDay = t / 86400000000 + epochDay := Date.toDay_ofDay _

theorem lt_of_toDay_lt {a b : Int} (h : (date a).toDay < (date b).toDay) : a < b := by
  rw [toDay_date, toDay_date] at h
  omega

theorem lt_of_year_lt {a b : Int} (h : (date a).year < (date b).year) : a < b :=
  lt_of_toDay_lt (Date.toDay_lt_of_year (valid_date a) (valid_date b) h)

theorem lt_of_month_lt {a b : Int} (hy : (date a).year = (date b).year)
    (h : (date a).month < (date b).month) : a < b :=
  lt_of_toDay_lt (Date.toDay_lt_of_month (valid_date a) (valid_date b) hy h)

theorem lt_of_day_lt {a b : Int} (hy : (date a).year = (date b).year)
    (hm : (date a).month = (date b).month) (h : (date a).day < (date b).day) : a < b := by
  apply lt_of_toDay_lt
  simp only [Date.toDay, Date.yearDay, hy, hm]
  omega

theorem lt_of_hour_lt {a b : Int} (hd : date a = date b) (h : hour a < hour b) : a < b := by
  have ha := toDay_date a
  rw [hd, toDay_date] at ha
  unfold hour at h
  omega

theorem lt_of_minute_lt {a b : Int} (hd : date a = date b) (hh : hour a = hour b)
    (h : minute a < minute b) : a < b := by
  have ha := toDay_date a
  rw [hd, toDay_date] at ha
  unfold hour at hh
  unfold minute at h
  omega

theorem lt_of_second_lt {a b : Int} (hd : date a = date b) (hh : hour a = hour b)
    (hm : minute a = minute b) (h : second a < second b) : a < b := by
  have ha := toDay_date a
  rw [hd, toDay_date] at ha
  unfold hour at hh
  unfold minute at hm
  unfold second at h
  omega

theorem wholeSecond_le (t : Int) : wholeSecond t ≤ t ∧ t < wholeSecond t + 1000000 := by
  unfold wholeSecond micros
  omega

theorem wholeSecond_eq (t : Int) : wholeSecond t = seconds t * 1000000 := by
  unfold wholeSecond micros seconds
  omega

theorem date_wholeSecond (t : Int) : date (wholeSecond t) = date t := by
  unfold date wholeSecond micros
  congr 2
  omega

theorem wholeSecond_wholeSecond (t : Int) : wholeSecond (wholeSecond t) = wholeSecond t := by
  unfold wholeSecond micros
  omega

theorem micros_wholeSecond (t : Int) : micros (wholeSecond t) = 0 := by
  unfold wholeSecond micros
  omega

end LocalTime

end CronSchedule
