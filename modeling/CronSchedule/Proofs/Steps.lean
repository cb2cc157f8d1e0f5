import CronSchedule.Proofs.Translation.Step

/-!
# Steps go round the numbers of a field

The numbers of a field are a cycle: the least one follows the greatest one. A step starts with the
first number of its base and goes on by whole periods, round the cycle if it has to, as long as it
does not go beyond the last number of the base.

* `Expr.reaches_iff`: the numbers that such a way comes to, told by how far they are ahead of the
  first one.
* `Expr.exists_stepAdmits`: a step admits the numbers that the way over its range comes to.
* `Expr.stepAdmits_progression`: **over a range a step admits the numbers on this way, and over an
  open base the start and every period after it**.
-/

namespace CronSchedule.Expr

variable {lo hi s e p v : Int} {base : Expr}

/-! ### How far one number is ahead of another -/

/-- A number that is less than twice round the cycle goes round it once at most. -/
theorem emod_of_lt_twice {n x : Int} (h : 0 ≤ x) (h' : x < n + n) :
    x % n = if x < n then x else x - n := by
  by_cases hx : x < n
  · rw [if_pos hx, Int.emod_eq_of_lt h hx]
  · rw [if_neg hx, ← Int.sub_emod_right, Int.emod_eq_of_lt (by omega) (by omega)]

/-- How far a number of the field is ahead of another, round the cycle. -/
theorem ahead_eq (hs : lo ≤ s ∧ s ≤ hi) (hv : lo ≤ v ∧ v ≤ hi) :
    (v - s) % (hi - lo + 1) = if s ≤ v then v - s else v - s + (hi - lo + 1) := by
  rw [← Int.add_emod_right, emod_of_lt_twice (by omega) (by omega)]
  split <;> split <;> omega

/-- Going so far ahead of a number leads to the one that is so far ahead. -/
theorem eq_ahead_iff {j : Int} (hs : lo ≤ s ∧ s ≤ hi) (hv : lo ≤ v ∧ v ≤ hi) (hj : 0 ≤ j)
    (hj' : j < hi - lo + 1) :
    v = lo + (s - lo + j) % (hi - lo + 1) ↔ j = (v - s) % (hi - lo + 1) := by
  rw [ahead_eq hs hv, emod_of_lt_twice (by omega) (by omega)]
  split <;> split <;> omega

/-! ### The way round the field -/

/-- Whether whole periods lead from the start of a range to a number, round the numbers from `lo` to
`hi` and not beyond the end of the range. -/
def Reaches (lo hi s e p v : Int) : Prop :=
  ∃ k, 0 ≤ k ∧ k * p ≤ (e - s) % (hi - lo + 1) ∧ v = lo + (s - lo + k * p) % (hi - lo + 1)

/-- The way comes to a number if the number is a multiple of the period ahead of the start and no
farther than the end is. -/
theorem reaches_iff (hs : lo ≤ s ∧ s ≤ hi) (hv : lo ≤ v ∧ v ≤ hi) (hp : 1 ≤ p) :
    Reaches lo hi s e p v ↔
      p ∣ (v - s) % (hi - lo + 1) ∧ (v - s) % (hi - lo + 1) ≤ (e - s) % (hi - lo + 1) := by
  have hend : (e - s) % (hi - lo + 1) < hi - lo + 1 := Int.emod_lt_of_pos _ (by omega)
  constructor
  · rintro ⟨k, hk, hle, hval⟩
    have hpos : 0 ≤ k * p := Int.mul_nonneg hk (by omega)
    rw [← (eq_ahead_iff hs hv hpos (by omega)).1 hval]
    exact ⟨Int.dvd_mul_left k p, hle⟩
  · rintro ⟨⟨k, hk⟩, hle⟩
    have hpos : 0 ≤ (v - s) % (hi - lo + 1) := Int.emod_nonneg _ (by omega)
    rw [Int.mul_comm] at hk
    rw [hk] at hpos hle
    refine ⟨k, Int.nonneg_of_mul_nonneg_left hpos (by omega), hle, ?_⟩
    exact (eq_ahead_iff hs hv hpos (by omega)).2 hk.symm

/-- In a range that does not wrap, the way comes to the start and every period after it. -/
theorem reaches_iff_of_le (hs : lo ≤ s) (he : e ≤ hi) (hse : s ≤ e) (hv : lo ≤ v ∧ v ≤ hi)
    (hp : 1 ≤ p) : Reaches lo hi s e p v ↔ v ≤ e ∧ ∃ k, 0 ≤ k ∧ v = s + k * p := by
  have hs' : lo ≤ s ∧ s ≤ hi := ⟨hs, by omega⟩
  rw [reaches_iff hs' hv hp, ahead_eq hs' hv, ahead_eq hs' ⟨by omega, he⟩, if_pos hse]
  constructor
  · rintro ⟨⟨k, hk⟩, hle⟩
    have hsv : s ≤ v := by
      by_contra hlt
      rw [if_neg hlt] at hle
      omega
    rw [if_pos hsv, Int.mul_comm] at hk
    rw [if_pos hsv] at hle
    have hpos : 0 ≤ k * p := by omega
    exact ⟨by omega, k, Int.nonneg_of_mul_nonneg_left hpos (by omega), by omega⟩
  · rintro ⟨hve, k, hk, rfl⟩
    have hpos : 0 ≤ k * p := Int.mul_nonneg hk (by omega)
    have hahead : s + k * p - s = k * p := by omega
    rw [if_pos (by omega), hahead]
    exact ⟨Int.dvd_mul_left k p, by omega⟩

/-! ### What a step admits -/

/-- A step over a range comes to the numbers of the way over it. Before the point where the range
wraps and after it, their distance from the start is counted apart. -/
theorem stepsOnNumber_iff (hs : lo ≤ s ∧ s ≤ hi) (he : lo ≤ e ∧ e ≤ hi) (hv : lo ≤ v ∧ v ≤ hi)
    (hp : 1 ≤ p) : StepsOnNumber (hi - lo + 1) s e p v ↔ Reaches lo hi s e p v := by
  rw [reaches_iff hs hv hp, ahead_eq hs hv, ahead_eq hs he, StepsOnNumber]
  by_cases hsv : s ≤ v
  · rw [if_pos hsv]
    constructor
    · rintro (⟨-, hve, hdvd⟩ | ⟨hvs, -⟩)
      · refine ⟨hdvd, ?_⟩
        split <;> omega
      · omega
    · rintro ⟨hdvd, hle⟩
      refine .inl ⟨hsv, ?_, hdvd⟩
      intro hse
      rw [if_pos hse] at hle
      omega
  · have hshift : v - s + (hi - lo + 1) = v + (hi - lo + 1) - s := by omega
    rw [if_neg hsv, hshift]
    constructor
    · rintro (⟨hsv', -⟩ | ⟨-, hes, hve, hdvd⟩)
      · omega
      · refine ⟨hdvd, ?_⟩
        rw [if_neg (by omega)]
        omega
    · rintro ⟨hdvd, hle⟩
      have hes : e < s := by
        by_contra hse
        rw [if_pos (by omega)] at hle
        omega
      rw [if_neg (by omega)] at hle
      exact .inr ⟨by omega, hes, by omega, hdvd⟩

/-- **A step admits the numbers that the way over its range comes to.** -/
theorem exists_stepAdmits (h : stepRange? lo hi base = some (s, e)) (hs : lo ≤ s ∧ s ≤ hi)
    (he : lo ≤ e ∧ e ≤ hi) (hv : lo ≤ v ∧ v ≤ hi) (hp : 1 ≤ p) :
    ∃ b, stepAdmits lo hi base p v = .ok b ∧ (b = true ↔ Reaches lo hi s e p v) :=
  ⟨_, stepAdmits_eq hp h v, by rw [decide_eq_true_eq, stepsOnNumber_iff hs he hv hp]⟩

/-- A step over a base that runs to the end of the field admits its first number and every period
after that. -/
theorem exists_stepAdmits_open (h : stepRange? lo hi base = some (s, hi)) (hs : lo ≤ s ∧ s ≤ hi)
    (hv : lo ≤ v ∧ v ≤ hi) (hp : 1 ≤ p) :
    ∃ b, stepAdmits lo hi base p v = .ok b ∧ (b = true ↔ ∃ k, 0 ≤ k ∧ v = s + k * p) := by
  obtain ⟨b, hb, hreach⟩ := exists_stepAdmits h hs ⟨by omega, Int.le_refl hi⟩ hv hp
  refine ⟨b, hb, ?_⟩
  rw [hreach, reaches_iff_of_le hs.1 (Int.le_refl hi) hs.2 hv hp]
  exact and_iff_right hv.2

/-- A step by one leaves nothing out. -/
theorem stepAdmits_one (lo hi s e v : Int) :
    stepAdmits lo hi (.between s e) 1 v = admits lo hi v (.between s e) := by
  rw [stepAdmits_eq (Int.le_refl 1) rfl, admits]
  refine congrArg Except.ok ?_
  rw [Bool.eq_iff_iff, decide_eq_true_eq, StepsOnNumber]
  split
  · rw [Bool.and_eq_true, decide_eq_true_eq, decide_eq_true_eq]
    simp only [Int.one_dvd, and_true]
    omega
  · rw [Bool.or_eq_true, decide_eq_true_eq, decide_eq_true_eq]
    simp only [Int.one_dvd, and_true]
    omega

/-- **The numbers of a step are an arithmetic progression.** Over a range it goes from the first
number on by whole periods, round the field if the range wraps, and no farther than the range; over
a single number and over all numbers it goes on to the end of the field. By ones it has every number
of the range. -/
theorem stepAdmits_progression (hs : lo ≤ s ∧ s ≤ hi) (he : lo ≤ e ∧ e ≤ hi) (hv : lo ≤ v ∧ v ≤ hi)
    (hp : 1 ≤ p) :
    (∃ b, stepAdmits lo hi (.between s e) p v = .ok b ∧
        (b = true ↔ ∃ k, 0 ≤ k ∧ k * p ≤ (e - s) % (hi - lo + 1) ∧
          v = lo + (s - lo + k * p) % (hi - lo + 1))) ∧
      (∀ nth, ∃ b, stepAdmits lo hi (.on s nth) p v = .ok b ∧
        (b = true ↔ ∃ k, 0 ≤ k ∧ v = s + k * p)) ∧
      (∃ b, stepAdmits lo hi .always p v = .ok b ∧
        (b = true ↔ ∃ k, 0 ≤ k ∧ v = lo + k * p)) ∧
      stepAdmits lo hi (.between s e) 1 v = admits lo hi v (.between s e) := by
  have hlo : lo ≤ lo ∧ lo ≤ hi := ⟨Int.le_refl lo, by omega⟩
  refine ⟨exists_stepAdmits rfl hs he hv hp, ?_, ?_, stepAdmits_one lo hi s e v⟩
  · intro nth
    exact exists_stepAdmits_open rfl hs hv hp
  · exact exists_stepAdmits_open rfl hlo hv hp

/-- Every other hour from ten in the evening to two in the morning comes to midnight. -/
theorem stepAdmits_acrossMidnight :
    stepAdmits 0 23 (.between 22 2) 2 0 = .ok true ∧
      stepAdmits 0 23 (.between 22 2) 2 1 = .ok false := by
  have hstart : (0 : Int) ≤ 22 ∧ (22 : Int) ≤ 23 := by decide
  have hend : (0 : Int) ≤ 2 ∧ (2 : Int) ≤ 23 := by decide
  obtain ⟨⟨b, hb, hmidnight⟩, -⟩ := stepAdmits_progression (p := 2) (v := 0) hstart hend
    (by decide) (by decide)
  obtain ⟨⟨b', hb', hone⟩, -⟩ := stepAdmits_progression (p := 2) (v := 1) hstart hend
    (by decide) (by decide)
  -- one step of two hours leads to midnight, and an hour later is between two steps
  obtain rfl := hmidnight.2 ⟨1, by decide⟩
  have hnot : ¬ b' = true := by
    rw [hone]
    rintro ⟨k, hk, hle, hval⟩
    omega
  rw [Bool.not_eq_true] at hnot
  exact ⟨hb, hnot ▸ hb'⟩

end CronSchedule.Expr
