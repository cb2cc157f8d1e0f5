import CronSchedule.Zone.Posix
import Mathlib.Data.Int.Order.Basic
import Mathlib.Tactic.Ring

/-!
# How exact POSIX seconds are

* `Posix.ofMicros_whole`, `Posix.subSeconds_whole`, `Posix.toMicros_whole`: whole seconds
  are held, moved and read back exactly.
* `Posix.ofMicros_lt_iff`, `Posix.lt_ofMicros_iff`: **within 2³⁴ seconds of 1970 rounding
  does not move a time across a whole second.**
* `Posix.toMicros_subSeconds_near`: any time of the calendar is moved by whole seconds up
  to a thousand microseconds.
-/

namespace CronSchedule.Posix

theorem unitsPerSecond_eq : unitsPerSecond = 4722366482869645213696 := by decide

/-! ### Rounding -/

theorem roundQuotient_mul (k : Int) {den : Nat} (h : 0 < den) :
    roundQuotient (k * den) den = k := by
  have hd : (0 : Int) < den := by omega
  rw [roundQuotient, Int.mul_ediv_cancel k (by omega), Int.mul_emod_left, if_pos (by omega)]

/-- A rounded quotient is within half a unit of the quotient. -/
theorem roundQuotient_near (num : Int) (den : Nat) (h : 0 < den) :
    2 * (den * roundQuotient num den - num) ≤ den ∧
      2 * (num - den * roundQuotient num den) ≤ den := by
  have hd : (0 : Int) < den := by omega
  have h1 := Int.mul_ediv_add_emod num den
  have h2 := Int.emod_nonneg num (by omega : (den : Int) ≠ 0)
  have h3 := Int.emod_lt_of_pos num hd
  simp only [roundQuotient]
  generalize num / (den : Int) = q at *
  generalize num % (den : Int) = r at *
  have h4 : (den : Int) * (q + 1) = den * q + den := by ring
  split
  · omega
  · split
    · rw [h4]; omega
    · split
      · omega
      · rw [h4]; omega

/-- The spacing of the numbers with 53 significant bits around a number below `2 ^ k`. -/
theorem spacing_le {n k : Nat} (h : n < 2 ^ (k + 53)) : Nat.pow 2 (Nat.log2 n - 52) ≤ 2 ^ k := by
  refine Nat.pow_le_pow_right (by decide) ?_
  by_cases hn : n = 0
  · subst hn; simp
  · have := (Nat.log2_lt hn).2 h
    omega

theorem roundSignificant_near (num : Int) (den k : Nat) (hd : 0 < den)
    (h : num.natAbs / den < 2 ^ (k + 53)) :
    2 * (den * roundSignificant num den - num) ≤ den * 2 ^ k ∧
      2 * (num - den * roundSignificant num den) ≤ den * 2 ^ k := by
  have hs := spacing_le h
  have hs0 : 0 < Nat.pow 2 (Nat.log2 (num.natAbs / den) - 52) := Nat.pow_pos (by decide)
  simp only [roundSignificant]
  generalize Nat.pow 2 (Nat.log2 (num.natAbs / den) - 52) = s at *
  obtain ⟨h1, h2⟩ := roundQuotient_near num (den * s) (Nat.mul_pos hd hs0)
  have h3 : (den : Int) * s ≤ den * 2 ^ k := by exact_mod_cast Nat.mul_le_mul_left den hs
  have h4 : (den : Int) * (roundQuotient num (den * s) * s) =
      ((den * s : Nat) : Int) * roundQuotient num (den * s) := by push_cast; ring
  push_cast at h1 h2 h4
  rw [h4]
  exact ⟨h1.trans h3, h2.trans h3⟩

/-- Whole seconds with at most 53 bits are not rounded. -/
theorem roundSignificant_whole {u : Int} (h : u.natAbs < 2 ^ 53) {den : Nat} (hd : 0 < den) :
    roundSignificant (u * unitsPerSecond * den) den = u * unitsPerSecond := by
  have hn : (u * unitsPerSecond * den).natAbs / den = u.natAbs * 2 ^ 72 := by
    rw [Int.natAbs_mul, Int.natAbs_natCast, Nat.mul_div_cancel _ hd, Int.natAbs_mul,
      Int.natAbs_natCast]
    rfl
  have hlt : u.natAbs * 2 ^ 72 < 2 ^ (72 + 53) := by omega
  have hs : Nat.log2 (u.natAbs * 2 ^ 72) - 52 ≤ 72 := by
    by_cases h0 : u.natAbs * 2 ^ 72 = 0
    · rw [h0]; decide
    · have := (Nat.log2_lt h0).2 hlt
      omega
  simp only [roundSignificant]
  rw [hn]
  generalize Nat.log2 (u.natAbs * 2 ^ 72) - 52 = j at *
  -- the spacing divides the number of units in a second
  have hu : (unitsPerSecond : Int) = 2 ^ (72 - j) * ((Nat.pow 2 j : Nat) : Int) := by
    have : unitsPerSecond = 2 ^ (72 - j) * Nat.pow 2 j := by
      show 2 ^ 72 = 2 ^ (72 - j) * 2 ^ j
      rw [← Nat.pow_add, Nat.sub_add_cancel hs]
    rw [this]; push_cast; rfl
  have hp : 0 < Nat.pow 2 j := Nat.pow_pos (by decide)
  have he : u * unitsPerSecond * den = u * 2 ^ (72 - j) * ((den * Nat.pow 2 j : Nat) : Int) := by
    rw [hu]; push_cast; ring
  rw [he, roundQuotient_mul _ (Nat.mul_pos hd hp), hu]
  ring

/-! ### Whole seconds -/

theorem ofMicros_whole {u : Int} (h : u.natAbs < 2 ^ 53) :
    ofMicros (u * 1000000) = u * unitsPerSecond := by
  rw [ofMicros, show u * 1000000 * (unitsPerSecond : Int) = u * unitsPerSecond * (1000000 : Nat) by
    push_cast; ring]
  exact roundSignificant_whole h (by decide)

theorem subSeconds_whole {u s : Int} (h : (u - s).natAbs < 2 ^ 53) :
    subSeconds (u * unitsPerSecond) s = (u - s) * unitsPerSecond := by
  rw [subSeconds, show u * (unitsPerSecond : Int) - s * unitsPerSecond =
    (u - s) * unitsPerSecond * (1 : Nat) by push_cast; ring]
  exact roundSignificant_whole h (by decide)

theorem toMicros_whole (u : Int) : toMicros (u * unitsPerSecond) = u * 1000000 := by
  have h1 : (u * unitsPerSecond).tdiv unitsPerSecond = u :=
    Int.mul_tdiv_cancel u (by decide)
  have h2 : (u * unitsPerSecond).tmod unitsPerSecond = 0 := Int.mul_tmod_left ..
  rw [toMicros, h1, h2]
  have h3 : roundQuotient (roundSignificant (0 * microsPerSecond) 1) unitsPerSecond = 0 := by
    decide +kernel
  rw [h3, Int.add_zero]
  rfl

/-! ### Microseconds -/

/-- The POSIX time of a number of microseconds below `2 ^ 34 * 2 ^ k` seconds. -/
theorem ofMicros_near {x : Int} {k : Nat} (h : x.natAbs < 2 ^ (34 + k) * 1000000) :
    2 * (1000000 * ofMicros x - x * unitsPerSecond) ≤ 1000000 * 2 ^ (53 + k) ∧
      2 * (x * unitsPerSecond - 1000000 * ofMicros x) ≤ 1000000 * 2 ^ (53 + k) := by
  have hn : (x * unitsPerSecond).natAbs / 1000000 < 2 ^ (53 + k + 53) := by
    rw [Int.natAbs_mul, Int.natAbs_natCast, Nat.div_lt_iff_lt_mul (by decide), unitsPerSecond_eq,
      show 2 ^ (53 + k + 53) = 2 ^ (34 + k) * 2 ^ 72 by rw [← Nat.pow_add]; congr 1; omega]
    omega
  exact_mod_cast roundSignificant_near _ _ _ (by decide) hn

/-- In whole seconds, or near enough to 1970. -/
def Sharp (x : Int) : Prop :=
  x % 1000000 = 0 ∧ x.natAbs < 2 ^ 53 * 1000000 ∨ x.natAbs < 2 ^ 34 * 1000000

/-- A sharp time is on the same side of a whole second before and after rounding. -/
theorem ofMicros_side {x : Int} (hx : Sharp x) (u : Int) :
    (x < u * 1000000 → ofMicros x < u * unitsPerSecond) ∧
      (x = u * 1000000 → ofMicros x = u * unitsPerSecond) ∧
        (u * 1000000 < x → u * unitsPerSecond < ofMicros x) := by
  by_cases hw : x % 1000000 = 0
  · obtain ⟨v, rfl⟩ : ∃ v, x = v * 1000000 := ⟨x / 1000000, by omega⟩
    have hv : v.natAbs < 2 ^ 53 := by unfold Sharp at hx; omega
    rw [ofMicros_whole hv, unitsPerSecond_eq]
    push_cast
    omega
  · have hn := ofMicros_near (k := 0) (hx.resolve_left fun h => hw h.1)
    rw [unitsPerSecond_eq] at hn ⊢
    push_cast at hn ⊢
    omega

theorem ofMicros_lt_iff {x : Int} (hx : Sharp x) {u : Int} :
    ofMicros x < u * unitsPerSecond ↔ x < u * 1000000 := by
  have := ofMicros_side hx u
  omega

theorem lt_ofMicros_iff {x : Int} (hx : Sharp x) {u : Int} :
    u * unitsPerSecond < ofMicros x ↔ u * 1000000 < x := by
  have := ofMicros_side hx u
  omega

/-- A time of the calendar a second or more away from a whole second stays on its side. -/
theorem ofMicros_far {x : Int} (hx : x.natAbs < 2 ^ 38 * 1000000) (u : Int) :
    (x + 1000000 ≤ u * 1000000 → ofMicros x < u * unitsPerSecond) ∧
      (u * 1000000 + 1000000 ≤ x → u * unitsPerSecond < ofMicros x) := by
  have hn := ofMicros_near (k := 4) hx
  rw [unitsPerSecond_eq] at hn ⊢
  push_cast at hn ⊢
  omega

theorem toMicros_near (p : Int) :
    toMicros p * unitsPerSecond - p * 1000000 ≤ unitsPerSecond ∧
      p * 1000000 - toMicros p * unitsPerSecond ≤ unitsPerSecond := by
  have hp := Int.mul_tdiv_add_tmod p unitsPerSecond
  have hr : (p.tmod unitsPerSecond).natAbs < unitsPerSecond := by
    rw [Int.natAbs_tmod, Int.natAbs_natCast]
    exact Nat.mod_lt _ (by decide)
  simp only [toMicros, microsPerSecond]
  generalize p.tdiv unitsPerSecond = q at *
  generalize p.tmod unitsPerSecond = r at *
  rw [unitsPerSecond_eq] at *
  have hs := roundSignificant_near (r * 1000000) 1 40 (by decide)
    (by rw [Nat.div_one]; omega)
  generalize roundSignificant (r * 1000000) 1 = z at *
  have hq := roundQuotient_near z 4722366482869645213696 (by decide)
  push_cast at *
  omega

/-- A time of the calendar is moved by some hours up to a thousand microseconds. -/
theorem toMicros_subSeconds_near {x s : Int} (hx : x.natAbs < 2 ^ 38 * 1000000)
    (hs : s.natAbs < 2 ^ 20) :
    toMicros (subSeconds (ofMicros x) s) ≤ x - s * 1000000 + 1000 ∧
      x - s * 1000000 - 1000 ≤ toMicros (subSeconds (ofMicros x) s) := by
  have h1 := ofMicros_near (k := 4) hx
  generalize ofMicros x = p at *
  have h2 := roundSignificant_near (p - s * unitsPerSecond) 1 58 (by decide)
    (by rw [Nat.div_one]; rw [unitsPerSecond_eq] at *; push_cast at *; omega)
  rw [← subSeconds] at h2
  generalize subSeconds p s = q at *
  have h3 := toMicros_near q
  rw [unitsPerSecond_eq] at *
  push_cast at *
  omega

end CronSchedule.Posix
