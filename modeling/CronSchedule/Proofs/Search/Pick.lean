import CronSchedule.Proofs.Search.Nearest

/-!
# What a search picks

Where each clock time has two passes, one nearer to the start of the search than the other, a
search takes what `Direction.pick` takes from the clock times it meets: the near pass of the
first one that has it ahead, or else the far pass of the first one that has that ahead, unless
the very next clock time has something nearer.

* `Direction.pick_eq_none`: nothing is picked if and only if nothing is ahead.
* `Direction.pick_crowded`: **what is nearer than the pick is the near pass of a clock time
  with two others before it, the first with its far pass ahead, the second with its near pass
  behind.**
* `Direction.pick_of_crowded`: two such clock times make a search pick a far pass.
-/

namespace CronSchedule.Direction

variable {dir : Direction} {ref : Int} {near far : Int → Int} {xs : List Int} {n : Int}

/-- What becomes of a far pass at the next clock time. -/
def settle (dir : Direction) (ref : Int) (near : Int → Int) (u : Int) : Option Int → Int
  | none => u
  | some y => if dir.ahead ref (near y) && dir.precedes (near y) u then near y else u

/-- The instant that a search picks from the passes of clock times. -/
def pick (dir : Direction) (ref : Int) (near far : Int → Int) : List Int → Option Int
  | [] => none
  | x :: xs =>
    if dir.ahead ref (near x) then some (near x)
    else if dir.ahead ref (far x) then some (dir.settle ref near (far x) xs.head?)
    else dir.pick ref near far xs

/-- Passes that follow the order of clock times, the near one not after the far one. -/
structure Passes (dir : Direction) (near far : Int → Int) : Prop where
  near_le : ∀ x, dir.key (near x) ≤ dir.key (far x)
  near_lt : ∀ x y, dir.key x < dir.key y → dir.key (near x) < dir.key (near y)
  far_lt : ∀ x y, dir.key x < dir.key y → dir.key (far x) < dir.key (far y)

theorem settle_le {u : Int} {y : Option Int} : dir.key (dir.settle ref near u y) ≤ dir.key u := by
  cases y with
  | none => exact Int.le_refl _
  | some y =>
    rw [settle]
    by_cases h : (dir.ahead ref (near y) && dir.precedes (near y) u) = true
    · rw [if_pos h]
      rw [Bool.and_eq_true, precedes_iff] at h
      omega
    · exact Int.le_of_eq (by rw [if_neg h])

theorem pick_eq_none (hp : dir.Passes near far) :
    dir.pick ref near far xs = none ↔ ∀ x ∈ xs, dir.ahead ref (far x) = false := by
  induction xs with
  | nil => simp [pick]
  | cons x xs ih =>
    have hle := hp.near_le x
    rw [pick, List.forall_mem_cons]
    by_cases h1 : dir.ahead ref (near x) = true
    · rw [if_pos h1]
      simp only [reduceCtorEq, false_iff, not_and_or, Bool.not_eq_false]
      exact .inl (ahead_iff.2 (by rw [ahead_iff] at h1; omega))
    · rw [if_neg h1]
      by_cases h2 : dir.ahead ref (far x) = true
      · rw [if_pos h2]
        simp [h2]
      · rw [if_neg h2, ih]
        simp [h2]

/-- What is picked is ahead, and a pass of one of the clock times. -/
theorem pick_sound (h : dir.pick ref near far xs = some n) :
    dir.ahead ref n = true ∧ ∃ x ∈ xs, n = near x ∨ n = far x := by
  induction xs with
  | nil => cases h
  | cons x xs ih =>
    rw [pick] at h
    by_cases h1 : dir.ahead ref (near x) = true
    · rw [if_pos h1] at h
      obtain rfl := Option.some.inj h
      exact ⟨h1, x, List.mem_cons_self, .inl rfl⟩
    · rw [if_neg h1] at h
      by_cases h2 : dir.ahead ref (far x) = true
      · rw [if_pos h2] at h
        obtain rfl := Option.some.inj h
        cases xs with
        | nil => exact ⟨h2, x, List.mem_cons_self, .inr rfl⟩
        | cons y xs =>
          rw [List.head?_cons, settle]
          by_cases h3 : (dir.ahead ref (near y) && dir.precedes (near y) (far x)) = true
          · rw [if_pos h3]
            rw [Bool.and_eq_true] at h3
            exact ⟨h3.1, y, by simp, .inl rfl⟩
          · rw [if_neg h3]
            exact ⟨h2, x, List.mem_cons_self, .inr rfl⟩
      · rw [if_neg h2] at h
        obtain ⟨ha, y, hy, hn⟩ := ih h
        exact ⟨ha, y, List.mem_cons_of_mem x hy, hn⟩

/-- Nothing is picked that lies beyond a far pass ahead. -/
theorem pick_le (hp : dir.Passes near far) (hs : dir.Sorted xs)
    (h : dir.pick ref near far xs = some n) {x : Int} (hx : x ∈ xs)
    (ha : dir.ahead ref (far x) = true) : dir.key n ≤ dir.key (far x) := by
  induction xs with
  | nil => cases hx
  | cons y xs ih =>
    have hle := hp.near_le y
    have hyx : dir.key (far y) ≤ dir.key (far x) := by
      rcases List.mem_cons.1 hx with rfl | hx
      · exact Int.le_refl _
      · exact Int.le_of_lt (hp.far_lt y x (hs.lt x hx))
    rw [pick] at h
    by_cases h1 : dir.ahead ref (near y) = true
    · rw [if_pos h1] at h
      obtain rfl := Option.some.inj h
      omega
    · rw [if_neg h1] at h
      by_cases h2 : dir.ahead ref (far y) = true
      · rw [if_pos h2] at h
        obtain rfl := Option.some.inj h
        exact Int.le_trans settle_le hyx
      · rw [if_neg h2] at h
        rcases List.mem_cons.1 hx with rfl | hx
        · exact absurd ha h2
        · exact ih hs.tail h hx

/-- **What is nearer than the pick is the near pass of a clock time with two others before
it, the first with its far pass ahead, the second with its near pass behind.** -/
theorem pick_crowded (hp : dir.Passes near far) (hs : dir.Sorted xs)
    (h : dir.pick ref near far xs = some n) {y u : Int} (hy : y ∈ xs) (hu : u = near y ∨ u = far y)
    (ha : dir.ahead ref u = true) (hlt : dir.key u < dir.key n) :
    ∃ w ∈ xs, ∃ v ∈ xs, dir.key w < dir.key v ∧ dir.key v < dir.key y ∧
      dir.ahead ref (near v) = false ∧ dir.ahead ref (near y) = true ∧
        dir.key (near y) < dir.key (far w) := by
  have huy : dir.key (near y) ≤ dir.key u := by
    have := hp.near_le y
    rcases hu with rfl | rfl <;> omega
  induction xs with
  | nil => cases hy
  | cons x xs ih =>
    have hle := hp.near_le x
    rw [pick] at h
    by_cases h1 : dir.ahead ref (near x) = true
    · -- the near pass of the first clock time is nearest
      rw [if_pos h1] at h
      obtain rfl := Option.some.inj h
      rcases List.mem_cons.1 hy with rfl | hy
      · omega
      · have := hp.near_lt x y (hs.lt y hy)
        omega
    · rw [if_neg h1] at h
      by_cases h2 : dir.ahead ref (far x) = true
      · rw [if_pos h2] at h
        obtain rfl := Option.some.inj h
        have hn : dir.key (dir.settle ref near (far x) xs.head?) ≤ dir.key (far x) := settle_le
        rcases List.mem_cons.1 hy with rfl | hy
        · -- the passes of the first clock time are no nearer
          rcases hu with rfl | rfl
          · exact absurd ha h1
          · omega
        · have hxy := hp.far_lt x y (hs.lt y hy)
          obtain rfl : u = near y := hu.resolve_right (by rintro rfl; omega)
          cases xs with
          | nil => cases hy
          | cons v xs =>
            have hvy : v ≠ y → dir.key v < dir.key y := fun hne =>
              hs.tail.lt y ((List.mem_cons.1 hy).resolve_left (Ne.symm hne))
            rw [List.head?_cons, settle] at hlt
            by_cases h3 : (dir.ahead ref (near v) && dir.precedes (near v) (far x)) = true
            · -- nothing later is nearer than the near pass of the next clock time
              rw [if_pos h3] at hlt
              by_cases hne : v = y
              · subst hne; omega
              · have := hp.near_lt v y (hvy hne)
                omega
            · rw [if_neg h3] at hlt
              rw [Bool.and_eq_true, precedes_iff, not_and] at h3
              have hne : v ≠ y := by rintro rfl; exact h3 ha hlt
              have hnv := hp.near_lt v y (hvy hne)
              refine ⟨x, List.mem_cons_self, v, by simp, hs.lt v List.mem_cons_self, hvy hne, ?_,
                ha, hlt⟩
              by_contra h4
              exact h3 (by simpa using h4) (by omega)
      · rw [if_neg h2] at h
        rcases List.mem_cons.1 hy with rfl | hy
        · rcases hu with rfl | rfl
          · exact absurd ha h1
          · exact absurd ha h2
        · obtain ⟨w, hw, v, hv, h⟩ := ih hs.tail h hy
          exact ⟨w, List.mem_cons_of_mem x hw, v, List.mem_cons_of_mem x hv, h⟩

/-- A clock time with its far pass ahead, and after it one with its near pass behind, make a
search pick a far pass. -/
theorem pick_of_crowded (hp : dir.Passes near far) (hs : dir.Sorted xs)
    (h : dir.pick ref near far xs = some n) {w v : Int} (hw : w ∈ xs) (hv : v ∈ xs)
    (hwv : dir.key w < dir.key v) (haw : dir.ahead ref (far w) = true)
    (hav : dir.ahead ref (near v) = false) : ∃ x ∈ xs, dir.key x ≤ dir.key w ∧ n = far x := by
  induction xs with
  | nil => cases hw
  | cons x xs ih =>
    have hxw : dir.key x ≤ dir.key w := by
      rcases List.mem_cons.1 hw with rfl | hw
      · exact Int.le_refl _
      · exact Int.le_of_lt (hs.lt w hw)
    have hxv : v ∈ xs := by
      rcases List.mem_cons.1 hv with rfl | hv
      · omega
      · exact hv
    have hnv := hp.near_lt x v (by omega)
    rw [← Bool.not_eq_true, ahead_iff] at hav
    rw [pick] at h
    by_cases h1 : dir.ahead ref (near x) = true
    · rw [ahead_iff] at h1
      omega
    · rw [if_neg h1] at h
      by_cases h2 : dir.ahead ref (far x) = true
      · rw [if_pos h2] at h
        obtain rfl := Option.some.inj h
        refine ⟨x, List.mem_cons_self, hxw, ?_⟩
        cases xs with
        | nil => cases hxv
        | cons y xs =>
          have hyv : dir.key (near y) ≤ dir.key (near v) := by
            rcases List.mem_cons.1 hxv with rfl | hxv
            · exact Int.le_refl _
            · exact Int.le_of_lt (hp.near_lt y v (hs.tail.lt v hxv))
          rw [List.head?_cons, settle, if_neg]
          rw [Bool.and_eq_true, ahead_iff]
          omega
      · rw [if_neg h2] at h
        rcases List.mem_cons.1 hw with rfl | hw
        · exact absurd haw h2
        · obtain ⟨y, hy, hyw⟩ := ih hs.tail h hw hxv
          exact ⟨y, List.mem_cons_of_mem x hy, hyw⟩

end CronSchedule.Direction
