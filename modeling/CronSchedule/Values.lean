/-!
# Lists of values

The integers of a range, and the values of a list that pass a test which may fail.

* `mem_intsBetween`, `pairwise_intsBetween`: `intsBetween a b` holds the integers from `a` to `b`,
  in ascending order.
* `selectM_eq_ok_filter`: where the test never fails, `selectM` filters the list.
-/

namespace CronSchedule

/-- The integers from `first` to `last`, in ascending order. -/
def intsBetween (first last : Int) : List Int :=
  (List.range (last - first + 1).toNat).map fun i : Nat => first + (i : Int)

/-- The values that pass a test. The first failure of the test is the failure of the whole. -/
def selectM {ε α : Type} (test : α → Except ε Bool) : List α → Except ε (List α)
  | [] => .ok []
  | a :: l => do
    let here ← test a
    let rest ← selectM test l
    return if here then a :: rest else rest

@[simp] theorem mem_intsBetween {first last v : Int} :
    v ∈ intsBetween first last ↔ first ≤ v ∧ v ≤ last := by
  simp only [intsBetween, List.mem_map, List.mem_range]
  constructor
  · rintro ⟨i, hi, rfl⟩
    omega
  · rintro ⟨h, h'⟩
    exact ⟨(v - first).toNat, by omega, by omega⟩

theorem pairwise_intsBetween (first last : Int) : (intsBetween first last).Pairwise (· < ·) := by
  simp only [intsBetween, List.pairwise_map]
  exact List.pairwise_lt_range.imp fun h => by omega

theorem selectM_eq_ok_filter {ε α : Type} {test : α → Except ε Bool} {passes : α → Bool}
    {l : List α} (h : ∀ a ∈ l, test a = .ok (passes a)) :
    selectM test l = .ok (l.filter passes) := by
  induction l with
  | nil => rfl
  | cons a l ih =>
    have ha := h a List.mem_cons_self
    have hl := ih fun b hb => h b (List.mem_cons_of_mem a hb)
    simp only [selectM, ha, hl, bind, Except.bind, pure, Except.pure, List.filter_cons]

end CronSchedule
