import CronSchedule.Zone.Basic

/-!
# The changes of a zone, one at a time

Where the changes of the offset lie more than two days apart, at most one of them bears on
a clock time: those more than a day away are past or to come on every clock.

* `Zone.exists_changeNear`: **for every clock time there is one change from which all
  look-ups around it can be read off.**
-/

namespace CronSchedule

/-- Less than a day ahead of UTC and less than a day behind. -/
def WithinDay (offset : Int) : Prop := -86400 < offset ∧ offset < 86400

instance (offset : Int) : Decidable (WithinDay offset) := inferInstanceAs (Decidable (_ ∧ _))

/-- A change of the offset with the offsets on both sides. -/
structure Change where
  /-- The instant from which the new offset holds. -/
  start : Int
  /-- The offset before. -/
  before : Int
  /-- The offset after. -/
  after : Int
deriving DecidableEq, Repr

namespace Change

/-- The offset at an instant, if there is no other change. -/
def offsetAt (c : Change) (instant : Int) : Int :=
  if c.start ≤ instant then c.after else c.before

/-- The offset of a clock time read with a fold, if there is no other change. -/
def localOffset (c : Change) (clock : Int) (second : Bool) : Int :=
  if c.start + (if second then min c.before c.after else max c.before c.after) ≤ clock then c.after
  else c.before

/-- Whether an instant lies in the second pass of the hour that the change repeats. -/
def inSecondPass (c : Change) (instant : Int) : Bool :=
  decide (c.start ≤ instant) && decide (instant - c.start < c.before - c.after)

/-- The clock times that a change repeats. -/
def Repeats (c : Change) (clock : Int) : Prop :=
  c.start + c.after ≤ clock ∧ clock < c.start + c.before

/-- The clock is moved back, by so many seconds at most. -/
def MovesBack (limit : Int) (c : Change) : Prop :=
  c.after ≤ c.before ∧ c.before - c.after ≤ limit

end Change

namespace Zone

/-- The changes that transitions make, from an offset `before` on. -/
def changesFrom : Int → List Transition → List Change
  | _, [] => []
  | before, t :: ts => ⟨t.start, before, t.offset⟩ :: changesFrom t.offset ts

/-- The changes of the offset, in the order of their instants. -/
def changes (z : Zone) : List Change := changesFrom z.initial z.transitions

/-- A zone whose changes lie more than 48 hours apart and are all as `P` says. -/
structure Spaced (z : Zone) (P : Change → Prop) : Prop where
  initial : WithinDay z.initial
  offsets : ∀ t ∈ z.transitions, WithinDay t.offset
  apart : z.transitions.Pairwise fun t u => t.start + 172800 < u.start
  changes : ∀ c ∈ z.changes, P c

/-- A change from which all look-ups around a clock time can be read off. It is a change of
the zone, or it changes nothing. -/
structure ChangeNear (z : Zone) (clock : Int) (c : Change) : Prop where
  change : c ∈ z.changes ∨ c.before = c.after
  unique : ∀ c' ∈ z.changes, clock - 86400 ≤ c'.start → c'.start ≤ clock + 86400 → c' = c
  before : WithinDay c.before
  after : WithinDay c.after
  offsetAt : ∀ u, clock - 86400 ≤ u → u ≤ clock + 86400 → z.offsetAt u = c.offsetAt u
  localOffset : ∀ second, z.localOffset clock second = c.localOffset clock second
  inSecondPass : ∀ u, u + z.offsetAt u = clock → z.inSecondPass u = c.inSecondPass u

theorem exists_start_of_mem_changesFrom {c : Change} :
    ∀ {ts : List Transition} {o : Int}, c ∈ changesFrom o ts → ∃ t ∈ ts, t.start = c.start
  | t :: ts, _, h => by
    rcases List.mem_cons.1 h with rfl | h
    · exact ⟨t, List.mem_cons_self, rfl⟩
    · obtain ⟨t', ht', hs⟩ := exists_start_of_mem_changesFrom h
      exact ⟨t', List.mem_cons_of_mem t ht', hs⟩

theorem withinDay_of_mem_changesFrom {c : Change} {ts : List Transition} {o : Int}
    (h : WithinDay o) (ho : ∀ t ∈ ts, WithinDay t.offset) (hc : c ∈ changesFrom o ts) :
    WithinDay c.before ∧ WithinDay c.after := by
  induction ts generalizing o with
  | nil => cases hc
  | cons t ts ih =>
    obtain ⟨ht, hts⟩ := List.forall_mem_cons.1 ho
    rcases List.mem_cons.1 hc with rfl | hc
    · exact ⟨h, ht⟩
    · exact ih ht hts hc

/-! ### Transitions to come -/

theorem offsetFrom_of_lt {u : Int} :
    ∀ {ts : List Transition} {o : Int}, (∀ t ∈ ts, u < t.start) → offsetFrom u o ts = o
  | [], _, _ => rfl
  | t :: ts, o, h => by
    have ht := h t List.mem_cons_self
    rw [offsetFrom, if_neg (by omega)]
    exact offsetFrom_of_lt fun t' ht' => h t' (List.mem_cons_of_mem t ht')

theorem inSecondPassFrom_of_lt {u : Int} :
    ∀ {ts : List Transition} {o : Int} {found : Bool}, (∀ t ∈ ts, u < t.start) →
      inSecondPassFrom u o found ts = found
  | [], _, _, _ => rfl
  | t :: ts, o, found, h => by
    have ht := h t List.mem_cons_self
    rw [inSecondPassFrom, if_neg (by omega)]
    exact inSecondPassFrom_of_lt fun t' ht' => h t' (List.mem_cons_of_mem t ht')

theorem localOffsetFrom_of_lt {clock : Int} {second : Bool} :
    ∀ {ts : List Transition} {before current : Int}, WithinDay before →
      (∀ t ∈ ts, WithinDay t.offset) → (∀ t ∈ ts, clock + 86400 < t.start) →
        localOffsetFrom clock second before current ts = current
  | [], _, _, _, _, _ => rfl
  | t :: ts, before, current, hb, ho, h => by
    have ht := h t List.mem_cons_self
    have hto := ho t List.mem_cons_self
    unfold WithinDay at hb hto
    rw [localOffsetFrom, if_neg (by unfold Transition.turn; cases second <;> simp <;> omega)]
    exact localOffsetFrom_of_lt (ho t List.mem_cons_self)
      (fun t' ht' => ho t' (List.mem_cons_of_mem t ht'))
      fun t' ht' => h t' (List.mem_cons_of_mem t ht')

/-! ### The change around a clock time -/

/-- Where all transitions are to come, nothing changes. -/
theorem changeNear_of_lt (clock : Int) {o : Int} {ts : List Transition} (h : WithinDay o)
    (ho : ∀ t ∈ ts, WithinDay t.offset) (hts : ∀ t ∈ ts, clock + 86400 < t.start) :
    let c : Change := ⟨0, o, o⟩
    (∀ u ≤ clock + 86400, offsetFrom u o ts = c.offsetAt u) ∧
      (∀ second, localOffsetFrom clock second o o ts = c.localOffset clock second) ∧
        ∀ u ≤ clock + 86400, ∀ found, (u + o = clock → found = false) →
          u + offsetFrom u o ts = clock → inSecondPassFrom u o found ts = c.inSecondPass u := by
  have hlt : ∀ u ≤ clock + 86400, ∀ t ∈ ts, u < t.start := by
    intro u hu t ht
    have := hts t ht; omega
  refine ⟨fun u hu => ?_, fun second => ?_, fun u hu found hf hc => ?_⟩
  · rw [offsetFrom_of_lt (hlt u hu), Change.offsetAt, ite_self]
  · rw [localOffsetFrom_of_lt h ho hts, Change.localOffset, ite_self]
  · rw [offsetFrom_of_lt (hlt u hu)] at hc
    rw [inSecondPassFrom_of_lt (hlt u hu), hf hc, Change.inSecondPass, Int.sub_self]
    simp only [Int.sub_zero, Bool.false_eq, Bool.and_eq_false_iff, decide_eq_false_iff_not]
    omega

theorem exists_changeNear_from (clock : Int) :
    ∀ {ts : List Transition} {o : Int}, WithinDay o → (∀ t ∈ ts, WithinDay t.offset) →
      ts.Pairwise (fun t u => t.start + 172800 < u.start) →
        ∃ c : Change, (c ∈ changesFrom o ts ∨ c.before = c.after) ∧
          (∀ c' ∈ changesFrom o ts, clock - 86400 ≤ c'.start → c'.start ≤ clock + 86400 → c' = c) ∧
          (WithinDay c.before ∧ WithinDay c.after) ∧
          (∀ u, clock - 86400 ≤ u → u ≤ clock + 86400 → offsetFrom u o ts = c.offsetAt u) ∧
          (∀ second, localOffsetFrom clock second o o ts = c.localOffset clock second) ∧
          ∀ u, clock - 86400 ≤ u → u ≤ clock + 86400 → ∀ found, (u + o = clock → found = false) →
            u + offsetFrom u o ts = clock → inSecondPassFrom u o found ts = c.inSecondPass u
  | [], o, h, _, _ => by
    obtain ⟨h1, h2, h3⟩ := changeNear_of_lt clock h (List.forall_mem_nil _) (List.forall_mem_nil _)
    exact ⟨⟨0, o, o⟩, .inr rfl, by simp [changesFrom], ⟨h, h⟩, fun u _ => h1 u, h2,
      fun u _ => h3 u⟩
  | t :: ts, o, h, ho, hp => by
    have hto := ho t List.mem_cons_self
    have hots : ∀ u ∈ ts, WithinDay u.offset := fun u hu => ho u (List.mem_cons_of_mem t hu)
    obtain ⟨hlt, hp⟩ := List.pairwise_cons.1 hp
    have hrest : clock - 86400 ≤ t.start → ∀ u ∈ ts, clock + 86400 < u.start := by
      intro hc u hu
      have := hlt u hu; omega
    unfold WithinDay at h hto
    by_cases h1 : t.start < clock - 86400
    · -- the transition is past on every clock
      obtain ⟨c, hc, hu, hw, h2, h3, h4⟩ := exists_changeNear_from clock hto hots hp
      refine ⟨c, hc.imp_left (List.mem_cons_of_mem _), fun c' hc' h5 => ?_, hw,
        fun u hu hu' => ?_, fun second => ?_, fun u hu hu' found hf hcl => ?_⟩
      · rcases List.mem_cons.1 hc' with rfl | hc'
        · exact absurd h5 (Int.not_le.2 h1)
        · exact hu c' hc' h5
      · rw [offsetFrom, if_pos (by omega), h2 u hu hu']
      · rw [localOffsetFrom, if_pos, h3]
        unfold Transition.turn
        cases second <;> simp <;> omega
      · rw [offsetFrom, if_pos (by omega)] at hcl
        rw [inSecondPassFrom, if_pos (by omega)]
        refine h4 u hu hu' _ (fun hcl => ?_) hcl
        simp only [decide_eq_false_iff_not]
        omega
    · by_cases h2 : t.start ≤ clock + 86400
      · -- the transition is near, the others are to come
        have hr := hrest (by omega)
        refine ⟨⟨t.start, o, t.offset⟩, .inl List.mem_cons_self, fun c' hc' _ h5 => ?_, ⟨h, hto⟩,
          fun u hu hu' => ?_, fun second => ?_, fun u hu hu' found hf hcl => ?_⟩
        · rcases List.mem_cons.1 hc' with rfl | hc'
          · rfl
          · obtain ⟨t', ht', hs⟩ := exists_start_of_mem_changesFrom hc'
            exact absurd h5 (Int.not_le.2 (hs ▸ hr t' ht'))
        · rw [offsetFrom, offsetFrom_of_lt fun t' ht' => by have := hr t' ht'; omega]
          rfl
        · rw [localOffsetFrom, localOffsetFrom_of_lt hto hots hr]
          rfl
        · have hfut : ∀ t' ∈ ts, u < t'.start := fun t' ht' => by have := hr t' ht'; omega
          rw [offsetFrom, offsetFrom_of_lt hfut] at hcl
          rw [inSecondPassFrom, inSecondPassFrom_of_lt hfut, Change.inSecondPass]
          split
          · next hs => simp [hs]
          · next hs =>
            rw [if_neg hs] at hcl
            simp [hs, hf hcl]
      · -- all are to come
        have hall : ∀ u ∈ t :: ts, clock + 86400 < u.start := by
          intro u hu
          rcases List.mem_cons.1 hu with rfl | hu
          · omega
          · exact hrest (by omega) u hu
        obtain ⟨h1, h2, h3⟩ := changeNear_of_lt clock h ho hall
        refine ⟨⟨0, o, o⟩, .inr rfl, fun c' hc' _ h5 => ?_, ⟨h, h⟩, fun u _ => h1 u, h2,
          fun u _ => h3 u⟩
        obtain ⟨t', ht', hs⟩ := exists_start_of_mem_changesFrom hc'
        exact absurd h5 (Int.not_le.2 (hs ▸ hall t' ht'))

theorem withinDay_offsetFrom {u : Int} :
    ∀ {ts : List Transition} {o : Int}, WithinDay o → (∀ t ∈ ts, WithinDay t.offset) →
      WithinDay (offsetFrom u o ts)
  | [], _, h, _ => h
  | t :: ts, o, h, ho => by
    have hts : ∀ t' ∈ ts, WithinDay t'.offset := fun t' ht' => ho t' (List.mem_cons_of_mem t ht')
    rw [offsetFrom]
    by_cases hs : t.start ≤ u
    · rw [if_pos hs]
      exact withinDay_offsetFrom (ho t List.mem_cons_self) hts
    · rw [if_neg hs]
      exact withinDay_offsetFrom h hts

variable {z : Zone} {P : Change → Prop}

theorem Spaced.imp {Q : Change → Prop} (hz : z.Spaced P) (h : ∀ c, P c → Q c) : z.Spaced Q :=
  ⟨hz.initial, hz.offsets, hz.apart, fun c hc => h c (hz.changes c hc)⟩

theorem Spaced.withinDay_offsetAt (hz : z.Spaced P) (u : Int) : WithinDay (z.offsetAt u) :=
  withinDay_offsetFrom hz.initial hz.offsets

theorem Spaced.withinDay_of_mem (hz : z.Spaced P) {c : Change} (hc : c ∈ z.changes) :
    WithinDay c.before ∧ WithinDay c.after :=
  withinDay_of_mem_changesFrom hz.initial hz.offsets hc

/-- **For every clock time there is one change from which all look-ups around it can be
read off.** -/
theorem Spaced.exists_changeNear (hz : z.Spaced P) (clock : Int) : ∃ c, z.ChangeNear clock c := by
  obtain ⟨c, h1, hu, ⟨h2, h3⟩, h4, h5, h6⟩ :=
    exists_changeNear_from clock hz.initial hz.offsets hz.apart
  refine ⟨c, h1, hu, h2, h3, h4, h5, ?_⟩
  intro u hu
  have := hz.withinDay_offsetAt u
  unfold WithinDay at this
  exact h6 u (by omega) (by omega) false (fun _ => rfl) hu

/-- A change no more than a day away from a clock time is the one near it. -/
theorem Spaced.changeNear_of_near (hz : z.Spaced P) {c : Change} (hc : c ∈ z.changes)
    {clock : Int} (h : clock - 86400 ≤ c.start) (h' : c.start ≤ clock + 86400) :
    z.ChangeNear clock c := by
  obtain ⟨c', hc'⟩ := hz.exists_changeNear clock
  obtain rfl := hc'.unique c hc h h'
  exact hc'

/-- A change that repeats a clock time is the one near it. -/
theorem Spaced.changeNear_of_repeats (hz : z.Spaced P) {c : Change} (hc : c ∈ z.changes)
    {clock : Int} (h : c.Repeats clock) : z.ChangeNear clock c := by
  obtain ⟨hb, ha⟩ := hz.withinDay_of_mem hc
  unfold WithinDay at hb ha
  unfold Change.Repeats at h
  apply hz.changeNear_of_near hc
  · omega
  · omega

end Zone

end CronSchedule
