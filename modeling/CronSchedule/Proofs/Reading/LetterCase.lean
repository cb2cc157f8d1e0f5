import CronSchedule.Proofs.Reading.Outcome

/-!
# Letter case and spacing

Fields are read in upper case and nicknames in lower case, both far beyond ASCII. Neither tells the
two cases of a letter of ASCII apart. The places of words get into the places of faults only.

So two texts whose words are the same but for the case of such letters are read alike: they give the
same schedule or faults of the same kind. The faults themselves may differ, as they quote the text.

* `Text.SameLetters`: the texts that differ in the case of letters of ASCII only.
* `Expr.mapError_kind_read`, `Schedule.mapError_kind_readFields`,
  `Schedule.mapError_kind_readNickname`: each step of reading looks at words up to the case of
  letters.
* `Schedule.mapError_kind_read`, `Schedule.read_sameLetters`: **what is read does not depend on
  letter case and spacing.**
-/

namespace CronSchedule

/-! ### Results up to the kind of their error -/

section

variable {ε ε' κ α β : Type} {k : ε → κ}

theorem mapError_mapError (g : ε' → ε) (x : Except ε' α) :
    (x.mapError g).mapError k = x.mapError fun e => k (g e) := by
  cases x <;> rfl

theorem mapError_bind_congr {x y : Except ε α} {f g : α → Except ε β}
    (h : x.mapError k = y.mapError k) (hfg : ∀ a, (f a).mapError k = (g a).mapError k) :
    (x >>= f).mapError k = (y >>= g).mapError k := by
  cases x with
  | error e =>
    cases y with
    | error e' =>
      have hk : k e = k e' := Except.error.inj h
      exact congrArg Except.error hk
    | ok a => cases h
  | ok a =>
    cases y with
    | error e => cases h
    | ok b =>
      cases h
      exact hfg a

end

/-! ### Letters -/

namespace Text

variable {a b : List Char}

/-- Two texts are the same but for the case of letters of ASCII. -/
def SameLetters (a b : List Char) : Prop := a.map Char.toLower = b.map Char.toLower

instance (a b : List Char) : Decidable (SameLetters a b) :=
  inferInstanceAs (Decidable (a.map Char.toLower = b.map Char.toLower))

theorem toLower_of_le {c : Char} (h : 128 ≤ c.toNat) : c.toLower = c := by
  refine dif_neg ?_
  rintro ⟨-, hc⟩
  rw [UInt32.le_iff_toNat_le] at hc
  change c.toNat ≤ 90 at hc
  omega

/-- Whether a function tells the cases of a letter apart is to be seen on the characters of
ASCII. -/
theorem apply_toLower {α : Type} {f : Char → α}
    (hf : ∀ n < 128, f (Char.ofNat n).toLower = f (Char.ofNat n)) (c : Char) :
    f c.toLower = f c := by
  by_cases hc : c.toNat < 128
  · exact forall_ascii (P := fun c => f c.toLower = f c) hf hc
  · rw [toLower_of_le (Nat.le_of_not_lt hc)]

theorem upperChar_toLower (c : Char) : upperChar c.toLower = upperChar c :=
  apply_toLower (by decide) c

theorem lowerChar_toLower (c : Char) : lowerChar c.toLower = lowerChar c :=
  apply_toLower (by decide) c

theorem SameLetters.map_eq {α : Type} {f : Char → α} (h : SameLetters a b)
    (hf : ∀ c, f c.toLower = f c) : a.map f = b.map f := by
  have hmap : ∀ cs : List Char, cs.map f = (cs.map Char.toLower).map f := fun cs => by
    rw [List.map_map]
    exact List.map_congr_left fun c _ => (hf c).symm
  rw [hmap a, hmap b, h]

theorem SameLetters.upper_eq (h : SameLetters a b) : upper a = upper b := by
  rw [upper, upper, List.flatMap_def, List.flatMap_def, h.map_eq upperChar_toLower]

theorem SameLetters.head_eq_at_iff (h : SameLetters a b) :
    a.head? = some '@' ↔ b.head? = some '@' := by
  have hat : ∀ cs : List Char, cs.head? = some '@' ↔ (cs.map (· == '@')).head? = some true := by
    intro cs
    rw [List.head?_map, Option.map_eq_some_iff]
    simp only [beq_iff_eq, exists_eq_right]
  have hcase : ∀ c : Char, (c.toLower == '@') = (c == '@') :=
    fun c => apply_toLower (f := (· == '@')) (by decide) c
  rw [hat, hat, h.map_eq hcase]

end Text

open Text

/-! ### Reading -/

/-- A text is read for a field up to the case of letters. -/
theorem Expr.mapError_kind_read {p q : List Char} (h : upper (trim p) = upper (trim q))
    (d : FieldDefinition) :
    (Expr.read d p).mapError Fault.kind = (Expr.read d q).mapError Fault.kind := by
  rw [Expr.read, Expr.read, h]
  split
  · rfl
  split
  · rfl
  split
  · rfl
  split
  · rfl
  · rfl

namespace Schedule

variable {D : Definition} {t t' : List Char} {w w' : Word} {ws ws' : List Word}

/-- Words that are the same but for the case of letters, wherever they stand. -/
def SameWords (ws ws' : List Word) : Prop :=
  List.Forall₂ (fun w w' => SameLetters w.chars w'.chars) ws ws'

instance (ws ws' : List Word) : Decidable (SameWords ws ws') :=
  inferInstanceAs (Decidable (List.Forall₂ _ ws ws'))

theorem mapError_kind_readFields (hws : ∀ w ∈ ws, ∀ c ∈ w.chars, isBlank c = false)
    (hws' : ∀ w ∈ ws', ∀ c ∈ w.chars, isBlank c = false) (h : SameWords ws ws')
    (ds : List FieldDefinition) :
    (readFields t ws ds).mapError (·.fault.kind) =
      (readFields t' ws' ds).mapError (·.fault.kind) := by
  induction h generalizing ds with
  | nil => cases ds <;> rfl
  | @cons w w' ws ws' hw _ ih =>
    obtain ⟨hsolid, hws⟩ := List.forall_mem_cons.1 hws
    obtain ⟨hsolid', hws'⟩ := List.forall_mem_cons.1 hws'
    cases ds with
    | nil => rfl
    | cons d ds =>
      have hupper : upper (trim w.chars) = upper (trim w'.chars) := by
        rw [trim_of_not_blank hsolid, trim_of_not_blank hsolid', hw.upper_eq]
      rw [readFields, readFields]
      refine mapError_bind_congr ?_ fun e => mapError_bind_congr (ih hws hws' ds) fun fs => rfl
      rw [mapError_mapError, mapError_mapError]
      exact mapError_bind_congr (Expr.mapError_kind_read hupper d) fun e => rfl

theorem mapError_kind_readNickname (h : SameLetters w.chars w'.chars) :
    (readNickname D t w.chars).mapError (·.fault.kind) =
      (readNickname D t' w'.chars).mapError (·.fault.kind) := by
  have hname : nickname? D w.chars = nickname? D w'.chars := by
    rw [nickname?, nickname?, h.map_eq lowerChar_toLower]
  rw [readNickname, readNickname, hname]
  cases nickname? D w'.chars <;> rfl

/-- **What is read does not depend on letter case and spacing**, and neither does the kind of the
fault. -/
theorem mapError_kind_read (hws : AreWords t ws) (hws' : AreWords t' ws') (h : SameWords ws ws') :
    (read D t).mapError (·.fault.kind) = (read D t').mapError (·.fault.kind) := by
  have hsolid : ∀ w ∈ ws, ∀ c ∈ w.chars, isBlank c = false :=
    fun w hw => ((hws.mem_iff w).1 hw).solid
  have hsolid' : ∀ w ∈ ws', ∀ c ∈ w.chars, isBlank c = false :=
    fun w hw => ((hws'.mem_iff w).1 hw).solid
  have hfields : (readFields t ws D.fields).mapError (·.fault.kind) =
      (readFields t' ws' D.fields).mapError (·.fault.kind) :=
    mapError_kind_readFields hsolid hsolid' h D.fields
  have hlen : ws.length = ws'.length := List.Forall₂.length_eq h
  rw [read, read, ← areWords_iff.1 hws, ← areWords_iff.1 hws']
  cases h with
  | nil => rfl
  | @cons w w' ws ws' hw h =>
    by_cases hat : w.chars.head? = some '@'
    · simp only [if_pos hat, if_pos (hw.head_eq_at_iff.1 hat)]
      cases h with
      | nil => exact mapError_kind_readNickname hw
      | @cons v v' vs vs' _ _ =>
        simp only [List.head?_cons, List.getLast?_eq_some_getLast (List.cons_ne_nil v vs),
          List.getLast?_eq_some_getLast (List.cons_ne_nil v' vs')]
        rfl
    · simp only [if_neg hat, if_neg (mt hw.head_eq_at_iff.2 hat)]
      rw [List.length_cons, List.length_cons] at hlen
      rw [hlen]
      split
      · exact mapError_bind_congr hfields fun fs => rfl
      · rfl

/-- **Letter case and spacing do not matter.** Two texts whose words are the same but for the case
of letters of ASCII are both read or both refused. They read as the same schedule, which has one
written form, and they are refused for faults of the same kind. -/
theorem read_sameLetters (hD : D ∈ Dialect.all) (hws : AreWords t ws) (hws' : AreWords t' ws')
    (h : SameWords ws ws') :
    ((∃ s, read D t = .ok s) ↔ ∃ s, read D t' = .ok s) ∧
      (∀ s s', read D t = .ok s → read D t' = .ok s' →
        s = s' ∧ s.same s' = true ∧ s.text = s'.text) ∧
      ∀ tf tf', read D t = .error tf → read D t' = .error tf' →
        tf.diagnostic.kind = tf'.diagnostic.kind := by
  have hread := mapError_kind_read (D := D) hws hws' h
  refine ⟨?_, fun s s' hs hs' => ?_, fun tf tf' htf htf' => ?_⟩
  · have hok : ∀ s, read D t = .ok s ↔ read D t' = .ok s := fun s => by
      rw [← mapError_eq_ok_iff (g := fun tf : TextFault => tf.fault.kind), hread,
        mapError_eq_ok_iff]
    exact exists_congr hok
  · rw [hs, hs'] at hread
    obtain rfl : s = s' := Except.ok.inj hread
    refine ⟨rfl, ?_, rfl⟩
    rw [same, (readable_of_read hs).1, Dialect.same_self D hD, beq_self_eq_true, Bool.true_and]
  · rw [htf, htf'] at hread
    exact Except.error.inj hread

theorem read_thirdMonday_sameLetters :
    read Dialect.spring "0 0,30 9-17/2 ? * Mon#3".toList = .ok thirdMonday ∧
      read Dialect.spring " 0\t0,30 9-17/2 ?  * mON#3".toList = .ok thirdMonday := by
  have hws := areWords_words "0 0,30 9-17/2 ? * Mon#3".toList
  have hws' := areWords_words " 0\t0,30 9-17/2 ?  * mON#3".toList
  obtain ⟨hiff, heq, -⟩ := read_sameLetters Dialect.spring_mem_all hws hws' (by decide)
  have hread : read Dialect.spring "0 0,30 9-17/2 ? * Mon#3".toList = .ok thirdMonday := by cbv
  obtain ⟨s, hs⟩ := hiff.1 ⟨_, hread⟩
  obtain ⟨rfl, -⟩ := heq _ _ hread hs
  exact ⟨hread, hs⟩

end Schedule

end CronSchedule
