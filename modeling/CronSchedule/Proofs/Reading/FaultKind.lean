import CronSchedule.Proofs.Reading.Struck

/-!
# The kinds of faults of a field

A field is refused for one of three reasons: its text cannot be read, a numeral in it denotes no
number, or the expression breaks a rule. The second needs a digit beyond ASCII, and such a digit is
let through only as a part of a name.

* `Raises`: what a computation fails with, if it fails.
* `Expr.raises_read`: a text that is refused cannot be read, or one of its numerals denotes nothing.
* `Expr.kind_of_read`: **where names are spelled in letters, no numeral is refused.**
* `Expr.kind_of_check`: **an expression is refused only because it breaks a rule.**
-/

namespace CronSchedule

open Text

/-! ### What a computation fails with -/

section

variable {ε α β : Type} {P : ε → Prop}

/-- A computation succeeds, or fails with an error of a certain kind. -/
def Raises (P : ε → Prop) : Except ε α → Prop
  | .ok _ => True
  | .error f => P f

theorem Raises.bind {x : Except ε α} {g : α → Except ε β} (hx : Raises P x)
    (hg : ∀ a, x = .ok a → Raises P (g a)) : Raises P (x >>= g) := by
  cases x with
  | error f => exact hx
  | ok a => exact hg a rfl

theorem Raises.of_error {x : Except ε α} {f : ε} (hx : Raises P x) (h : x = .error f) : P f := by
  rw [h] at hx
  exact hx

theorem raises_mapM {g : α → Except ε β} {l : List α} (h : ∀ a ∈ l, Raises P (g a)) :
    Raises P (l.mapM g) := by
  induction l with
  | nil => exact trivial
  | cons a l ih =>
    obtain ⟨ha, hl⟩ := List.forall_mem_cons.1 h
    rw [List.mapM_cons]
    exact ha.bind fun b _ => (ih hl).bind fun bs _ => trivial

end

/-- What holds of every code point of ASCII holds of its characters. -/
theorem Text.forall_ascii {P : Char → Prop} (hP : ∀ n < 128, P (Char.ofNat n)) {c : Char}
    (h : c.toNat < 128) : P c := by
  have hc := hP c.toNat h
  rwa [Char.ofNat_toNat] at hc

/-- The names of a field are spelled in letters of ASCII. -/
def FieldRule.Lettered (r : FieldRule) : Prop := ∀ n ∈ r.names, ∀ c ∈ n.1.toList, c.isAlpha = true

instance (r : FieldRule) : Decidable r.Lettered :=
  decidable_of_iff ((r.names.all fun n => n.1.toList.all Char.isAlpha) = true) (by
    simp only [FieldRule.Lettered, List.all_eq_true])

theorem Dialect.lettered : ∀ D ∈ Dialect.all, ∀ d ∈ D.fields, d.rule.Lettered := by
  decide

namespace Expr

variable {r : FieldRule} {d : FieldDefinition}
  {text part t ds word cs : List Char} {c : Char} {f : Fault}

/-! ### Texts -/

/-- What is wrong with a text that is not read: it has no meaning, or it has a numeral that denotes
no number. -/
def Unreadable (text : List Char) (f : Fault) : Prop :=
  f.kind = .parse ∨
    ∃ ds, f = .numeral ds ∧ digitsValue? ds = none ∧ ds ⊆ text ∧ ∀ c ∈ ds, isDigit c = true

theorem raises_readNumeral (hds : isNumeral ds = true) (h : ds ⊆ text) :
    Raises (Unreadable text) (readNumeral ds) := by
  rw [readNumeral]
  rw [isNumeral, Bool.and_eq_true, List.all_eq_true] at hds
  cases hvalue : digitsValue? ds with
  | some n => exact trivial
  | none => exact .inr ⟨ds, rfl, hvalue, h, hds.2⟩

theorem raises_readValue (h : t ⊆ text) : Raises (Unreadable text) (readValue r part t) := by
  rw [readValue]
  cases r.named? t with
  | some v => exact trivial
  | none =>
    by_cases hnumeral : isNumeral t = true
    · simp only [if_pos hnumeral]
      exact raises_readNumeral hnumeral h
    · simp only [if_neg hnumeral]
      exact .inl rfl

theorem raises_requireNumeral (part t : List Char) (fault : PartFault) :
    Raises (Unreadable text) (requireNumeral part t fault) := by
  rw [requireNumeral]
  split
  · exact trivial
  · exact .inl rfl

theorem requireNumeral_eq_ok {fault : PartFault} {u : Unit}
    (h : requireNumeral part t fault = .ok u) : isNumeral t = true := by
  rw [requireNumeral] at h
  split at h
  · next hnumeral => exact hnumeral
  · cases h

theorem cut_subset {sep : Char} (h : sep ∈ part) :
    (cut sep part).1 ⊆ part ∧ (cut sep part).2 ⊆ part := by
  have hpart := append_cut h
  constructor
  · intro c hc
    rw [← hpart]
    exact List.mem_append_left _ hc
  · intro c hc
    rw [← hpart]
    exact List.mem_append_right _ (List.mem_cons_of_mem _ hc)

theorem raises_readRange (h : part ⊆ text) : Raises (Unreadable text) (readRange r part) := by
  rw [readRange]
  by_cases hhead : part.head? = some '-'
  · rw [if_pos hhead]
    exact .inl rfl
  rw [if_neg hhead]
  by_cases hsign : part.contains '-' = true
  · rw [if_pos hsign]
    obtain ⟨hfront, hback⟩ := cut_subset (List.contains_iff_mem.1 hsign)
    simp only
    split
    · exact .inl rfl
    · refine (raises_readValue (List.Subset.trans hfront h)).bind fun v _ => ?_
      exact (raises_readValue (List.Subset.trans hback h)).bind fun w _ => trivial
  · rw [if_neg hsign]
    exact (raises_readValue h).bind fun v _ => trivial

theorem valueBefore?_subset {sign : Char} (h : valueBefore? r sign part = some t) : t ⊆ part := by
  rw [valueBefore?] at h
  split at h
  · cases h
    exact List.dropLast_subset part
  · cases h

theorem raises_readSigned (h : part ⊆ text) : Raises (Unreadable text) (readSigned r part) := by
  rw [readSigned]
  split
  · exact trivial
  split
  · exact trivial
  split
  · refine (raises_requireNumeral _ _ _).bind fun _ hnumeral => ?_
    have hoffset : part.drop 2 ⊆ text := List.Subset.trans (List.drop_subset 2 part) h
    exact (raises_readNumeral (requireNumeral_eq_ok hnumeral) hoffset).bind fun n _ => trivial
  split
  · next day hday =>
    have hvalue := List.Subset.trans (valueBefore?_subset hday) h
    exact (raises_readValue hvalue).bind fun v _ => trivial
  split
  · next weekday hweekday =>
    have hvalue := List.Subset.trans (valueBefore?_subset hweekday) h
    exact (raises_readValue hvalue).bind fun v _ => trivial
  split
  · next hnth =>
    obtain ⟨hfront, hback⟩ := cut_subset (List.contains_iff_mem.1 hnth)
    refine (raises_requireNumeral _ _ _).bind fun _ hnumeral => ?_
    refine (raises_readValue (List.Subset.trans hfront h)).bind fun v _ => ?_
    exact (raises_readNumeral (requireNumeral_eq_ok hnumeral) (List.Subset.trans hback h)).bind
      fun n _ => trivial
  · exact raises_readRange h

theorem raises_readPlain (h : part ⊆ text) : Raises (Unreadable text) (readPlain r part) := by
  rw [readPlain]
  split
  · exact trivial
  · exact raises_readSigned h

theorem raises_readStep (h : part ⊆ text) (hstep : '/' ∈ part) :
    Raises (Unreadable text) (readStep r part) := by
  obtain ⟨hfront, hback⟩ := cut_subset hstep
  rw [readStep]
  simp only
  split
  · exact .inl rfl
  refine (raises_requireNumeral _ _ _).bind fun _ hnumeral => ?_
  have hperiod := raises_readNumeral (requireNumeral_eq_ok hnumeral) (List.Subset.trans hback h)
  have hbase : ∀ base : Expr, Raises (Unreadable text) (if base.isStepBase = true then
      (readNumeral (cut '/' part).2 >>= fun p => pure (.every base p) : Except Fault Expr)
      else throw (.part part .stepBase)) := by
    intro base
    split
    · exact hperiod.bind fun p _ => trivial
    · exact .inl rfl
  split
  · exact hbase .always
  · exact (raises_readPlain (List.Subset.trans hfront h)).bind fun base _ => hbase base

theorem raises_readPart (h : part ⊆ text) : Raises (Unreadable text) (readPart r part) := by
  rw [readPart]
  split
  · exact trivial
  split
  · next hstep => exact raises_readStep h (List.contains_iff_mem.1 hstep)
  · exact raises_readSigned h

theorem subset_of_mem_pieces {sep : Char} (h : part ∈ pieces sep text) : part ⊆ text := by
  induction text generalizing part with
  | nil =>
    rw [List.mem_singleton.1 h]
    exact List.nil_subset []
  | cons c cs ih =>
    rw [pieces] at h
    split at h
    · rcases List.mem_cons.1 h with rfl | h
      · exact List.nil_subset _
      · exact List.subset_cons_of_subset c (ih h)
    · cases hps : pieces sep cs with
      | nil => exact absurd hps (pieces_ne_nil sep cs)
      | cons p ps =>
        rw [hps] at h ih
        rcases List.mem_cons.1 h with rfl | h
        · exact List.cons_subset_cons c (ih List.mem_cons_self)
        · exact List.subset_cons_of_subset c (ih (List.mem_cons_of_mem p h))

/-- **A text that is refused cannot be read, or one of its numerals denotes no number.** -/
theorem raises_read (d : FieldDefinition) (token : List Char) :
    Raises (Unreadable (upper (trim token))) (read d token) := by
  rw [read]
  generalize upper (trim token) = text
  split
  · exact .inl rfl
  split
  · exact .inl rfl
  split
  · next p hp =>
    exact raises_readPart (subset_of_mem_pieces (hp ▸ List.mem_singleton_self p))
  · split
    · exact .inl rfl
    · refine (raises_mapM fun p hp => ?_).bind fun es _ => trivial
      exact raises_readPart (subset_of_mem_pieces hp)

/-! ### Names in letters -/

/-- A character of a text is left when a word is struck out, unless it is one of the word. -/
theorem mem_strike_go (hword : word ≠ []) (skip : Nat) (hc : c ∈ cs) :
    c ∈ cs.take skip ∨ c ∈ word ∨ c ∈ strike.go word skip cs := by
  induction cs generalizing skip with
  | nil => cases hc
  | cons x cs ih =>
    cases skip with
    | succ skip =>
      rw [List.take_succ_cons, strike.go, List.mem_cons]
      rcases List.mem_cons.1 hc with rfl | hc
      · exact .inl (.inl rfl)
      · rcases ih skip hc with h | h
        · exact .inl (.inr h)
        · exact .inr h
    | zero =>
      right
      rw [strike.go]
      by_cases hp : word.isPrefixOf (x :: cs) = true
      · -- the characters of the occurrence are those of the word
        obtain ⟨rest, hrest⟩ := List.isPrefixOf_iff_prefix.1 hp
        obtain ⟨w, word, rfl⟩ := List.exists_cons_of_ne_nil hword
        obtain ⟨rfl, rfl⟩ := List.cons.inj hrest
        rw [if_pos hp, List.length_cons, Nat.add_sub_cancel]
        rcases List.mem_cons.1 hc with rfl | hc
        · exact .inl List.mem_cons_self
        · rcases ih word.length hc with h | h
          · rw [List.append_eq, List.take_left] at h
            exact .inl (List.mem_cons_of_mem _ h)
          · exact h
      · rw [if_neg hp]
        rcases List.mem_cons.1 hc with rfl | hc
        · exact .inr List.mem_cons_self
        · rcases ih 0 hc with h | h | h
          · cases h
          · exact .inl h
          · exact .inr (List.mem_cons_of_mem x h)

theorem mem_strikeAll (words : List (List Char)) (hc : c ∈ cs) :
    (∃ w ∈ words, c ∈ w) ∨ c ∈ strikeAll words cs := by
  induction words generalizing cs with
  | nil => exact .inr hc
  | cons w words ih =>
    have hleft : c ∈ w ∨ c ∈ strike w cs := by
      rw [strike]
      split
      · exact .inr hc
      · next hw =>
        rw [List.isEmpty_iff] at hw
        rcases mem_strike_go hw 0 hc with h | h
        · cases h
        · exact h
    rcases hleft with h | h
    · exact .inl ⟨w, List.mem_cons_self, h⟩
    · rcases ih h with ⟨v, hv, h⟩ | h
      · exact .inl ⟨v, List.mem_cons_of_mem w hv, h⟩
      · exact .inr h

theorem lt_of_isAlpha (h : c.isAlpha = true) : c.toNat < 128 := by
  have hle : c.val ≤ 'z'.val := by
    rcases Bool.or_eq_true_iff.1 h with h | h
    · have hupper : c.val ≤ 'Z'.val := (of_decide_eq_true h).2
      exact UInt32.le_trans hupper (by decide)
    · exact of_decide_eq_true (Bool.and_eq_true_iff.1 h).2
  rw [UInt32.le_iff_toNat_le] at hle
  change c.toNat ≤ 122 at hle
  omega

/-- Among the characters of ASCII the digits are its own. -/
theorem isDigit_of_lt (h : c.toNat < 128) : isDigit c = c.isDigit :=
  forall_ascii (P := fun c => isDigit c = c.isDigit) (by decide) h

/-- Where names are spelled in letters, only digits of ASCII are let through. -/
theorem isDigit_of_foreignChars (hr : r.Lettered) (hforeign : foreignChars r text = [])
    (hc : c ∈ text) (hdigit : isDigit c = true) : c.isDigit = true := by
  rcases mem_strikeAll (namesByLength r) hc with ⟨w, hw, hcw⟩ | hleft
  · rw [namesByLength, List.mem_mergeSort, List.mem_map] at hw
    obtain ⟨n, hn, rfl⟩ := hw
    rwa [← isDigit_of_lt (lt_of_isAlpha (hr n hn c hcw))]
  · apply isDigit_of_allowed (r := r) hdigit
    rw [foreignChars, List.eq_nil_iff_forall_not_mem] at hforeign
    have hnot := hforeign c
    rw [List.mem_eraseDups, List.mem_filter] at hnot
    simpa using fun h => hnot ⟨hleft, h⟩

/-- **Where the names of a field are spelled in letters, a text that is refused cannot be read.** -/
theorem kind_of_read (hr : d.rule.Lettered) {token : List Char} (h : read d token = .error f) :
    f.kind = .parse := by
  by_cases hforeign : foreignChars d.rule (upper (trim token)) = []
  · rcases (raises_read d token).of_error h with hkind | ⟨ds, -, hvalue, hsub, hdigits⟩
    · exact hkind
    · -- digits of ASCII always denote a number
      rw [digitsValue?_of_isDigits fun c hc =>
        isDigit_of_foreignChars hr hforeign (hsub hc) (hdigits c hc)] at hvalue
      cases hvalue
  · simp only [read] at h
    split at h
    · cases h
      rfl
    · rw [if_pos (by simpa using hforeign)] at h
      cases h
      rfl

/-! ### Rules -/

/-- The fault of an expression that breaks a rule. -/
def BreaksRule (f : Fault) : Prop := f.kind = .validation

theorem raises_requireSign {allowed : Bool} {sign : Sign} :
    Raises BreaksRule (requireSign allowed sign d) := by
  rw [requireSign]
  split
  · exact trivial
  · exact rfl

theorem raises_requireInRange {v : Int} : Raises BreaksRule (requireInRange v d) := by
  rw [requireInRange]
  split
  · exact trivial
  · exact rfl

theorem raises_require {holds : Bool} (hf : BreaksRule f) :
    Raises BreaksRule (require holds f) := by
  rw [require]
  split
  · exact trivial
  · exact hf

mutual

theorem raises_check (d : FieldDefinition) : ∀ e : Expr, Raises BreaksRule (check d e)
  | .always => trivial
  | .question | .last none | .nearestWeekday none => by
    rw [check]
    exact raises_requireSign
  | .on v none => by
    rw [check]
    exact raises_requireInRange
  | .on v (some n) => by
    rw [check]
    exact raises_requireInRange.bind fun _ _ => raises_requireSign.bind fun _ _ =>
      raises_require (by rfl)
  | .between s e => by
    rw [check]
    exact raises_requireInRange.bind fun _ _ => raises_requireInRange.bind fun _ _ =>
      raises_require (by rfl)
  | .every base p => by
    rw [check]
    exact (raises_require (by rfl)).bind fun _ _ => (raises_require (by rfl)).bind fun _ _ =>
      raises_check d base
  | .list es => by
    rw [check]
    exact (raises_require (by rfl)).bind fun _ _ => raises_checkMembers d (.list es) es
  | .last (some w) => by
    rw [check]
    exact raises_requireSign.bind fun _ _ => (raises_require (by rfl)).bind fun _ _ =>
      raises_requireInRange
  | .lastOffset n => by
    rw [check]
    exact raises_requireSign.bind fun _ _ => (raises_require (by rfl)).bind fun _ _ =>
      raises_require (by rfl)
  | .nearestWeekday (some day) => by
    rw [check]
    exact raises_requireSign.bind fun _ _ => raises_requireInRange

theorem raises_checkMembers (d : FieldDefinition) (whole : Expr) :
    ∀ es : List Expr, Raises BreaksRule (checkMembers d whole es)
  | [] => trivial
  | e :: es => by
    rw [checkMembers]
    exact (raises_require (by rfl)).bind fun _ _ => (raises_check d e).bind fun _ _ =>
      raises_checkMembers d whole es

end

/-- **An expression is refused only because it breaks a rule.** -/
theorem kind_of_check {e : Expr} (h : check d e = .error f) : f.kind = .validation :=
  (raises_check d e).of_error h

end Expr

end CronSchedule
