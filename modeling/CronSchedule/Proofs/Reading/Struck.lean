import CronSchedule.Expr.Read
import CronSchedule.Proofs.Accepted
import CronSchedule.Proofs.Reading.Text

/-!
# What is left when the names are struck out

Before a field is read, the names are struck out of its text, and what is left has to have a meaning
in the field. No name has a digit or one of the signs in it that take a text apart. So nothing is
struck out across them, and the test of a text is that of its pieces. The letters `L` and `W` do
stand in names; behind a name they are left.

* `FieldRule.Spelled`: what the names of a field look like; `Dialect.rule_spelled`.
* `Expr.Clean`: whether what is left of a text has a meaning in the field.
* `Expr.clean_append`: **a text is clean if and only if its pieces are**, wherever it is taken
  apart.
* `Expr.isDigits_of_clean`: a numeral of a clean text has only digits of ASCII.
-/

namespace CronSchedule

open Text

namespace Text

variable {sep c : Char} {word cs ds : List Char}

/-! ### Striking out -/

/-- A word without a character stands in front of a text if and only if it stands in front of what
comes before the character. -/
theorem isPrefixOf_append (h : sep ∉ word) (a b : List Char) :
    word.isPrefixOf (a ++ sep :: b) = word.isPrefixOf a := by
  induction word generalizing a with
  | nil => rfl
  | cons w word ih =>
    obtain ⟨hw, hword⟩ := not_or.1 (mt List.mem_cons.2 h)
    cases a with
    | nil =>
      have hne : (w == sep) = false := beq_eq_false_iff_ne.2 (Ne.symm hw)
      simp only [List.nil_append, List.isPrefixOf, hne, Bool.false_and]
    | cons c a => simp only [List.cons_append, List.isPrefixOf, ih hword]

theorem strike_go_append (hne : word ≠ []) (h : sep ∉ word) (a b : List Char) (skip : Nat)
    (hskip : skip ≤ a.length) :
    strike.go word skip (a ++ sep :: b) = strike.go word skip a ++ sep :: strike.go word 0 b := by
  -- an occurrence that starts before the character ends before it
  induction a generalizing skip with
  | nil =>
    obtain rfl : skip = 0 := Nat.le_zero.1 hskip
    have hstart := isPrefixOf_append h [] b
    have hempty : word.isPrefixOf [] = false := by
      cases word with
      | nil => exact absurd rfl hne
      | cons w word => rfl
    rw [hempty, List.nil_append] at hstart
    simp only [List.nil_append, strike.go, hstart, Bool.false_eq_true, if_false]
  | cons c a ih =>
    cases skip with
    | succ skip => exact ih skip (Nat.le_of_succ_le_succ hskip)
    | zero =>
      have hstart := isPrefixOf_append h (c :: a) b
      rw [List.cons_append] at hstart
      rw [List.cons_append, strike.go, strike.go, hstart]
      by_cases hp : word.isPrefixOf (c :: a) = true
      · have hlength := (List.isPrefixOf_iff_prefix.1 hp).length_le
        rw [List.length_cons] at hlength
        rw [if_pos hp, if_pos hp, ih (word.length - 1) (by omega)]
      · rw [if_neg hp, if_neg hp, ih 0 (Nat.zero_le _), List.cons_append]

/-- Nothing is struck out across a character that the word does not have. -/
theorem strike_append (h : sep ∉ word) (a b : List Char) :
    strike word (a ++ sep :: b) = strike word a ++ sep :: strike word b := by
  rw [strike, strike, strike]
  by_cases hempty : word.isEmpty = true
  · rw [if_pos hempty, if_pos hempty, if_pos hempty]
  · rw [if_neg hempty, if_neg hempty, if_neg hempty]
    rw [List.isEmpty_iff] at hempty
    exact strike_go_append hempty h a b 0 (Nat.zero_le _)

/-- A text without the occurrences of several words, struck out one word after the other. -/
def strikeAll (words : List (List Char)) (cs : List Char) : List Char :=
  words.foldl (fun rest word => strike word rest) cs

theorem strikeAll_append {words : List (List Char)} (h : ∀ w ∈ words, sep ∉ w) (a b : List Char) :
    strikeAll words (a ++ sep :: b) = strikeAll words a ++ sep :: strikeAll words b := by
  induction words generalizing a b with
  | nil => rfl
  | cons w words ih =>
    obtain ⟨hw, hwords⟩ := List.forall_mem_cons.1 h
    simp only [strikeAll, List.foldl_cons, strike_append hw] at ih ⊢
    exact ih hwords _ _

theorem strikeAll_nil (words : List (List Char)) : strikeAll words [] = [] := by
  have hempty : ∀ word, strike word [] = [] := by
    intro word
    rw [strike, strike.go, ite_self]
  induction words with
  | nil => rfl
  | cons w words ih =>
    rw [strikeAll, List.foldl_cons, hempty]
    exact ih

/-- Whether a sign takes a text apart or is a word by itself. -/
def isSplit (c : Char) : Bool := [',', '-', '*', '/', '?', '#'].contains c

theorem isDigit_of_isSplit (h : isSplit c = true) : isDigit c = false := by
  have hsigns : [',', '-', '*', '/', '?', '#'].all (fun c => !isDigit c) = true := by decide
  rw [List.all_eq_true] at hsigns
  simpa using hsigns c (List.contains_iff_mem.1 h)

end Text

/-! ### The names of a field -/

/-- No name has a digit in it or a sign that takes a text apart, each stands for one number, longer
ones come first. When they are struck out, a name leaves nothing, and a letter that is a sign is
left behind a name and in front of one; no name is spelled in this way. -/
structure FieldRule.Spelled (r : FieldRule) : Prop where
  apart : ∀ n ∈ r.names, ∀ c ∈ n.1.toList, isDigit c = false ∧ isSplit c = false
  named : ∀ n ∈ r.names, n.1.toList ≠ [] ∧ r.named? n.1.toList = some n.2
  ordered : r.names.Pairwise fun n m => m.1.toList.length ≤ n.1.toList.length
  struck : ∀ n ∈ r.names, strikeAll (r.names.map (·.1.toList)) n.1.toList = []
  signed : ∀ w ∈ [] :: r.names.map (·.1.toList), ∀ sign ∈ ['L', 'W'],
    strikeAll (r.names.map (·.1.toList)) (w ++ [sign]) = [sign] ∧ r.named? (w ++ [sign]) = none
  lastWorkday : strikeAll (r.names.map (·.1.toList)) ['L', 'W'] = ['L', 'W'] ∧
    r.named? ['L', 'W'] = none

/-- The rules of the fields of the four dialects. -/
def Dialect.rules : List FieldRule := all.flatMap fun D => D.fields.map (·.rule)

theorem Dialect.rule_spelled : ∀ D ∈ all, ∀ d ∈ D.fields, d.rule.Spelled := by
  have hapart : ∀ r ∈ rules, ∀ n ∈ r.names,
      n.1.toList.all (fun c => !isDigit c && !isSplit c) = true := by decide
  have hnamed : ∀ r ∈ rules, ∀ n ∈ r.names,
      n.1.toList ≠ [] ∧ r.named? n.1.toList = some n.2 := by decide
  have hordered : ∀ r ∈ rules,
      r.names.Pairwise fun n m => m.1.toList.length ≤ n.1.toList.length := by decide
  have hstruck : ∀ r ∈ rules, ∀ n ∈ r.names,
      strikeAll (r.names.map (·.1.toList)) n.1.toList = [] := by decide
  have hlast : ∀ r ∈ rules, ∀ w ∈ [] :: r.names.map (·.1.toList),
      strikeAll (r.names.map (·.1.toList)) (w ++ ['L']) = ['L'] ∧
        r.named? (w ++ ['L']) = none := by decide
  have hweekday : ∀ r ∈ rules, ∀ w ∈ [] :: r.names.map (·.1.toList),
      strikeAll (r.names.map (·.1.toList)) (w ++ ['W']) = ['W'] ∧
        r.named? (w ++ ['W']) = none := by decide
  have hworkday : ∀ r ∈ rules, strikeAll (r.names.map (·.1.toList)) ['L', 'W'] = ['L', 'W'] ∧
      r.named? ['L', 'W'] = none := by decide
  intro D hD d hd
  have hr : d.rule ∈ rules := List.mem_flatMap.2 ⟨D, hD, List.mem_map_of_mem hd⟩
  generalize d.rule = r at hr ⊢
  refine ⟨?_, hnamed r hr, hordered r hr, hstruck r hr, ?_, hworkday r hr⟩
  · intro n hn c hc
    have hname := List.all_eq_true.1 (hapart r hr n hn) c hc
    simpa using hname
  · intro w hw sign hs
    rcases List.mem_cons.1 hs with rfl | hs
    · exact hlast r hr w hw
    · rw [List.mem_singleton.1 hs]
      exact hweekday r hr w hw

namespace Expr

variable {r : FieldRule} {c sign : Char} {text ds : List Char} {v : Int}

/-- The names of a field are struck out in their order. -/
theorem foreignChars_eq (hr : r.Spelled) (text : List Char) : foreignChars r text =
    ((strikeAll (r.names.map (·.1.toList)) text).filter fun c => !isAllowedChar r c).eraseDups := by
  have hordered : namesByLength r = r.names.map (·.1.toList) := by
    refine List.mergeSort_of_pairwise (List.pairwise_map.2 (hr.ordered.imp ?_))
    intro n m h
    exact decide_eq_true h
  rw [foreignChars, hordered]
  rfl

/-- Whether every character that is left has a meaning in the field, when its names are struck
out. -/
def Clean (r : FieldRule) (text : List Char) : Prop :=
  ∀ c ∈ strikeAll (r.names.map (·.1.toList)) text, isAllowedChar r c = true

theorem foreignChars_eq_nil_iff (hr : r.Spelled) : foreignChars r text = [] ↔ Clean r text := by
  rw [foreignChars_eq hr, Clean, List.eq_nil_iff_forall_not_mem]
  simp only [List.mem_eraseDups, List.mem_filter, Bool.not_eq_true', not_and, Bool.not_eq_false]

/-- Whether no name has a character in it. -/
def Apart (r : FieldRule) (c : Char) : Prop := ∀ n ∈ r.names, c ∉ n.1.toList

theorem apart_of_isSplit (hr : r.Spelled) (hc : isSplit c = true) : Apart r c := by
  intro n hn hmem
  have hnot := (hr.apart n hn c hmem).2
  rw [hc] at hnot
  cases hnot

theorem apart_of_isDigit (hr : r.Spelled) (hc : isDigit c = true) : Apart r c := by
  intro n hn hmem
  have hnot := (hr.apart n hn c hmem).1
  rw [hc] at hnot
  cases hnot

theorem forall_not_mem_of_apart (h : Apart r c) : ∀ w ∈ r.names.map (·.1.toList), c ∉ w := by
  intro w hw
  obtain ⟨n, hn, rfl⟩ := List.mem_map.1 hw
  exact h n hn

theorem named?_of_apart (h : Apart r c) (hc : c ∈ text) : r.named? text = none := by
  rw [FieldRule.named?, Option.map_eq_none_iff, List.find?_eq_none]
  intro n hn heq
  rw [← beq_iff_eq.1 heq] at hc
  exact h n hn hc

theorem mem_of_named? (h : r.named? text = some v) :
    ∃ n ∈ r.names, n.1.toList = text ∧ n.2 = v := by
  obtain ⟨n, hn, rfl⟩ := Option.map_eq_some_iff.1 h
  have hname := List.find?_some hn
  exact ⟨n, List.mem_of_find?_eq_some hn, beq_iff_eq.1 hname, rfl⟩

/-! ### Clean texts -/

theorem clean_nil (r : FieldRule) : Clean r [] := by
  rw [Clean, strikeAll_nil]
  exact List.forall_mem_nil _

/-- **A text that is taken apart at a character that no name has is clean if and only if its pieces
are** and the character has a meaning. -/
theorem clean_append (h : Apart r c) (a b : List Char) :
    Clean r (a ++ c :: b) ↔ Clean r a ∧ isAllowedChar r c = true ∧ Clean r b := by
  rw [Clean, strikeAll_append (forall_not_mem_of_apart h), List.forall_mem_append,
    List.forall_mem_cons, Clean, Clean]

theorem clean_cons (h : Apart r c) (b : List Char) :
    Clean r (c :: b) ↔ isAllowedChar r c = true ∧ Clean r b := by
  have happend := clean_append h [] b
  rwa [List.nil_append, and_iff_right (clean_nil r)] at happend

theorem clean_digits_append (hr : r.Spelled) (hds : ∀ c ∈ ds, isDigit c = true) (b : List Char) :
    Clean r (ds ++ b) ↔ (∀ c ∈ ds, isAllowedChar r c = true) ∧ Clean r b := by
  induction ds with
  | nil => simp
  | cons c ds ih =>
    obtain ⟨hc, hds⟩ := List.forall_mem_cons.1 hds
    rw [List.cons_append, clean_cons (apart_of_isDigit hr hc), ih hds, List.forall_mem_cons,
      and_assoc]

theorem clean_name (hr : r.Spelled) {n : String × Int} (hn : n ∈ r.names) :
    Clean r n.1.toList := by
  rw [Clean, hr.struck n hn]
  exact List.forall_mem_nil _

/-- A letter that is a sign is left behind a name. -/
theorem clean_name_append (hr : r.Spelled) {n : String × Int} (hn : n ∈ r.names)
    (hs : sign ∈ ['L', 'W']) :
    Clean r (n.1.toList ++ [sign]) ↔ isAllowedChar r sign = true := by
  have hw : n.1.toList ∈ [] :: r.names.map (·.1.toList) :=
    List.mem_cons_of_mem _ (List.mem_map_of_mem hn)
  rw [Clean, (hr.signed _ hw sign hs).1, List.forall_mem_singleton]

theorem clean_sign (hr : r.Spelled) (hs : sign ∈ ['L', 'W']) :
    Clean r [sign] ↔ isAllowedChar r sign = true := by
  have hleft := (hr.signed [] List.mem_cons_self sign hs).1
  rw [List.nil_append] at hleft
  rw [Clean, hleft, List.forall_mem_singleton]

theorem clean_lastWorkday (hr : r.Spelled) :
    Clean r ['L', 'W'] ↔ isAllowedChar r 'L' = true ∧ isAllowedChar r 'W' = true := by
  rw [Clean, hr.lastWorkday.1, List.forall_mem_cons, List.forall_mem_singleton]

/-- A list is clean if and only if its parts are. -/
theorem clean_intercalate (hr : r.Spelled) {ps : List (List Char)} :
    Clean r ([','].intercalate ps) ↔ ∀ p ∈ ps, Clean r p := by
  have hcomma : isAllowedChar r ',' = true := by simp [isAllowedChar]
  induction ps with
  | nil => exact iff_of_true (clean_nil r) (List.forall_mem_nil _)
  | cons p ps ih =>
    cases ps with
    | nil => rw [List.intercalate_singleton, List.forall_mem_singleton]
    | cons q qs =>
      rw [List.intercalate_cons_cons, List.append_assoc, List.singleton_append,
        clean_append (apart_of_isSplit hr rfl), and_iff_right hcomma, List.forall_mem_cons]
      exact and_congr_right fun _ => ih

/-! ### Numerals -/

/-- One or more digits of ASCII. -/
def IsDigits (ds : List Char) : Prop := ds ≠ [] ∧ ∀ c ∈ ds, c.isDigit = true

/-- The number that digits denote. -/
def number (ds : List Char) : Int := (Nat.ofDigitChars 10 ds 0 : Nat)

theorem ne_of_isDigit (hc : c.isDigit = true) (hs : sign.isDigit = false) : c ≠ sign := by
  rintro rfl
  rw [hc] at hs
  cases hs

theorem isWritten_of_isAllowedChar (h : isAllowedChar r c = true) : isWritten c = true := by
  simp only [isAllowedChar, Bool.or_eq_true, Bool.and_eq_true, beq_iff_eq] at h
  rw [isWritten, Bool.or_eq_true]
  rcases h with (((((((h | rfl) | rfl) | rfl) | rfl) | ⟨-, rfl⟩) | ⟨-, rfl⟩) | ⟨-, rfl⟩) | ⟨-, rfl⟩
  · exact .inl h
  all_goals exact .inr (by decide)

/-- A digit that has a meaning in a field is one of ASCII. -/
theorem isDigit_of_allowed (h : isDigit c = true) (ha : isAllowedChar r c = true) :
    c.isDigit = true := by
  have hascii := forall_isWritten (P := fun c => !isDigit c || c.isDigit) (by decide) (by decide)
    (isWritten_of_isAllowedChar ha)
  rwa [h] at hascii

theorem isDigit_of_ascii (h : c.isDigit = true) : isDigit c = true := by
  rw [isDigit, digitValue?, if_pos h]
  rfl

theorem isAllowedChar_of_isDigit (h : c.isDigit = true) : isAllowedChar r c = true := by
  simp [isAllowedChar, h]

/-- A numeral of a clean text has only digits of ASCII. -/
theorem isDigits_of_clean (hr : r.Spelled) (hn : isNumeral ds = true) (hc : Clean r ds) :
    IsDigits ds := by
  rw [isNumeral, Bool.and_eq_true, Bool.not_eq_true', List.isEmpty_eq_false_iff] at hn
  obtain ⟨hne, hds⟩ := hn
  rw [List.all_eq_true] at hds
  rw [← List.append_nil ds, clean_digits_append hr hds] at hc
  exact ⟨hne, fun c h => isDigit_of_allowed (hds c h) (hc.1 c h)⟩

theorem IsDigits.isNumeral (h : IsDigits ds) : isNumeral ds = true := by
  obtain ⟨hne, hds⟩ := h
  rw [Text.isNumeral, Bool.and_eq_true, Bool.not_eq_true', List.isEmpty_eq_false_iff,
    List.all_eq_true]
  exact ⟨hne, fun c hc => isDigit_of_ascii (hds c hc)⟩

theorem IsDigits.clean_append (hr : r.Spelled) (h : IsDigits ds) (b : List Char) :
    Clean r (ds ++ b) ↔ Clean r b := by
  rw [clean_digits_append hr fun c hc => isDigit_of_ascii (h.2 c hc), and_iff_right]
  exact fun c hc => isAllowedChar_of_isDigit (h.2 c hc)

theorem IsDigits.clean (hr : r.Spelled) (h : IsDigits ds) : Clean r ds := by
  rw [← List.append_nil ds, h.clean_append hr]
  exact clean_nil r

theorem IsDigits.not_mem (h : IsDigits ds) (hc : c.isDigit = false) : c ∉ ds := by
  intro hmem
  exact ne_of_isDigit (h.2 c hmem) hc rfl

theorem IsDigits.named? (hr : r.Spelled) (h : IsDigits ds) : r.named? ds = none := by
  obtain ⟨c, rest, rfl⟩ := List.exists_cons_of_ne_nil h.1
  have hdigit := isDigit_of_ascii (h.2 c List.mem_cons_self)
  exact named?_of_apart (apart_of_isDigit hr hdigit) List.mem_cons_self

theorem digitsValue?_of_isDigits (h : ∀ c ∈ ds, c.isDigit = true) :
    digitsValue? ds = some (Nat.ofDigitChars 10 ds 0) := by
  suffices hfrom : ∀ n, ds.foldlM (fun n c => (digitValue? c).map (10 * n + ·)) n =
      some (Nat.ofDigitChars 10 ds n) from hfrom 0
  induction ds with
  | nil => exact fun n => rfl
  | cons c ds ih =>
    obtain ⟨hc, hds⟩ := List.forall_mem_cons.1 h
    intro n
    rw [List.foldlM_cons, digitValue?, if_pos hc]
    exact ih hds _

theorem IsDigits.readNumeral (h : IsDigits ds) :
    readNumeral ds = .ok (number ds) := by
  rw [Expr.readNumeral, digitsValue?_of_isDigits h.2]
  rfl

end Expr

end CronSchedule
