import CronSchedule.Proofs.Reading.Struck
import Mathlib.Data.List.Forall2

/-!
# The grammar of a field

Which texts a field has, and what each of them means. The reader tells the forms apart by an ordered
cascade of tests on what is left of a text; the grammar has no order and names every character.

* `Expr.ValueText`, `Expr.BaseText`, `Expr.PartText`, `Expr.FieldText`: the grammar, one constructor
  for each form.
* `Expr.ReadsAs`: what a reading gives if it gives something, and how it fails otherwise.
* `Expr.reads_part`, `Expr.reads_read`: **a part and a field are read as the grammar says, or
  refused as text that cannot be read.**
-/

namespace CronSchedule

open Text

/-- Whether `L` has a meaning in a field, by itself or in `LW`. -/
def FieldRule.UsesLast (r : FieldRule) : Prop := r.allowsLast = true ∨ r.allowsLastWeekday = true

/-- Whether `W` has a meaning in a field, by itself or in `LW`. -/
def FieldRule.UsesWeekday (r : FieldRule) : Prop :=
  r.allowsWeekday = true ∨ r.allowsLastWeekday = true

namespace Expr

variable {r : FieldRule} {d : FieldDefinition} {part text t ds rest : List Char} {v w : Int}
  {e : Expr} {c sign : Char}

/-! ### The grammar -/

/-- A value and its number: a name of the field or digits. -/
inductive ValueText (r : FieldRule) : List Char → Int → Prop
  | name {n : String × Int} (hn : n ∈ r.names) : ValueText r n.1.toList n.2
  | digits {ds : List Char} (hds : IsDigits ds) : ValueText r ds (number ds)

/-- What can stand before a step: every value, a value or a range. -/
inductive BaseText (r : FieldRule) : List Char → Expr → Prop
  | always : BaseText r ['*'] .always
  | value {t : List Char} {v : Int} (ht : ValueText r t v) : BaseText r t (.on v none)
  | range {s t : List Char} {v w : Int} (hs : ValueText r s v) (ht : ValueText r t w) :
      BaseText r (s ++ '-' :: t) (.between v w)

/-- One part of a field. -/
inductive PartText (r : FieldRule) : List Char → Expr → Prop
  | base {t : List Char} {e : Expr} (ht : BaseText r t e) : PartText r t e
  | question (h : r.allowsQuestion = true) : PartText r ['?'] .question
  | step {t ds : List Char} {e : Expr} (ht : BaseText r t e) (hds : IsDigits ds) :
      PartText r (t ++ '/' :: ds) (.every e (number ds))
  | openStep {ds : List Char} (hds : IsDigits ds) :
      PartText r ('/' :: ds) (.every .always (number ds))
  | last (h : r.UsesLast) : PartText r ['L'] (.last none)
  | lastWorkday (h : r.UsesLast) (h' : r.UsesWeekday) : PartText r ['L', 'W'] (.nearestWeekday none)
  | lastOffset {ds : List Char} (h : r.UsesLast) (hds : IsDigits ds) :
      PartText r ('L' :: '-' :: ds) (.lastOffset (number ds))
  | workday {t : List Char} {v : Int} (h : r.UsesWeekday) (ht : ValueText r t v) :
      PartText r (t ++ ['W']) (.nearestWeekday (some v))
  | lastDay {t : List Char} {v : Int} (h : r.UsesLast) (ht : ValueText r t v) :
      PartText r (t ++ ['L']) (.last (some v))
  | nth {t ds : List Char} {v : Int} (h : r.allowsNth = true) (ht : ValueText r t v)
      (hds : IsDigits ds) : PartText r (t ++ '#' :: ds) (.on v (some (number ds)))

/-- A field: one part, or several with commas between them. -/
inductive FieldText (r : FieldRule) : List Char → Expr → Prop
  | part {t : List Char} {e : Expr} (ht : PartText r t e) : FieldText r t e
  | list {ts : List (List Char)} {es : List Expr} (hts : List.Forall₂ (PartText r) ts es)
      (h : 2 ≤ ts.length) : FieldText r ([','].intercalate ts) (.list es)

/-! ### The signs that a field allows -/

@[simp] theorem isAllowedChar_last : isAllowedChar r 'L' = true ↔ r.UsesLast := by
  simp [isAllowedChar, FieldRule.UsesLast]

@[simp] theorem isAllowedChar_weekday : isAllowedChar r 'W' = true ↔ r.UsesWeekday := by
  simp [isAllowedChar, FieldRule.UsesWeekday]

@[simp] theorem isAllowedChar_nth : isAllowedChar r '#' = true ↔ r.allowsNth = true := by
  simp [isAllowedChar]

@[simp] theorem isAllowedChar_question :
    isAllowedChar r '?' = true ↔ r.allowsQuestion = true := by
  simp [isAllowedChar]

/-! ### What is read is of the grammar -/

/-- A reading gives something with a property or fails as text that cannot be read. -/
def ReadsAs {α : Type} (P : α → Prop) : Except Fault α → Prop
  | .ok a => P a
  | .error f => f.kind = .parse

theorem ReadsAs.bind {α β : Type} {P : α → Prop} {Q : β → Prop} {x : Except Fault α}
    {f : α → Except Fault β} (hx : ReadsAs P x) (hf : ∀ a, P a → ReadsAs Q (f a)) :
    ReadsAs Q (x >>= f) := by
  cases x with
  | error fault => exact hx
  | ok a => exact hf a hx

theorem ReadsAs.mono {α : Type} {P Q : α → Prop} {x : Except Fault α} (hx : ReadsAs P x)
    (h : ∀ a, P a → Q a) : ReadsAs Q x := by
  cases x with
  | error fault => exact hx
  | ok a => exact h a hx

theorem reads_requireNumeral (part text : List Char) (fault : PartFault) :
    ReadsAs (fun _ => isNumeral text = true) (requireNumeral part text fault) := by
  rw [requireNumeral]
  by_cases h : isNumeral text = true
  · rw [if_pos h]
    exact h
  · rw [if_neg h]
    rfl

theorem reads_readValue (hr : r.Spelled) (hc : Clean r text) :
    ReadsAs (ValueText r text) (readValue r part text) := by
  rw [readValue]
  cases hname : r.named? text with
  | some v =>
    obtain ⟨n, hn, rfl, rfl⟩ := mem_of_named? hname
    exact .name hn
  | none =>
    by_cases h : isNumeral text = true
    · have hds := isDigits_of_clean hr h hc
      simp only [if_pos h, hds.readNumeral]
      exact .digits hds
    · simp only [if_neg h]
      rfl

theorem valueBefore?_eq_some (h : valueBefore? r sign part = some t) :
    part = t ++ [sign] ∧ isValue r t = true := by
  rw [valueBefore?] at h
  split at h
  · next hlast =>
    rw [Bool.and_eq_true, decide_eq_true_eq, List.getLast?_eq_some_iff] at hlast
    obtain ⟨⟨t', rfl⟩, hvalue⟩ := hlast
    cases h
    rw [List.dropLast_concat] at hvalue ⊢
    exact ⟨rfl, hvalue⟩
  · cases h

/-- Before a final letter that is a sign there stands a clean value, and the field allows the
letter. -/
theorem clean_value_sign (hr : r.Spelled) (hs : sign ∈ ['L', 'W']) (ht : isValue r t = true)
    (hc : Clean r (t ++ [sign])) : Clean r t ∧ isAllowedChar r sign = true := by
  rw [isValue, Bool.or_eq_true, Option.isSome_iff_exists] at ht
  rcases ht with ⟨v, hname⟩ | hnumeral
  · obtain ⟨n, hn, rfl, -⟩ := mem_of_named? hname
    exact ⟨clean_name hr hn, (clean_name_append hr hn hs).1 hc⟩
  · have hdigits : ∀ c ∈ t, isDigit c = true := by
      rw [isNumeral, Bool.and_eq_true, List.all_eq_true] at hnumeral
      exact hnumeral.2
    obtain ⟨hallowed, hsign⟩ := (clean_digits_append hr hdigits [sign]).1 hc
    have hclean := (clean_digits_append hr hdigits []).2 ⟨hallowed, clean_nil r⟩
    rw [List.append_nil] at hclean
    exact ⟨hclean, (clean_sign hr hs).1 hsign⟩

theorem readWord?_text (hr : r.Spelled) (hc : Clean r part) (h : readWord? r part = some e) :
    PartText r part e := by
  rw [readWord?] at h
  by_cases hstar : part = ['*']
  · rw [if_pos hstar] at h
    cases h
    rw [hstar]
    exact .base .always
  rw [if_neg hstar] at h
  by_cases hquestion : part = ['?']
  · rw [if_pos hquestion] at h
    cases h
    rw [hquestion, clean_cons (apart_of_isSplit hr rfl), isAllowedChar_question] at hc
    rw [hquestion]
    exact .question hc.1
  · rw [if_neg hquestion] at h
    obtain ⟨v, hname, rfl⟩ := Option.map_eq_some_iff.1 h
    obtain ⟨n, hn, rfl, rfl⟩ := mem_of_named? hname
    exact .base (.value (.name hn))

theorem reads_readRange (hr : r.Spelled) (hc : Clean r part) :
    ReadsAs (BaseText r part) (readRange r part) := by
  rw [readRange]
  by_cases hhead : part.head? = some '-'
  · rw [if_pos hhead]
    rfl
  rw [if_neg hhead]
  by_cases hsign : part.contains '-' = true
  · rw [if_pos hsign]
    have hpart := append_cut (List.contains_iff_mem.1 hsign)
    generalize cut '-' part = pieces at hpart ⊢
    obtain ⟨front, back⟩ := pieces
    simp only at hpart ⊢
    rw [← hpart, clean_append (apart_of_isSplit hr rfl)] at hc
    split
    · rfl
    · refine (reads_readValue hr hc.1).bind fun v hv => ?_
      refine (reads_readValue hr hc.2.2).bind fun w hw => ?_
      have htext : BaseText r (front ++ '-' :: back) (.between v w) := .range hv hw
      rwa [hpart] at htext
  · rw [if_neg hsign]
    exact (reads_readValue hr hc).bind fun v hv => .value hv

theorem reads_readSigned (hr : r.Spelled) (hc : Clean r part) :
    ReadsAs (PartText r part) (readSigned r part) := by
  rw [readSigned]
  by_cases hlast : part = ['L']
  · rw [hlast, clean_sign hr (by decide), isAllowedChar_last] at hc
    rw [if_pos hlast, hlast]
    exact .last hc
  rw [if_neg hlast]
  by_cases hworkday : part = ['L', 'W']
  · rw [hworkday, clean_lastWorkday hr, isAllowedChar_last, isAllowedChar_weekday] at hc
    rw [if_pos hworkday, hworkday]
    exact .lastWorkday hc.1 hc.2
  rw [if_neg hworkday]
  by_cases hoffset : part.take 2 = ['L', '-']
  · rw [if_pos hoffset]
    have hpart := List.take_append_drop 2 part
    rw [hoffset] at hpart
    generalize part.drop 2 = offset at hpart ⊢
    rw [← hpart] at hc
    obtain ⟨hletter, -, hclean⟩ := (clean_append (apart_of_isSplit hr rfl) ['L'] offset).1 hc
    rw [clean_sign hr (by decide), isAllowedChar_last] at hletter
    refine (reads_requireNumeral _ _ _).bind fun _ hnumeral => ?_
    have hds := isDigits_of_clean hr hnumeral hclean
    rw [hds.readNumeral, ← hpart]
    exact PartText.lastOffset hletter hds
  rw [if_neg hoffset]
  cases hday : valueBefore? r 'W' part with
  | some day =>
    obtain ⟨hpart, hvalue⟩ := valueBefore?_eq_some hday
    rw [hpart] at hc ⊢
    obtain ⟨hclean, hletter⟩ := clean_value_sign hr (by decide) hvalue hc
    rw [isAllowedChar_weekday] at hletter
    exact (reads_readValue hr hclean).bind fun v hv => .workday hletter hv
  | none =>
    cases hweekday : valueBefore? r 'L' part with
    | some weekday =>
      obtain ⟨hpart, hvalue⟩ := valueBefore?_eq_some hweekday
      rw [hpart] at hc ⊢
      obtain ⟨hclean, hletter⟩ := clean_value_sign hr (by decide) hvalue hc
      rw [isAllowedChar_last] at hletter
      exact (reads_readValue hr hclean).bind fun v hv => .lastDay hletter hv
    | none =>
      by_cases hnth : part.contains '#' = true
      · simp only [if_pos hnth]
        have hpart := append_cut (List.contains_iff_mem.1 hnth)
        generalize cut '#' part = pieces at hpart ⊢
        obtain ⟨front, back⟩ := pieces
        simp only at hpart ⊢
        rw [← hpart, clean_append (apart_of_isSplit hr rfl), isAllowedChar_nth] at hc
        obtain ⟨hfront, hallowed, hback⟩ := hc
        refine (reads_requireNumeral _ _ _).bind fun _ hnumeral => ?_
        refine (reads_readValue hr hfront).bind fun v hv => ?_
        have hds := isDigits_of_clean hr hnumeral hback
        rw [hds.readNumeral, ← hpart]
        exact PartText.nth hallowed hv hds
      · simp only [if_neg hnth]
        exact (reads_readRange hr hc).mono fun e he => .base he

theorem reads_readPlain (hr : r.Spelled) (hc : Clean r part) :
    ReadsAs (PartText r part) (readPlain r part) := by
  rw [readPlain]
  cases hword : readWord? r part with
  | some e => exact readWord?_text hr hc hword
  | none => exact reads_readSigned hr hc

/-- What can carry a step is every value, a value or a range. -/
theorem PartText.base_of_isStepBase (h : PartText r t e) (he : e.isStepBase = true) :
    BaseText r t e := by
  cases h with
  | base ht => exact ht
  | _ => cases he

theorem reads_readStep (hr : r.Spelled) (hc : Clean r part) (hstep : '/' ∈ part) :
    ReadsAs (PartText r part) (readStep r part) := by
  rw [readStep]
  have hpart := append_cut hstep
  generalize cut '/' part = pieces at hpart ⊢
  obtain ⟨front, step⟩ := pieces
  simp only at hpart ⊢
  rw [← hpart, clean_append (apart_of_isSplit hr rfl)] at hc
  obtain ⟨hfront, -, hback⟩ := hc
  split
  · rfl
  refine (reads_requireNumeral _ _ _).bind fun _ hnumeral => ?_
  have hds := isDigits_of_clean hr hnumeral hback
  rw [← hpart, hds.readNumeral]
  by_cases hempty : front.isEmpty = true
  · rw [if_pos hempty, List.isEmpty_iff.1 hempty]
    exact PartText.openStep hds
  · rw [if_neg hempty]
    refine (reads_readPlain hr hfront).bind fun base hbase => ?_
    by_cases hcarries : base.isStepBase = true
    · rw [if_pos hcarries]
      exact PartText.step (hbase.base_of_isStepBase hcarries) hds
    · rw [if_neg hcarries]
      rfl

/-- **A part is read as a form of the grammar, or refused as text that cannot be read.** -/
theorem reads_part (hr : r.Spelled) (hc : Clean r part) :
    ReadsAs (PartText r part) (readPart r part) := by
  rw [readPart]
  cases hword : readWord? r part with
  | some e => exact readWord?_text hr hc hword
  | none =>
    by_cases hstep : part.contains '/' = true
    · simp only [if_pos hstep]
      exact reads_readStep hr hc (List.contains_iff_mem.1 hstep)
    · simp only [if_neg hstep]
      exact reads_readSigned hr hc

theorem reads_mapM {α β : Type} {R : α → β → Prop} {f : α → Except Fault β} {l : List α}
    (h : ∀ a ∈ l, ReadsAs (R a) (f a)) : ReadsAs (List.Forall₂ R l) (l.mapM f) := by
  induction l with
  | nil => exact .nil
  | cons a l ih =>
    obtain ⟨ha, hl⟩ := List.forall_mem_cons.1 h
    rw [List.mapM_cons]
    refine ha.bind fun b hb => ?_
    exact (ih hl).bind fun bs hbs => .cons hb hbs

/-- **A field is read as the grammar says, or refused as text that cannot be read.** -/
theorem reads_read (hr : d.rule.Spelled) (token : List Char) :
    ReadsAs (FieldText d.rule (upper (trim token))) (read d token) := by
  rw [read]
  generalize upper (trim token) = text
  split
  · rfl
  split
  · rfl
  next hforeign =>
    have hclean : Clean d.rule text := by
      rw [← foreignChars_eq_nil_iff hr]
      simpa using hforeign
    have htext := intercalate_pieces ',' text
    have hparts : ∀ p ∈ pieces ',' text, ReadsAs (PartText d.rule p) (readPart d.rule p) := by
      intro p hp
      rw [← htext] at hclean
      exact reads_part hr ((clean_intercalate hr).1 hclean p hp)
    split
    · next p hp =>
      rw [hp] at htext hparts
      rw [List.intercalate_singleton] at htext
      rw [← htext]
      exact (hparts p (List.mem_singleton_self p)).mono fun e he => .part he
    · next hmany =>
      split
      · rfl
      refine (reads_mapM hparts).bind fun es hes => ?_
      have hlength : 2 ≤ (pieces ',' text).length := by
        have hne := pieces_ne_nil ',' text
        match pieces ',' text, hmany, hne with
        | [], _, hne => exact absurd rfl hne
        | [p], hmany, _ => exact absurd rfl (hmany p)
        | p :: q :: ps, _, _ => simp
      have hlist := FieldText.list hes hlength
      rwa [htext] at hlist

end Expr

end CronSchedule
