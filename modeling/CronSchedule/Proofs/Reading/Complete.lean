import CronSchedule.Proofs.Reading.Grammar

/-!
# Every text of the grammar is read

The tests of the reader come in an order, and a text may look like several forms: a name may end in
`L`, and a value before a final sign may be part of a longer text. Each form passes the tests before
its own.

* `Expr.ne_last_of_value`: what starts with a value is none of the texts that start with `L`.
* `Expr.readPart_of_text`: **every part of the grammar is read as what it means.**
* `Expr.read_eq_ok_iff`: **the reader accepts exactly the grammar, and refuses everything else as
  text that cannot be read.**
-/

namespace CronSchedule.Expr

open Text

variable {r : FieldRule} {d : FieldDefinition} {part text s t ds : List Char} {v w : Int} {e : Expr}
  {c sign : Char}

/-! ### Values -/

theorem ValueText.ne_nil (hr : r.Spelled) (h : ValueText r t v) : t ≠ [] := by
  cases h with
  | name hn => exact (hr.named _ hn).1
  | digits hds => exact hds.1

/-- A value has none of the signs that take a text apart. -/
theorem ValueText.not_mem (hr : r.Spelled) (h : ValueText r t v) (hc : isSplit c = true) :
    c ∉ t := by
  cases h with
  | name hn => exact apart_of_isSplit hr hc _ hn
  | digits hds =>
    intro hmem
    have hdigit := isDigit_of_ascii (hds.2 c hmem)
    rw [isDigit_of_isSplit hc] at hdigit
    cases hdigit

theorem ValueText.isValue (hr : r.Spelled) (h : ValueText r t v) : isValue r t = true := by
  rw [Expr.isValue, Bool.or_eq_true]
  cases h with
  | name hn =>
    rw [(hr.named _ hn).2]
    exact .inl rfl
  | digits hds => exact .inr hds.isNumeral

theorem ValueText.readValue (hr : r.Spelled) (h : ValueText r t v) (part : List Char) :
    readValue r part t = .ok v := by
  rw [Expr.readValue]
  cases h with
  | name hn => rw [(hr.named _ hn).2]
  | digits hds =>
    rw [hds.named? hr]
    simp only [if_pos hds.isNumeral, hds.readNumeral]

theorem ValueText.clean (hr : r.Spelled) (h : ValueText r t v) : Clean r t := by
  cases h with
  | name hn => exact clean_name hr hn
  | digits hds => exact hds.clean hr

theorem ValueText.clean_append_sign (hr : r.Spelled) (h : ValueText r t v)
    (hs : sign ∈ ['L', 'W']) (ha : isAllowedChar r sign = true) : Clean r (t ++ [sign]) := by
  cases h with
  | name hn => exact (clean_name_append hr hn hs).2 ha
  | digits hds => exact (hds.clean_append hr [sign]).2 ((clean_sign hr hs).2 ha)

/-- No name is a value with a final letter that is a sign. -/
theorem ValueText.named?_append_sign (hr : r.Spelled) (h : ValueText r t v)
    (hs : sign ∈ ['L', 'W']) : r.named? (t ++ [sign]) = none := by
  cases h with
  | name hn =>
    have hw := List.mem_cons_of_mem [] (List.mem_map_of_mem (f := (·.1.toList)) hn)
    exact (hr.signed _ hw sign hs).2
  | digits hds =>
    obtain ⟨c, rest, rfl⟩ := List.exists_cons_of_ne_nil hds.1
    have hdigit := isDigit_of_ascii (hds.2 c List.mem_cons_self)
    exact named?_of_apart (apart_of_isDigit hr hdigit) List.mem_cons_self

/-- No value is one of the texts of the last day. -/
theorem ValueText.ne_last (hr : r.Spelled) (h : ValueText r t v) : t ≠ ['L'] ∧ t ≠ ['L', 'W'] := by
  cases h with
  | name hn =>
    have hnamed := (hr.named _ hn).2
    constructor
    · intro heq
      have hunnamed := (hr.signed [] List.mem_cons_self 'L' (by decide)).2
      rw [heq, ← List.nil_append ['L'], hunnamed] at hnamed
      cases hnamed
    · intro heq
      rw [heq, hr.lastWorkday.2] at hnamed
      cases hnamed
  | digits hds =>
    have hletter := hds.not_mem (c := 'L') rfl
    constructor
    · rintro rfl
      exact hletter List.mem_cons_self
    · rintro rfl
      exact hletter List.mem_cons_self

/-- What starts with a value is none of the texts that start with `L`. -/
theorem ne_last_of_value (hr : r.Spelled) (h : ValueText r t v) (rest : List Char) :
    t ++ rest ≠ ['L'] ∧ t ++ rest ≠ ['L', 'W'] ∧ (t ++ rest).take 2 ≠ ['L', '-'] := by
  obtain ⟨h1, h2⟩ := h.ne_last hr
  have hminus : '-' ∉ t := h.not_mem hr rfl
  cases t with
  | nil => exact absurd rfl (h.ne_nil hr)
  | cons a t =>
    cases t with
    | nil =>
      -- the letter alone would be a value
      have ha : a ≠ 'L' := fun ha => h1 (by rw [ha])
      simp [ha]
    | cons b t =>
      have hb : b ≠ '-' := by
        rintro rfl
        exact hminus (by simp)
      refine ⟨by simp, ?_, by simp [hb]⟩
      intro heq
      simp only [List.cons_append, List.cons.injEq, List.append_eq_nil_iff] at heq
      obtain ⟨rfl, rfl, rfl, -⟩ := heq
      exact h2 rfl

/-! ### Tests that other forms pass -/

theorem readWord?_of_mem (hr : r.Spelled) (hs : isSplit c = true) (hstar : c ≠ '*')
    (hquestion : c ≠ '?') (hc : c ∈ part) : readWord? r part = none := by
  have h1 : part ≠ ['*'] := by
    rintro rfl
    exact hstar (List.mem_singleton.1 hc)
  have h2 : part ≠ ['?'] := by
    rintro rfl
    exact hquestion (List.mem_singleton.1 hc)
  rw [readWord?, if_neg h1, if_neg h2, named?_of_apart (apart_of_isSplit hr hs) hc]
  rfl

theorem readWord?_append_sign (hr : r.Spelled) (h : ValueText r t v) (hs : sign ∈ ['L', 'W']) :
    readWord? r (t ++ [sign]) = none := by
  have hne := h.ne_nil hr
  have hword : ∀ c : Char, t ++ [sign] ≠ [c] := by
    intro c heq
    have hlength := congrArg List.length heq
    have hpos := List.length_pos_iff.2 hne
    simp only [List.length_append, List.length_cons, List.length_nil] at hlength
    omega
  rw [readWord?, if_neg (hword '*'), if_neg (hword '?'), h.named?_append_sign hr hs]
  rfl

/-- A text with a sign that values do not have is no value with a final letter, unless the sign
comes last. -/
theorem valueBefore?_of_mem (hr : r.Spelled) (hs : isSplit c = true) (hc : c ∈ part.dropLast) :
    valueBefore? r sign part = none := by
  have hvalue : isValue r part.dropLast = false := by
    rw [isValue, named?_of_apart (apart_of_isSplit hr hs) hc, Option.isSome_none, Bool.false_or,
      isNumeral, Bool.and_eq_false_iff, List.all_eq_false]
    exact .inr ⟨c, hc, by simp [isDigit_of_isSplit hs]⟩
  rw [valueBefore?, hvalue, Bool.and_false]
  rfl

theorem valueBefore?_of_ne {final : Char} (h : final ≠ sign) (p : List Char) :
    valueBefore? r sign (p ++ [final]) = none := by
  rw [valueBefore?, List.getLast?_concat]
  simp [h]

theorem valueBefore?_of_digits (hds : IsDigits ds) (hs : sign.isDigit = false) (p : List Char) :
    valueBefore? r sign (p ++ ds) = none := by
  obtain ⟨hne, hdigits⟩ := hds
  rw [← List.dropLast_concat_getLast hne, ← List.append_assoc]
  exact valueBefore?_of_ne (ne_of_isDigit (hdigits _ (List.getLast_mem hne)) hs) _

theorem valueBefore?_value (hr : r.Spelled) (h : ValueText r t v) :
    valueBefore? r sign (t ++ [sign]) = some t := by
  rw [valueBefore?, List.getLast?_concat, List.dropLast_concat, h.isValue hr]
  simp

/-! ### Bases -/

theorem readPlain_of_name (hr : r.Spelled) {n : String × Int} (hn : n ∈ r.names) :
    readPlain r n.1.toList = .ok (.on n.2 none) := by
  have hsign : ∀ c, isSplit c = true → n.1.toList ≠ [c] := by
    intro c hc heq
    exact apart_of_isSplit hr hc n hn (heq ▸ List.mem_singleton_self c)
  rw [readPlain, readWord?, if_neg (hsign '*' rfl), if_neg (hsign '?' rfl),
    (hr.named n hn).2]
  rfl

theorem readPlain_of_digits (hr : r.Spelled) (hds : IsDigits ds) :
    readPlain r ds = .ok (.on (number ds) none) := by
  have hword : readWord? r ds = none := by
    have hstar : ds ≠ ['*'] := by
      rintro rfl
      exact hds.not_mem rfl (List.mem_singleton_self '*')
    have hquestion : ds ≠ ['?'] := by
      rintro rfl
      exact hds.not_mem rfl (List.mem_singleton_self '?')
    rw [readWord?, if_neg hstar, if_neg hquestion, hds.named? hr]
    rfl
  obtain ⟨h1, h2, h3⟩ := ne_last_of_value hr (.digits hds) []
  rw [List.append_nil] at h1 h2 h3
  have hletter : ∀ sign : Char, sign.isDigit = false → valueBefore? r sign ds = none :=
    fun sign hs => valueBefore?_of_digits hds hs []
  have hminus : '-' ∉ ds := hds.not_mem rfl
  have hhead : ds.head? ≠ some '-' := fun h => hminus (List.mem_of_mem_head? h)
  have hnth : '#' ∉ ds := hds.not_mem rfl
  rw [readPlain, hword]
  simp only [readSigned, if_neg h1, if_neg h2, if_neg h3, hletter 'W' rfl, hletter 'L' rfl,
    List.contains_iff_mem, if_neg hnth, readRange, if_neg hhead, if_neg hminus,
    (ValueText.digits hds).readValue hr]
  rfl

theorem readPlain_of_range (hr : r.Spelled) (hs : ValueText r s v) (ht : ValueText r t w) :
    readPlain r (s ++ '-' :: t) = .ok (.between v w) := by
  have hmem : '-' ∈ s ++ '-' :: t := by simp
  have hlast : '-' ∈ (s ++ '-' :: t).dropLast := by
    obtain ⟨c, rest, hrest⟩ := List.exists_cons_of_ne_nil (ht.ne_nil hr)
    rw [List.dropLast_append_cons, hrest]
    simp
  obtain ⟨h1, h2, h3⟩ := ne_last_of_value hr hs ('-' :: t)
  have hnth : '#' ∉ s ++ '-' :: t := by
    have hs := hs.not_mem hr (c := '#') rfl
    have ht := ht.not_mem hr (c := '#') rfl
    simp [hs, ht]
  have hminus : '-' ∉ s := hs.not_mem hr rfl
  have hhead : (s ++ '-' :: t).head? ≠ some '-' := by
    rw [List.head?_append_of_ne_nil s (hs.ne_nil hr)]
    exact fun h => hminus (List.mem_of_mem_head? h)
  have hends : (s.isEmpty || t.isEmpty || t.contains '-') = false := by
    have hback : '-' ∉ t := ht.not_mem hr rfl
    simp [hs.ne_nil hr, ht.ne_nil hr, hback]
  rw [readPlain, readWord?_of_mem hr rfl (by decide) (by decide) hmem]
  simp only [readSigned, if_neg h1, if_neg h2, if_neg h3,
    valueBefore?_of_mem hr rfl hlast, List.contains_iff_mem, if_neg hnth, readRange,
    if_neg hhead, if_pos hmem, cut_append hminus, hends, hs.readValue hr, ht.readValue hr]
  rfl

theorem readPlain_of_base (hr : r.Spelled) (h : BaseText r t e) : readPlain r t = .ok e := by
  cases h with
  | always => rfl
  | value ht =>
    cases ht with
    | name hn => exact readPlain_of_name hr hn
    | digits hds => exact readPlain_of_digits hr hds
  | range hs ht => exact readPlain_of_range hr hs ht

theorem BaseText.ne_nil (hr : r.Spelled) (h : BaseText r t e) : t ≠ [] := by
  cases h with
  | always => simp
  | value ht => exact ht.ne_nil hr
  | range => simp

theorem BaseText.not_mem (hr : r.Spelled) (h : BaseText r t e) (hsign : isSplit c = true)
    (hstar : c ≠ '*') (hminus : c ≠ '-') : c ∉ t := by
  cases h with
  | always => simp [hstar]
  | value ht => exact ht.not_mem hr hsign
  | range hs ht => simp [hs.not_mem hr hsign, ht.not_mem hr hsign, hminus]

theorem BaseText.clean (hr : r.Spelled) (h : BaseText r t e) : Clean r t := by
  cases h with
  | always =>
    rw [clean_cons (apart_of_isSplit hr rfl)]
    exact ⟨by simp [isAllowedChar], clean_nil r⟩
  | value ht => exact ht.clean hr
  | range hs ht =>
    rw [clean_append (apart_of_isSplit hr rfl)]
    exact ⟨hs.clean hr, by simp [isAllowedChar], ht.clean hr⟩

theorem BaseText.isStepBase (h : BaseText r t e) : e.isStepBase = true := by
  cases h with
  | _ => rfl

/-! ### Parts -/

theorem readStep_of_base (hr : r.Spelled) (ht : BaseText r t e) (hds : IsDigits ds) :
    readStep r (t ++ '/' :: ds) = .ok (.every e (number ds)) := by
  have hstep : ds.isEmpty = false := List.isEmpty_eq_false_iff.2 hds.1
  have hfront : t.isEmpty = false := List.isEmpty_eq_false_iff.2 (ht.ne_nil hr)
  rw [readStep, cut_append (ht.not_mem hr rfl (by decide) (by decide))]
  simp only [hstep, hfront, Bool.false_eq_true, if_false, requireNumeral, if_pos hds.isNumeral,
    readPlain_of_base hr ht]
  show (if e.isStepBase = true then _ else _) = _
  rw [if_pos ht.isStepBase, hds.readNumeral]
  rfl

theorem readStep_open (hds : IsDigits ds) :
    readStep r ('/' :: ds) = .ok (.every .always (number ds)) := by
  have hstep : ds.isEmpty = false := List.isEmpty_eq_false_iff.2 hds.1
  rw [readStep, ← List.nil_append ('/' :: ds), cut_append List.not_mem_nil]
  simp only [hstep, Bool.false_eq_true, if_false, requireNumeral, if_pos hds.isNumeral,
    hds.readNumeral]
  rfl

theorem readPart_of_step (hr : r.Spelled) (h : '/' ∈ part) :
    readPart r part = readStep r part := by
  have hword := readWord?_of_mem hr rfl (by decide) (by decide) h
  rw [readPart, hword, if_pos (List.contains_iff_mem.2 h)]

/-- A text of the last day is no word. -/
theorem readPlain_of_unnamed (h : r.named? ('L' :: part) = none) :
    readPlain r ('L' :: part) = readSigned r ('L' :: part) := by
  rw [readPlain, readWord?, if_neg (by simp), if_neg (by simp), h]
  rfl

theorem readPlain_of_offset (hr : r.Spelled) (hds : IsDigits ds) :
    readPlain r ('L' :: '-' :: ds) = .ok (.lastOffset (number ds)) := by
  rw [readPlain, readWord?_of_mem (c := '-') hr rfl (by decide) (by decide) (by simp), readSigned,
    if_neg (by simp), if_neg (by simp), if_pos (by simp)]
  simp only [List.drop_succ_cons, List.drop_zero, requireNumeral, if_pos hds.isNumeral,
    hds.readNumeral]
  rfl

theorem readPlain_of_workday (hr : r.Spelled) (ht : ValueText r t v) :
    readPlain r (t ++ ['W']) = .ok (.nearestWeekday (some v)) := by
  obtain ⟨h1, h2, h3⟩ := ne_last_of_value hr ht ['W']
  rw [readPlain, readWord?_append_sign hr ht (by decide)]
  simp only [readSigned, if_neg h1, if_neg h2, if_neg h3, valueBefore?_value hr ht,
    ht.readValue hr]
  rfl

theorem readPlain_of_lastDay (hr : r.Spelled) (ht : ValueText r t v) :
    readPlain r (t ++ ['L']) = .ok (.last (some v)) := by
  obtain ⟨h1, h2, h3⟩ := ne_last_of_value hr ht ['L']
  have hworkday : valueBefore? r 'W' (t ++ ['L']) = none := valueBefore?_of_ne (by decide) t
  rw [readPlain, readWord?_append_sign hr ht (by decide)]
  simp only [readSigned, if_neg h1, if_neg h2, if_neg h3, hworkday, valueBefore?_value hr ht,
    ht.readValue hr]
  rfl

theorem readPlain_of_nth (hr : r.Spelled) (ht : ValueText r t v) (hds : IsDigits ds) :
    readPlain r (t ++ '#' :: ds) = .ok (.on v (some (number ds))) := by
  have hmem : '#' ∈ t ++ '#' :: ds := by simp
  have hletter : ∀ sign : Char, sign.isDigit = false →
      valueBefore? r sign (t ++ '#' :: ds) = none := by
    intro sign hs
    rw [← List.singleton_append, ← List.append_assoc]
    exact valueBefore?_of_digits hds hs _
  obtain ⟨h1, h2, h3⟩ := ne_last_of_value hr ht ('#' :: ds)
  rw [readPlain, readWord?_of_mem hr rfl (by decide) (by decide) hmem]
  simp only [readSigned, if_neg h1, if_neg h2, if_neg h3, hletter 'W' rfl, hletter 'L' rfl,
    List.contains_iff_mem, if_pos hmem, cut_append (ht.not_mem hr (c := '#') rfl),
    requireNumeral, if_pos hds.isNumeral, ht.readValue hr, hds.readNumeral]
  rfl

theorem readPart_of_not_mem (h : '/' ∉ part) : readPart r part = readPlain r part := by
  rw [readPart, if_neg (by simpa using h)]
  rfl

/-- **Every part of the grammar is read as what it means.** -/
theorem readPart_of_text (hr : r.Spelled) (h : PartText r t e) : readPart r t = .ok e := by
  have hslash : ∀ {t v} (rest : List Char), ValueText r t v → '/' ∉ rest → '/' ∉ t ++ rest := by
    intro t v rest ht hrest
    rw [List.mem_append]
    exact not_or.2 ⟨ht.not_mem hr rfl, hrest⟩
  cases h with
  | base ht =>
    have hslash := ht.not_mem (c := '/') hr rfl (by decide) (by decide)
    rw [readPart_of_not_mem hslash, readPlain_of_base hr ht]
  | question => rfl
  | step ht hds => rw [readPart_of_step hr (by simp), readStep_of_base hr ht hds]
  | openStep hds => rw [readPart_of_step hr (by simp), readStep_open hds]
  | last =>
    have hname := (hr.signed [] List.mem_cons_self 'L' (by decide)).2
    rw [readPart_of_not_mem (by decide), readPlain_of_unnamed hname]
    rfl
  | lastWorkday =>
    rw [readPart_of_not_mem (by decide), readPlain_of_unnamed hr.lastWorkday.2]
    rfl
  | @lastOffset ds h hds =>
    have hdigits : '/' ∉ 'L' :: '-' :: ds := by simp [hds.not_mem (c := '/') rfl]
    rw [readPart_of_not_mem hdigits, readPlain_of_offset hr hds]
  | workday h ht => rw [readPart_of_not_mem (hslash _ ht (by decide)), readPlain_of_workday hr ht]
  | lastDay h ht => rw [readPart_of_not_mem (hslash _ ht (by decide)), readPlain_of_lastDay hr ht]
  | @nth t ds v h ht hds =>
    have hdigits : '/' ∉ '#' :: ds := by simp [hds.not_mem (c := '/') rfl]
    rw [readPart_of_not_mem (hslash _ ht hdigits), readPlain_of_nth hr ht hds]

/-! ### Fields -/

theorem PartText.ne_nil (hr : r.Spelled) (h : PartText r t e) : t ≠ [] := by
  cases h with
  | base ht => exact ht.ne_nil hr
  | _ => simp

theorem PartText.comma_not_mem (hr : r.Spelled) (h : PartText r t e) : ',' ∉ t := by
  have hdigits : ∀ {ds}, IsDigits ds → ',' ∉ ds := fun hds => hds.not_mem rfl
  have hvalue : ∀ {t v}, ValueText r t v → ',' ∉ t := fun ht => ht.not_mem hr rfl
  have hbase : ∀ {t e}, BaseText r t e → ',' ∉ t :=
    fun ht => ht.not_mem hr rfl (by decide) (by decide)
  cases h with
  | base ht => exact hbase ht
  | question | last | lastWorkday => decide
  | step ht hds => simp [hbase ht, hdigits hds]
  | openStep hds | lastOffset _ hds => simp [hdigits hds]
  | workday _ ht | lastDay _ ht => simp [hvalue ht]
  | nth _ ht hds => simp [hvalue ht, hdigits hds]

/-- The flags of the field are those of the characters that are left of a part. -/
theorem PartText.clean (hr : r.Spelled) (h : PartText r t e) : Clean r t := by
  have hslash : isAllowedChar r '/' = true := by simp [isAllowedChar]
  have hminus : isAllowedChar r '-' = true := by simp [isAllowedChar]
  cases h with
  | base ht => exact ht.clean hr
  | question h =>
    rw [clean_cons (apart_of_isSplit hr rfl), isAllowedChar_question]
    exact ⟨h, clean_nil r⟩
  | step ht hds =>
    rw [clean_append (apart_of_isSplit hr rfl)]
    exact ⟨ht.clean hr, hslash, hds.clean hr⟩
  | openStep hds =>
    rw [clean_cons (apart_of_isSplit hr rfl)]
    exact ⟨hslash, hds.clean hr⟩
  | last h =>
    rw [clean_sign hr (by decide), isAllowedChar_last]
    exact h
  | lastWorkday h h' =>
    rw [clean_lastWorkday hr, isAllowedChar_last, isAllowedChar_weekday]
    exact ⟨h, h'⟩
  | @lastOffset ds h hds =>
    have hletter : Clean r ['L'] := (clean_sign hr (by decide)).2 (isAllowedChar_last.2 h)
    exact (clean_append (apart_of_isSplit hr rfl) ['L'] ds).2 ⟨hletter, hminus, hds.clean hr⟩
  | workday h ht => exact ht.clean_append_sign hr (by decide) (isAllowedChar_weekday.2 h)
  | lastDay h ht => exact ht.clean_append_sign hr (by decide) (isAllowedChar_last.2 h)
  | nth h ht hds =>
    rw [clean_append (apart_of_isSplit hr rfl), isAllowedChar_nth]
    exact ⟨ht.clean hr, h, hds.clean hr⟩

/-- What holds of each part of a grammatical list. -/
theorem forall_mem_of_parts {ts : List (List Char)} {es : List Expr}
    (hts : List.Forall₂ (PartText r) ts es) {P : List Char → Prop}
    (h : ∀ t e, PartText r t e → P t) : ∀ t ∈ ts, P t := by
  induction hts with
  | nil => exact List.forall_mem_nil _
  | cons ht _ ih => exact List.forall_mem_cons.2 ⟨h _ _ ht, ih⟩

theorem mapM_readPart (hr : r.Spelled) {ts : List (List Char)} {es : List Expr}
    (h : List.Forall₂ (PartText r) ts es) : ts.mapM (readPart r) = .ok es := by
  induction h with
  | nil => rfl
  | cons ht _ ih =>
    rw [List.mapM_cons, readPart_of_text hr ht, ih]
    rfl

theorem exists_eq_cons_cons {α : Type} {l : List α} (h : 2 ≤ l.length) :
    ∃ a b l', l = a :: b :: l' := by
  obtain ⟨a, l, rfl⟩ := List.exists_cons_of_length_pos (Nat.lt_of_lt_of_le Nat.two_pos h)
  obtain ⟨b, l', rfl⟩ := List.exists_cons_of_length_pos (Nat.le_of_succ_le_succ h)
  exact ⟨a, b, l', rfl⟩

theorem FieldText.ne_nil_clean (hr : r.Spelled) (h : FieldText r t e) : t ≠ [] ∧ Clean r t := by
  cases h with
  | part ht => exact ⟨ht.ne_nil hr, ht.clean hr⟩
  | @list ts es hts h =>
    refine ⟨?_, (clean_intercalate hr).2 (forall_mem_of_parts hts fun t e ht => ht.clean hr)⟩
    obtain ⟨p, q, qs, rfl⟩ := exists_eq_cons_cons h
    rw [List.intercalate_cons_cons]
    simp

/-- Every text of the grammar is read as what it means. -/
theorem read_of_text (hr : d.rule.Spelled) {token : List Char}
    (h : FieldText d.rule (upper (trim token)) e) : read d token = .ok e := by
  obtain ⟨hne, hclean⟩ := h.ne_nil_clean hr
  rw [read]
  generalize upper (trim token) = text at h hne hclean
  have hempty : text.isEmpty = false := List.isEmpty_eq_false_iff.2 hne
  simp only [hempty, (foreignChars_eq_nil_iff hr).2 hclean, List.isEmpty_nil, Bool.not_true,
    Bool.false_eq_true, if_false]
  cases h with
  | part ht =>
    rw [pieces_of_not_mem (ht.comma_not_mem hr)]
    exact readPart_of_text hr ht
  | @list ts es hts h =>
    have hcomma := forall_mem_of_parts hts fun t e ht => ht.comma_not_mem hr
    have hfull := forall_mem_of_parts hts fun t e ht => ht.ne_nil hr
    have hsome : ts ≠ [] := by
      rintro rfl
      cases h
    have hall : ts.any (·.isEmpty) = false := by
      rw [List.any_eq_false]
      intro t ht
      simp [hfull t ht]
    rw [pieces_intercalate hsome hcomma]
    obtain ⟨p, q, qs, rfl⟩ := exists_eq_cons_cons h
    simp only [hall, mapM_readPart hr hts, Bool.false_eq_true, if_false]
    rfl

/-- **The reader accepts exactly the grammar, and refuses everything else as text that cannot be
read**, in every field of the four dialects. -/
theorem read_eq_ok_iff {D : Definition} (hD : D ∈ Dialect.all) (hd : d ∈ D.fields)
    (token : List Char) :
    (∀ e, read d token = .ok e ↔ FieldText d.rule (upper (trim token)) e) ∧
      ∀ fault, read d token = .error fault → fault.kind = .parse := by
  have hr := Dialect.rule_spelled D hD d hd
  have hreads := reads_read hr token
  constructor
  · intro e
    constructor
    · intro h
      rw [h] at hreads
      exact hreads
    · exact read_of_text hr
  · intro fault h
    rw [h] at hreads
    exact hreads

/-- From Monday to Friday or on the last Sunday of the month, in Quartz. -/
theorem read_workdaysOrLastSunday :
    read ⟨.dayOfWeek, { Dialect.sundayOneRule with allowsQuestion := true }, false⟩
      " mon-fri,sunl ".toList = .ok (.list [.between 2 6, .last (some 1)]) := by
  have hupper : upper (trim " mon-fri,sunl ".toList) =
      [','].intercalate ["MON".toList ++ '-' :: "FRI".toList, "SUN".toList ++ ['L']] := by decide
  refine ((read_eq_ok_iff Dialect.quartz_mem_all (by decide) _).1 _).2 ?_
  rw [hupper]
  have hrange : BaseText { Dialect.sundayOneRule with allowsQuestion := true }
      ("MON".toList ++ '-' :: "FRI".toList) (.between 2 6) :=
    .range (.name (n := ("MON", 2)) (by decide)) (.name (n := ("FRI", 6)) (by decide))
  have hlast : PartText { Dialect.sundayOneRule with allowsQuestion := true }
      ("SUN".toList ++ ['L']) (.last (some 1)) :=
    .lastDay (.inl rfl) (.name (n := ("SUN", 1)) (by decide))
  exact .list (.cons (.base hrange) (.cons hlast .nil)) (by decide)

end CronSchedule.Expr
