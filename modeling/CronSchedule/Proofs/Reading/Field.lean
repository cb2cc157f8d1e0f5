import CronSchedule.Expr.Display
import CronSchedule.Proofs.Reading.Complete

/-!
# Reading back a field

What is written is of the grammar: numbers are digits, and each form is written as the grammar has
it, with the signs that its field allows.

* `Expr.partText_chars`, `Expr.fieldText_chars`: **the text of an allowed expression is one of the
  grammar that means the expression**, unless it is a list of one member.
* `Expr.read_chars`: so it reads back.
* `Expr.isSingleton_of_read`: nothing reads as a list of one member.
-/

namespace CronSchedule.Expr

open Text

variable {d : FieldDefinition} {r : FieldRule} {e : Expr} {v : Int}

/-- Whether an expression is a list of one member, which is written like the member. -/
def isSingleton : Expr → Bool
  | .list [_] => true
  | _ => false

/-! ### What is written is of the grammar -/

/-- A number that is not negative is written in digits that denote it. -/
theorem digits_decimal (hv : 0 ≤ v) : IsDigits (decimal v) ∧ number (decimal v) = v := by
  obtain ⟨n, rfl⟩ := Int.eq_ofNat_of_zero_le hv
  have hdigits : ∀ c ∈ natDigits n, c.isDigit = true := isDigit_of_mem_natDigits
  have hvalue := digitsValue?_natDigits n
  rw [digitsValue?_of_isDigits hdigits, Option.some.injEq] at hvalue
  exact ⟨⟨natDigits_ne_nil n, hdigits⟩, congrArg Int.ofNat hvalue⟩

theorem valueText_decimal (r : FieldRule) (hv : 0 ≤ v) : ValueText r (decimal v) v := by
  obtain ⟨hdigits, hnumber⟩ := digits_decimal hv
  have htext := ValueText.digits (r := r) hdigits
  rwa [hnumber] at htext

/-- A number of the field is written as a value. -/
theorem valueText_of_contains (hmin : 0 ≤ r.min) (hv : r.Contains v) : ValueText r (decimal v) v :=
  valueText_decimal r (Int.le_trans hmin hv.1)

theorem baseText_chars (hmin : 0 ≤ d.rule.min) (h : check d e = .ok ())
    (he : e.isStepBase = true) : BaseText d.rule e.chars e := by
  cases e with
  | always => exact .always
  | on v n =>
    cases n with
    | none => exact .value (valueText_of_contains hmin (check_value_iff.1 h))
    | some n => cases he
  | between s e =>
    obtain ⟨hs, he, -⟩ := check_between_iff.1 h
    exact .range (valueText_of_contains hmin hs) (valueText_of_contains hmin he)
  | _ => cases he

/-- **The text of an allowed expression that is no list is a part that means the expression.** -/
theorem partText_chars (hmin : 0 ≤ d.rule.min) (h : check d e = .ok ())
    (he : ∀ es, e ≠ .list es) : PartText d.rule e.chars e := by
  have hvalue : ∀ {v}, d.rule.Contains v → ValueText d.rule (decimal v) v :=
    fun hv => valueText_of_contains hmin hv
  cases e with
  | always | between => exact .base (baseText_chars hmin h rfl)
  | question => exact .question (check_question_iff.1 h)
  | on v n =>
    cases n with
    | none => exact .base (baseText_chars hmin h rfl)
    | some n =>
      obtain ⟨hv, hallowed, hn, -⟩ := check_nth_iff.1 h
      obtain ⟨hdigits, hnumber⟩ := digits_decimal (v := n) (by omega)
      have htext := PartText.nth hallowed (hvalue hv) hdigits
      rwa [hnumber] at htext
  | every base p =>
    obtain ⟨hbase, hp, h⟩ := check_every_iff.1 h
    obtain ⟨hdigits, hnumber⟩ := digits_decimal (v := p) (by omega)
    have htext := PartText.step (baseText_chars hmin h hbase) hdigits
    rwa [hnumber] at htext
  | list es => exact absurd rfl (he es)
  | last w =>
    cases w with
    | none => exact .last (.inl (check_last_iff.1 h))
    | some w =>
      obtain ⟨hallowed, -, hw⟩ := check_lastDay_iff.1 h
      exact .lastDay (.inl hallowed) (hvalue hw)
  | lastOffset n =>
    obtain ⟨hallowed, -, hn, -⟩ := check_lastOffset_iff.1 h
    obtain ⟨hdigits, hnumber⟩ := digits_decimal hn
    have htext := PartText.lastOffset (.inl hallowed) hdigits
    rwa [hnumber] at htext
  | nearestWeekday day =>
    cases day with
    | none =>
      have hallowed := check_lastWorkday_iff.1 h
      exact .lastWorkday (.inr hallowed) (.inr hallowed)
    | some day =>
      obtain ⟨hallowed, hday⟩ := check_workday_iff.1 h
      exact .workday (.inl hallowed) (hvalue hday)

theorem charsAll_eq (es : List Expr) : charsAll es = [','].intercalate (es.map chars) := by
  induction es with
  | nil => rfl
  | cons e es ih =>
    cases es with
    | nil => simp [charsAll]
    | cons e' es =>
      rw [charsAll, ih, List.map_cons, List.map_cons, List.map_cons, List.intercalate_cons_cons,
        List.append_assoc, List.singleton_append]

theorem ne_list_of_isMember (h : e.isMember = true) (es : List Expr) : e ≠ .list es := by
  rintro rfl
  cases h

/-- **The text of an allowed expression is a field that means the expression**, unless it is a list
of one member. -/
theorem fieldText_chars (hmin : 0 ≤ d.rule.min) (h : check d e = .ok ())
    (h1 : e.isSingleton = false) : FieldText d.rule e.chars e := by
  by_cases hl : ∃ es, e = .list es
  · obtain ⟨es, rfl⟩ := hl
    obtain ⟨hne, hes⟩ := check_list_iff.1 h
    have hparts : List.Forall₂ (PartText d.rule) (es.map chars) es := by
      rw [List.forall₂_map_left_iff, List.forall₂_same]
      intro e he
      exact partText_chars hmin (hes e he).2 (ne_list_of_isMember (hes e he).1)
    have hmany : 2 ≤ (es.map chars).length := by
      match es, hne, h1 with
      | [], hne, _ => exact absurd rfl hne
      | [e], _, h1 => cases h1
      | e :: e' :: es, _, _ => simp
    rw [chars, charsAll_eq]
    exact .list hparts hmany
  · exact .part (partText_chars hmin h fun es he => hl ⟨es, he⟩)

/-! ### Reading back -/

theorem isWritten_of_mem_decimal (v : Int) : ∀ c ∈ decimal v, isWritten c = true := by
  have hdigits : ∀ n, ∀ c ∈ natDigits n, isWritten c = true := by
    intro n c hc
    rw [isWritten, isDigit_of_mem_natDigits c hc, Bool.true_or]
  cases v with
  | ofNat n => exact hdigits n
  | negSucc n => exact List.forall_mem_cons.2 ⟨by decide, hdigits (n + 1)⟩

mutual

/-- Expressions are written in digits and signs. -/
theorem isWritten_of_mem_chars : ∀ e : Expr, ∀ c ∈ e.chars, isWritten c = true
  | .always | .question | .last none | .nearestWeekday none => by
    rw [chars, ← List.all_eq_true]
    decide
  | .on v none => isWritten_of_mem_decimal v
  | .on v (some n) | .between v n => by
    rw [chars, List.forall_mem_append, List.forall_mem_cons]
    exact ⟨isWritten_of_mem_decimal v, by decide, isWritten_of_mem_decimal n⟩
  | .every base p => by
    rw [chars, List.forall_mem_append, List.forall_mem_cons]
    exact ⟨isWritten_of_mem_chars base, by decide, isWritten_of_mem_decimal p⟩
  | .list es => isWritten_of_mem_charsAll es
  | .last (some v) | .nearestWeekday (some v) => by
    rw [chars, List.forall_mem_append, List.forall_mem_singleton]
    exact ⟨isWritten_of_mem_decimal v, by decide⟩
  | .lastOffset n => by
    rw [chars, List.forall_mem_cons, List.forall_mem_cons]
    exact ⟨by decide, by decide, isWritten_of_mem_decimal n⟩

theorem isWritten_of_mem_charsAll : ∀ es : List Expr, ∀ c ∈ charsAll es, isWritten c = true
  | [] => List.forall_mem_nil _
  | [e] => isWritten_of_mem_chars e
  | e :: e' :: es => by
    rw [charsAll, List.forall_mem_append, List.forall_mem_cons]
    exact ⟨isWritten_of_mem_chars e, by decide, isWritten_of_mem_charsAll (e' :: es)⟩

end

/-- **An allowed expression reads back, unless it is a list of one member.** -/
theorem read_chars (hr : d.rule.Spelled) (hmin : 0 ≤ d.rule.min) (h : check d e = .ok ())
    (h1 : e.isSingleton = false) : read d e.chars = .ok e := by
  have hwritten := isWritten_of_mem_chars e
  -- trimming and upper case leave the text alone
  have htext : upper (trim e.chars) = e.chars := by
    rw [trim_of_not_blank fun c hc => isBlank_of_written (hwritten c hc),
      upper_of_written hwritten]
  have hfield := fieldText_chars hmin h h1
  rw [← htext] at hfield
  exact read_of_text hr hfield

/-! ### What comes out of reading -/

theorem ne_list_of_readRange {part : List Char} (h : readRange r part = .ok e) (es : List Expr) :
    e ≠ .list es := by
  rintro rfl
  rw [readRange] at h
  split at h
  · cases h
  split at h
  · simp only at h
    split at h
    · cases h
    · obtain ⟨s, -, h⟩ := bind_eq_ok_iff.1 h
      obtain ⟨e, -, h⟩ := bind_eq_ok_iff.1 h
      cases h
  · obtain ⟨v, -, h⟩ := bind_eq_ok_iff.1 h
    cases h

theorem ne_list_of_readSigned {part : List Char} (h : readSigned r part = .ok e)
    (es : List Expr) : e ≠ .list es := by
  rintro rfl
  rw [readSigned] at h
  split at h
  · cases h
  split at h
  · cases h
  split at h
  · rw [seq_eq_ok_iff] at h
    obtain ⟨n, -, h⟩ := bind_eq_ok_iff.1 h.2
    cases h
  split at h
  · obtain ⟨day, -, h⟩ := bind_eq_ok_iff.1 h
    cases h
  split at h
  · obtain ⟨w, -, h⟩ := bind_eq_ok_iff.1 h
    cases h
  split at h
  · rw [seq_eq_ok_iff] at h
    obtain ⟨w, -, h⟩ := bind_eq_ok_iff.1 h.2
    obtain ⟨n, -, h⟩ := bind_eq_ok_iff.1 h
    cases h
  · exact ne_list_of_readRange h es rfl

theorem ne_list_of_readWord? {part : List Char} (h : readWord? r part = some e) (es : List Expr) :
    e ≠ .list es := by
  rintro rfl
  rw [readWord?] at h
  split at h
  · cases h
  split at h
  · cases h
  · obtain ⟨v, -, h⟩ := Option.map_eq_some_iff.1 h
    cases h

/-- A part never reads as a list. -/
theorem ne_list_of_readPart {part : List Char} (h : readPart r part = .ok e) (es : List Expr) :
    e ≠ .list es := by
  rintro rfl
  rw [readPart] at h
  split at h
  · next e' hw =>
    cases h
    exact ne_list_of_readWord? hw es rfl
  split at h
  · rw [readStep] at h
    simp only at h
    split at h
    · cases h
    rw [seq_eq_ok_iff] at h
    have hbase : ∀ base : Expr, (if base.isStepBase = true then
        (readNumeral (cut '/' part).2 >>= fun p => pure (.every base p) : Except Fault Expr)
        else throw (.part part .stepBase)) ≠ .ok (.list es) := by
      intro base h
      split at h
      · obtain ⟨p, -, h⟩ := bind_eq_ok_iff.1 h
        cases h
      · cases h
    have h := h.2
    split at h
    · exact hbase .always h
    · obtain ⟨base, -, h⟩ := bind_eq_ok_iff.1 h
      exact hbase base h
  · exact ne_list_of_readSigned h es rfl

theorem length_of_mapM {ε α β : Type} {f : α → Except ε β} :
    ∀ {l : List α} {l' : List β}, l.mapM f = .ok l' → l'.length = l.length
  | [], l', h => by
    cases h
    rfl
  | a :: l, l', h => by
    rw [List.mapM_cons] at h
    obtain ⟨b, -, h⟩ := bind_eq_ok_iff.1 h
    obtain ⟨bs, hbs, h⟩ := bind_eq_ok_iff.1 h
    cases h
    rw [List.length_cons, length_of_mapM hbs, List.length_cons]

/-- **Nothing reads as a list of one member.** -/
theorem isSingleton_of_read {token : List Char} (h : read d token = .ok e) :
    e.isSingleton = false := by
  simp only [read] at h
  split at h
  · cases h
  split at h
  · cases h
  split at h
  · have hl := ne_list_of_readPart h
    cases e with
    | list es => exact absurd rfl (hl es)
    | _ => rfl
  · next parts hparts =>
    split at h
    · cases h
    obtain ⟨es, hes, h⟩ := bind_eq_ok_iff.1 h
    cases h
    -- there are two parts or more, and as many members
    have hlen := length_of_mapM hes
    cases es with
    | nil => rfl
    | cons x es =>
      cases es with
      | nil =>
        obtain ⟨p, hp⟩ := List.length_eq_one_iff.1 hlen.symm
        exact absurd hp (hparts p)
      | cons y es => rfl

end CronSchedule.Expr
