import CronSchedule.Text.Blank
import CronSchedule.Text.Decimal
import CronSchedule.Text.Pieces
import CronSchedule.Text.UpperCase
import Mathlib.Data.List.TakeWhile

/-!
# Taking apart what was put together

* `Text.pieces_intercalate`, `Text.intercalate_pieces`: parts that are joined by a separator come
  apart again, and parts that came apart make up the text.
* `Text.words_intercalate`: **words that are joined by spaces are the words of the text.**
* `Text.upper_of_written`: the characters of written expressions are in upper case.
-/

namespace CronSchedule.Text

variable {sep : Char} {p cs : List Char}

/-! ### The characters of written expressions -/

/-- A digit of ASCII or a sign that has a meaning in some field. -/
def isWritten (c : Char) : Bool :=
  c.isDigit || ['*', '?', '#', '-', '/', ',', 'L', 'W'].contains c

theorem exists_digit_of_isDigit {c : Char} (h : c.isDigit = true) : ∃ n < 10, c = digit n := by
  simp only [Char.isDigit, Bool.and_eq_true, decide_eq_true_eq, ge_iff_le, UInt32.le_iff_toNat_le]
    at h
  change 48 ≤ c.toNat ∧ c.toNat ≤ 57 at h
  refine ⟨c.toNat - 48, by omega, ?_⟩
  rw [digit, show '0'.toNat + (c.toNat - 48) = c.toNat by
    change 48 + (c.toNat - 48) = c.toNat
    omega]
  exact (Char.ofNat_toNat c).symm

theorem forall_isWritten {P : Char → Bool} (hd : ∀ n < 10, P (digit n) = true)
    (hs : ['*', '?', '#', '-', '/', ',', 'L', 'W'].all P = true) {c : Char}
    (h : isWritten c = true) : P c = true := by
  rw [isWritten, Bool.or_eq_true] at h
  rcases h with h | h
  · obtain ⟨n, hn, rfl⟩ := exists_digit_of_isDigit h
    exact hd n hn
  · exact List.all_eq_true.1 hs c (List.contains_iff_mem.1 h)

theorem isBlank_of_written {c : Char} (h : isWritten c = true) : isBlank c = false := by
  simpa using forall_isWritten (P := fun c => !isBlank c) (by decide) (by decide) h

theorem upperChar_of_written {c : Char} (h : isWritten c = true) : upperChar c = [c] := by
  simpa using forall_isWritten (P := fun c => upperChar c == [c]) (by decide) (by decide) h

theorem upper_of_written (h : ∀ c ∈ cs, isWritten c = true) : upper cs = cs := by
  induction cs with
  | nil => rfl
  | cons c cs ih =>
    obtain ⟨hc, hcs⟩ := List.forall_mem_cons.1 h
    rw [upper, List.flatMap_cons, upperChar_of_written hc]
    exact congrArg (c :: ·) (ih hcs)

/-! ### White space around a text -/

theorem trimLeft_of_head (h : ∀ c ∈ cs.head?, isBlank c = false) : trimLeft cs = cs := by
  cases cs with
  | nil => rfl
  | cons c cs => rw [trimLeft, List.dropWhile_cons_of_neg (by simp [h c rfl])]

/-- A text that neither starts nor ends with white space is trimmed already. -/
theorem trim_of_ends (h : ∀ c ∈ cs.head?, isBlank c = false)
    (h' : ∀ c ∈ cs.getLast?, isBlank c = false) : trim cs = cs := by
  have hr : trimLeft cs.reverse = cs.reverse := by
    apply trimLeft_of_head
    rwa [List.head?_reverse]
  rw [trim, trimLeft_of_head h]
  show (trimLeft cs.reverse).reverse = cs
  rw [hr, List.reverse_reverse]

theorem trim_of_not_blank (h : ∀ c ∈ cs, isBlank c = false) : trim cs = cs :=
  trim_of_ends (fun c hc => h c (List.mem_of_mem_head? hc))
    fun c hc => h c (List.mem_of_mem_getLast? hc)

/-! ### Digits -/

theorem natDigits_ne_nil (n : Nat) : natDigits n ≠ [] := by
  rw [natDigits]
  split <;> simp

theorem isDigit_of_mem_natDigits {n : Nat} : ∀ c ∈ natDigits n, c.isDigit = true := by
  have hd : ∀ n < 10, (digit n).isDigit = true := by decide
  fun_induction natDigits n with
  | case1 n h => simpa using hd n h
  | case2 n h ih =>
    intro c hc
    rcases List.mem_append.1 hc with hc | hc
    · exact ih c hc
    · obtain rfl := List.mem_singleton.1 hc
      exact hd _ (Nat.mod_lt n (by decide))

/-! ### Separators -/

theorem pieces_of_not_mem (h : sep ∉ cs) : pieces sep cs = [cs] := by
  induction cs with
  | nil => rfl
  | cons c cs ih =>
    obtain ⟨hc, hcs⟩ := not_or.1 (mt List.mem_cons.2 h)
    rw [pieces, if_neg (Ne.symm hc), ih hcs]

theorem pieces_append (h : sep ∉ p) (cs : List Char) :
    pieces sep (p ++ sep :: cs) = p :: pieces sep cs := by
  induction p with
  | nil => rw [List.nil_append, pieces, if_pos rfl]
  | cons c p ih =>
    obtain ⟨hc, hp⟩ := not_or.1 (mt List.mem_cons.2 h)
    rw [List.cons_append, pieces, if_neg (Ne.symm hc), ih hp]

/-- Parts that are joined by a separator come apart again. -/
theorem pieces_intercalate {ps : List (List Char)} (hps : ps ≠ []) (h : ∀ p ∈ ps, sep ∉ p) :
    pieces sep ([sep].intercalate ps) = ps := by
  induction ps with
  | nil => exact absurd rfl hps
  | cons p ps ih =>
    obtain ⟨hp, h⟩ := List.forall_mem_cons.1 h
    cases ps with
    | nil => rw [List.intercalate_singleton, pieces_of_not_mem hp]
    | cons q qs =>
      rw [List.intercalate_cons_cons, List.append_assoc, List.singleton_append, pieces_append hp,
        ih (List.cons_ne_nil q qs) h]

theorem cut_append (h : sep ∉ p) (cs : List Char) : cut sep (p ++ sep :: cs) = (p, cs) := by
  have hp : ∀ c ∈ p, (c != sep) = true := fun c hc => bne_iff_ne.2 fun he => h (he ▸ hc)
  rw [cut, List.takeWhile_append_of_pos hp, List.dropWhile_append_of_pos hp,
    List.takeWhile_cons_of_neg (by simp), List.dropWhile_cons_of_neg (by simp), List.append_nil,
    List.tail_cons]

/-- A text with a separator is what is before it, the separator and what is after it. -/
theorem append_cut (h : sep ∈ cs) : (cut sep cs).1 ++ sep :: (cut sep cs).2 = cs := by
  rw [cut]
  have hrest : cs.dropWhile (· != sep) = sep :: (cs.dropWhile (· != sep)).tail := by
    induction cs with
    | nil => cases h
    | cons c cs ih =>
      by_cases hc : c = sep
      · rw [hc, List.dropWhile_cons_of_neg (by simp)]
        rfl
      · rw [List.dropWhile_cons_of_pos (by simp [hc])]
        exact ih ((List.mem_cons.1 h).resolve_left (Ne.symm hc))
  rw [← hrest, List.takeWhile_append_dropWhile]

/-- The parts between the separators make up the text. -/
theorem intercalate_pieces (sep : Char) (cs : List Char) :
    [sep].intercalate (pieces sep cs) = cs := by
  induction cs with
  | nil => rfl
  | cons c cs ih =>
    rw [pieces]
    by_cases hc : c = sep
    · obtain ⟨p, ps, hps⟩ := List.exists_cons_of_ne_nil (pieces_ne_nil sep cs)
      rw [if_pos hc, hps, List.intercalate_cons_cons, ← hps, ih, hc]
      rfl
    · rw [if_neg hc]
      cases hps : pieces sep cs with
      | nil => exact absurd hps (pieces_ne_nil sep cs)
      | cons p ps =>
        rw [hps] at ih
        rw [← ih]
        cases ps with
        | nil => rfl
        | cons q qs => rfl

/-! ### Words -/

theorem start_of_mem_wordsFrom {i : Nat} : ∀ w ∈ wordsFrom i cs, i ≤ w.start := by
  induction cs generalizing i with
  | nil =>
    intro w hw
    cases hw
  | cons c cs ih =>
    intro w hw
    have hrest : ∀ w ∈ wordsFrom (i + 1) cs, i ≤ w.start := by
      intro w hw
      have := ih w hw
      omega
    rw [wordsFrom] at hw
    by_cases hb : isBlank c = true
    · rw [if_pos hb] at hw
      exact hrest w hw
    · rw [if_neg hb] at hw
      cases hws : wordsFrom (i + 1) cs with
      | nil =>
        rw [hws] at hw
        obtain rfl := List.mem_singleton.1 hw
        exact Nat.le_refl i
      | cons v vs =>
        rw [hws] at hw hrest
        obtain ⟨hv, hvs⟩ := List.forall_mem_cons.1 hrest
        -- the character goes on to the next word, or is a word of its own
        by_cases hs : v.start = i + 1
        · simp only [hs, if_true] at hw
          rcases List.mem_cons.1 hw with rfl | hw
          · exact Nat.le_refl i
          · exact hvs w hw
        · simp only [hs, if_false] at hw
          rcases List.mem_cons.1 hw with rfl | hw
          · exact Nat.le_refl i
          · exact hrest w hw

/-- A word in front of a text that does not go on with it. -/
theorem wordsFrom_append {i : Nat} {ws : List Word} (hp : p ≠ [])
    (h : ∀ c ∈ p, isBlank c = false) (hcs : wordsFrom (i + p.length) cs = ws)
    (hws : ∀ w ∈ ws, w.start ≠ i + p.length) : wordsFrom i (p ++ cs) = ⟨p, i⟩ :: ws := by
  -- the word grows by one character at its front
  induction p generalizing i with
  | nil => exact absurd rfl hp
  | cons c p ih =>
    obtain ⟨hc, h⟩ := List.forall_mem_cons.1 h
    rw [List.cons_append, wordsFrom, if_neg (by simp [hc])]
    cases p with
    | nil =>
      rw [List.nil_append, show wordsFrom (i + 1) cs = ws from hcs]
      cases ws with
      | nil => rfl
      | cons w ws =>
        have hw : w.start ≠ i + 1 := hws w List.mem_cons_self
        simp only [hw, if_false]
    | cons d p =>
      have he : i + 1 + (d :: p).length = i + (c :: d :: p).length := by
        simp only [List.length_cons]
        omega
      rw [ih (List.cons_ne_nil d p) h (by rw [he, hcs]) (by rw [he]; exact hws)]
      simp only [if_true]

/-- **Words that are joined by spaces are the words of the text.** -/
theorem words_intercalate {ps : List (List Char)}
    (h : ∀ p ∈ ps, p ≠ [] ∧ ∀ c ∈ p, isBlank c = false) :
    (words ([' '].intercalate ps)).map (·.chars) = ps := by
  suffices hi : ∀ i, (wordsFrom i ([' '].intercalate ps)).map (·.chars) = ps from hi 0
  have hspace : isBlank ' ' = true := by decide
  induction ps with
  | nil => exact fun _ => rfl
  | cons p ps ih =>
    intro i
    obtain ⟨⟨hp, hb⟩, h⟩ := List.forall_mem_cons.1 h
    cases ps with
    | nil =>
      rw [List.intercalate_singleton, ← List.append_nil p,
        wordsFrom_append hp hb rfl (List.forall_mem_nil _)]
      simp [wordsFrom]
    | cons q qs =>
      rw [List.intercalate_cons_cons, List.append_assoc, List.singleton_append]
      have hrest : wordsFrom (i + p.length) (' ' :: [' '].intercalate (q :: qs)) =
          wordsFrom (i + p.length + 1) ([' '].intercalate (q :: qs)) := by
        rw [wordsFrom, if_pos hspace]
      -- the words after the space start past it
      rw [wordsFrom_append hp hb hrest fun w hw => by
        have := start_of_mem_wordsFrom w hw
        omega]
      rw [List.map_cons, ih h]

/-- Words that are joined by spaces are trimmed already. -/
theorem trim_intercalate {ps : List (List Char)}
    (h : ∀ p ∈ ps, p ≠ [] ∧ ∀ c ∈ p, isBlank c = false) :
    trim ([' '].intercalate ps) = [' '].intercalate ps := by
  apply trim_of_ends
  · cases ps with
    | nil => exact nofun
    | cons p ps =>
      obtain ⟨⟨hp, hb⟩, -⟩ := List.forall_mem_cons.1 h
      intro c hc
      apply hb c
      apply List.mem_of_mem_head?
      cases ps with
      | nil => rwa [List.intercalate_singleton] at hc
      | cons q qs =>
        obtain ⟨a, p, rfl⟩ := List.exists_cons_of_ne_nil hp
        rwa [List.intercalate_cons_cons, List.append_assoc, List.cons_append] at hc
  · induction ps with
    | nil => exact nofun
    | cons p ps ih =>
      obtain ⟨⟨hp, hb⟩, h⟩ := List.forall_mem_cons.1 h
      cases ps with
      | nil =>
        rw [List.intercalate_singleton]
        intro c hc
        exact hb c (List.mem_of_mem_getLast? hc)
      | cons q qs =>
        have hne : [' '].intercalate (q :: qs) ≠ [] := by
          obtain ⟨hq, -⟩ := h q List.mem_cons_self
          cases qs with
          | nil => rwa [List.intercalate_singleton]
          | cons => rw [List.intercalate_cons_cons]; simp
        have hlast := ih h
        rw [List.getLast?_eq_some_getLast hne] at hlast
        rw [List.intercalate_cons_cons, List.getLast?_append, List.getLast?_eq_some_getLast hne,
          Option.some_or]
        exact hlast

end CronSchedule.Text
