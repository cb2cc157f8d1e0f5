import CronSchedule.Proofs.Reading.Text
import Mathlib.Data.List.Basic

/-!
# The words of a text

The reader finds the words of a text character by character, from its end. Here they are told by
their places: a word is a maximal run of characters that are not white space.

* `Text.WholeWords`: a part of a text that white space and the ends of the text bound.
* `Text.IsWord`, `Text.AreWords`: the maximal runs, one and all of them.
* `Text.wordsFrom_append_blank`: words do not reach across white space.
* `Text.areWords_iff`: **the reader's words are all maximal runs of the text, from left to right.**
* `Text.AreWords.length_trimRight`, `Text.AreWords.wholeWords_iff`: a text of one word.
-/

namespace CronSchedule.Text

variable {text cs p a b : List Char} {ws : List Word} {v w : Word} {c : Char} {i j : Nat}

/-! ### Runs -/

/-- From offset `i` up to offset `j` a text holds whole words: the part starts and ends with a
character that is not white space, and on each side of it there is white space or an end of the
text. -/
structure WholeWords (text : List Char) (i j : Nat) : Prop where
  lt : i < j
  first : ∃ c, text[i]? = some c ∧ isBlank c = false
  last : ∃ c, text[j - 1]? = some c ∧ isBlank c = false
  before : i = 0 ∨ ∃ c, text[i - 1]? = some c ∧ isBlank c = true
  after : j = text.length ∨ ∃ c, text[j]? = some c ∧ isBlank c = true

/-- A word of a text, at its place: a maximal run of characters that are not white space. -/
structure IsWord (text : List Char) (w : Word) : Prop where
  whole : WholeWords text w.start w.stop
  extract_eq : text.extract w.start w.stop = w.chars
  solid : ∀ c ∈ w.chars, isBlank c = false

/-- All words of a text, from left to right. -/
structure AreWords (text : List Char) (ws : List Word) : Prop where
  mem_iff : ∀ w, w ∈ ws ↔ IsWord text w
  ordered : ws.Pairwise fun v w => v.start < w.start

theorem WholeWords.ne_nil (h : WholeWords text i j) : text ≠ [] := by
  obtain ⟨-, ⟨c, hc, -⟩, -⟩ := h
  exact List.ne_nil_of_mem (List.mem_of_getElem? hc)

theorem WholeWords.le_length (h : WholeWords text i j) : j ≤ text.length := by
  obtain ⟨hlt, -, ⟨c, hc, -⟩, -⟩ := h
  have := (List.getElem?_eq_some_iff.1 hc).1
  omega

/-- From the start of some whole words to the end of later ones there are whole words. -/
theorem WholeWords.upTo {k l : Nat} (h : WholeWords text i j) (h' : WholeWords text k l)
    (hle : i ≤ k) : WholeWords text i l :=
  ⟨Nat.lt_of_le_of_lt hle h'.lt, h.first, h'.last, h.before, h'.after⟩

/-- A part between white space and the ends of a text, told by what is around it. -/
theorem wholeWords_append (hp : p ≠ []) (hfirst : ∀ c ∈ p.head?, isBlank c = false)
    (hlast : ∀ c ∈ p.getLast?, isBlank c = false) (ha : ∀ c ∈ a.getLast?, isBlank c = true)
    (hb : ∀ c ∈ b.head?, isBlank c = true) :
    WholeWords (a ++ p ++ b) a.length (a.length + p.length) := by
  have hpos := List.length_pos_iff.2 hp
  constructor
  · omega
  · obtain ⟨c, rest, rfl⟩ := List.exists_cons_of_ne_nil hp
    exact ⟨c, by simp, hfirst c rfl⟩
  · have hend := List.getLast?_eq_some_getLast hp
    refine ⟨p.getLast hp, ?_, hlast _ hend⟩
    rw [List.getLast?_eq_getElem?] at hend
    rw [List.append_assoc, List.getElem?_append_right (by omega),
      List.getElem?_append_left (by omega), ← hend]
    congr 1
    omega
  · rcases List.eq_nil_or_concat' a with rfl | ⟨a, c, rfl⟩
    · exact .inl rfl
    · exact .inr ⟨c, by simp, ha c (by simp)⟩
  · cases b with
    | nil => exact .inl (by simp)
    | cons c b => exact .inr ⟨c, by simp, hb c rfl⟩

theorem isWord_append (hp : p ≠ []) (hsolid : ∀ c ∈ p, isBlank c = false)
    (ha : ∀ c ∈ a.getLast?, isBlank c = true) (hb : ∀ c ∈ b.head?, isBlank c = true) :
    IsWord (a ++ p ++ b) ⟨p, a.length⟩ where
  whole := wholeWords_append hp (fun c hc => hsolid c (List.mem_of_mem_head? hc))
    (fun c hc => hsolid c (List.mem_of_mem_getLast? hc)) ha hb
  extract_eq := by simp [Word.stop, List.extract_eq_take_drop]
  solid := hsolid

/-- A word of a text with what is around it. -/
theorem IsWord.exists_append (h : IsWord text w) :
    ∃ a b, text = a ++ w.chars ++ b ∧ a.length = w.start ∧ w.chars ≠ [] ∧
      (∀ c ∈ a.getLast?, isBlank c = true) ∧ ∀ c ∈ b.head?, isBlank c = true := by
  obtain ⟨⟨hlt, ⟨c, hc, -⟩, -, hbefore, hafter⟩, hextract, -⟩ := h
  have hlen : w.start < text.length := (List.getElem?_eq_some_iff.1 hc).1
  refine ⟨text.take w.start, text.drop w.stop, ?_, ?_, ?_, ?_, ?_⟩
  · have hdrop : text.drop w.stop = (text.drop w.start).drop (w.stop - w.start) := by
      rw [List.drop_drop, Nat.add_sub_cancel' (Nat.le_of_lt hlt)]
    rw [← hextract, List.extract_eq_take_drop, List.append_assoc, hdrop, List.take_append_drop,
      List.take_append_drop]
  · rw [List.length_take]
    omega
  · rw [Word.stop] at hlt
    exact List.ne_nil_of_length_pos (by omega)
  · intro d hd
    rw [List.getLast?_take] at hd
    rcases hbefore with hstart | ⟨c, hc, hb⟩
    · rw [if_pos hstart] at hd
      cases hd
    · split at hd
      · cases hd
      · rw [hc] at hd
        cases hd
        exact hb
  · intro d hd
    rw [List.head?_drop] at hd
    rcases hafter with hend | ⟨c, hc, hb⟩
    · rw [hend, List.getElem?_length] at hd
      cases hd
    · rw [hc] at hd
      cases hd
      exact hb

/-! ### Taking a text apart -/

/-- Induction over a text by its words: a text is empty, starts with white space, or starts with a
word before white space or the end. -/
theorem induction_words {P : List Char → Prop} (nil : P [])
    (blank : ∀ c cs, isBlank c = true → P cs → P (c :: cs))
    (word : ∀ p cs, p ≠ [] → (∀ c ∈ p, isBlank c = false) → (∀ c ∈ cs.head?, isBlank c = true) →
      P cs → P (p ++ cs)) (cs : List Char) : P cs := by
  induction hn : cs.length using Nat.strong_induction_on generalizing cs with
  | _ n ih =>
    cases cs with
    | nil => exact nil
    | cons c cs =>
      rw [List.length_cons] at hn
      by_cases hc : isBlank c = true
      · exact blank c cs hc (ih cs.length (by omega) cs rfl)
      · have hsplit := List.takeWhile_append_dropWhile (p := fun c => !isBlank c) (l := cs)
        have hlen := congrArg List.length hsplit
        rw [List.length_append] at hlen
        rw [← hsplit, ← List.cons_append]
        refine word _ _ (List.cons_ne_nil _ _) ?_ ?_ (ih _ (by omega) _ rfl)
        · rw [List.forall_mem_cons]
          exact ⟨by simpa using hc, fun d hd => by simpa using List.mem_takeWhile_imp hd⟩
        · intro d hd
          have hhead := List.head?_dropWhile_not (fun c => !isBlank c) cs
          rw [hd] at hhead
          simpa using hhead

/-- **Words do not reach across white space.** -/
theorem wordsFrom_append_blank (hc : isBlank c = true) (i : Nat) (a b : List Char) :
    wordsFrom i (a ++ c :: b) = wordsFrom i a ++ wordsFrom (i + a.length + 1) b := by
  induction a generalizing i with
  | nil => simp only [List.nil_append, wordsFrom, if_pos hc, List.length_nil, Nat.add_zero]
  | cons d a ih =>
    have hoffset : i + 1 + a.length + 1 = i + (d :: a).length + 1 := by
      rw [List.length_cons]
      omega
    have hrest := ih (i + 1)
    rw [hoffset] at hrest
    rw [List.cons_append, wordsFrom, wordsFrom, hrest]
    by_cases hd : isBlank d = true
    · rw [if_pos hd, if_pos hd]
    · rw [if_neg hd, if_neg hd]
      cases hws : wordsFrom (i + 1) a with
      | nil =>
        -- the words after the white space start too late to go on with this one
        rw [List.nil_append]
        cases hvs : wordsFrom (i + (d :: a).length + 1) b with
        | nil => rfl
        | cons v vs =>
          have hv := start_of_mem_wordsFrom v (hvs ▸ List.mem_cons_self)
          rw [List.length_cons] at hv
          simp only [show v.start ≠ i + 1 by omega, if_false]
          rfl
      | cons v vs =>
        simp only [List.cons_append]
        split <;> rfl

/-- A word, and what comes after it from white space on. -/
theorem wordsFrom_word (hp : p ≠ []) (hsolid : ∀ c ∈ p, isBlank c = false)
    (hcs : ∀ c ∈ cs.head?, isBlank c = true) (i : Nat) :
    wordsFrom i (p ++ cs) = ⟨p, i⟩ :: wordsFrom (i + p.length) cs := by
  refine wordsFrom_append hp hsolid rfl ?_
  cases cs with
  | nil => exact List.forall_mem_nil _
  | cons c cs =>
    rw [wordsFrom, if_pos (hcs c rfl)]
    intro w hw
    have := start_of_mem_wordsFrom w hw
    omega

/-! ### The words are the runs -/

theorem exists_append_of_mem_wordsFrom (hw : w ∈ wordsFrom i cs) :
    ∃ a b, cs = a ++ w.chars ++ b ∧ i + a.length = w.start ∧ w.chars ≠ [] ∧
      (∀ c ∈ w.chars, isBlank c = false) ∧ (∀ c ∈ a.getLast?, isBlank c = true) ∧
      ∀ c ∈ b.head?, isBlank c = true := by
  induction cs using induction_words generalizing i with
  | nil => cases hw
  | blank c cs hc ih =>
    rw [wordsFrom, if_pos hc] at hw
    obtain ⟨a, b, rfl, hstart, hne, hsolid, ha, hb⟩ := ih hw
    refine ⟨c :: a, b, rfl, ?_, hne, hsolid, ?_, hb⟩
    · rw [List.length_cons]
      omega
    · intro d hd
      rw [List.getLast?_cons] at hd
      cases hlast : a.getLast? with
      | none =>
        rw [hlast] at hd
        cases hd
        exact hc
      | some e =>
        rw [hlast] at hd
        cases hd
        exact ha e hlast
  | word p cs hp hsolid hcs ih =>
    rw [wordsFrom_word hp hsolid hcs] at hw
    rcases List.mem_cons.1 hw with rfl | hw
    · refine ⟨[], cs, rfl, rfl, hp, hsolid, fun c hc => ?_, hcs⟩
      cases hc
    · obtain ⟨a, b, rfl, hstart, hne, hsolid', ha, hb⟩ := ih hw
      refine ⟨p ++ a, b, by simp only [List.append_assoc], ?_, hne, hsolid', ?_, hb⟩
      · rw [List.length_append]
        omega
      · -- a later word does not follow at once
        have hane : a ≠ [] := by
          rintro rfl
          obtain ⟨c, rest, hchars⟩ := List.exists_cons_of_ne_nil hne
          have hblank := hcs c (by rw [hchars]; rfl)
          rw [hsolid' c (hchars ▸ List.mem_cons_self)] at hblank
          cases hblank
        rwa [List.getLast?_append_of_ne_nil p hane]

theorem isWord_of_mem_words (hw : w ∈ words text) : IsWord text w := by
  obtain ⟨a, b, rfl, hstart, hne, hsolid, ha, hb⟩ := exists_append_of_mem_wordsFrom hw
  have hword := isWord_append hne hsolid ha hb
  rwa [show a.length = w.start by omega] at hword

/-- The words of a text around one of them. -/
theorem IsWord.exists_words (h : IsWord text w) :
    ∃ a b, text = a ++ w.chars ++ b ∧ a.length = w.start ∧ w.chars ≠ [] ∧
      words text = wordsFrom 0 a ++ w :: wordsFrom w.stop b := by
  obtain ⟨a, b, rfl, hstart, hne, ha, hb⟩ := h.exists_append
  have hrest : wordsFrom w.start (w.chars ++ b) = w :: wordsFrom w.stop b :=
    wordsFrom_word hne h.solid hb w.start
  refine ⟨a, b, rfl, hstart, hne, ?_⟩
  rw [words, List.append_assoc]
  rcases List.eq_nil_or_concat' a with rfl | ⟨a, c, rfl⟩
  · rw [List.nil_append, show 0 = w.start from hstart, hrest]
    rfl
  · have hc : isBlank c = true := ha c (by simp)
    rw [List.length_append, List.length_singleton] at hstart
    rw [List.append_assoc, List.singleton_append, wordsFrom_append_blank hc,
      wordsFrom_append_blank hc, Nat.zero_add, hstart, hrest, wordsFrom, List.append_nil]

theorem IsWord.mem_words (h : IsWord text w) : w ∈ words text := by
  obtain ⟨a, b, -, -, -, hwords⟩ := h.exists_words
  rw [hwords]
  exact List.mem_append_right _ List.mem_cons_self

theorem ordered_wordsFrom (i : Nat) (cs : List Char) :
    (wordsFrom i cs).Pairwise fun v w => v.start < w.start := by
  induction cs using induction_words generalizing i with
  | nil => exact .nil
  | blank c cs hc ih =>
    rw [wordsFrom, if_pos hc]
    exact ih (i + 1)
  | word p cs hp hsolid hcs ih =>
    rw [wordsFrom_word hp hsolid hcs]
    refine .cons ?_ (ih _)
    intro w hw
    have hstart := start_of_mem_wordsFrom w hw
    have hpos := List.length_pos_iff.2 hp
    show i < w.start
    omega

theorem areWords_words (text : List Char) : AreWords text (words text) :=
  ⟨fun _ => ⟨isWord_of_mem_words, IsWord.mem_words⟩, ordered_wordsFrom 0 text⟩

/-- **The reader's words are all maximal runs of the text, from left to right.** -/
theorem areWords_iff : AreWords text ws ↔ ws = words text := by
  constructor
  · intro h
    have hwords := areWords_words text
    have hnodup : ∀ {vs : List Word}, (vs.Pairwise fun v w => v.start < w.start) → vs.Nodup :=
      fun hvs => hvs.imp fun hlt heq => by simp [heq] at hlt
    have hperm := (List.perm_ext_iff_of_nodup (hnodup h.ordered) (hnodup hwords.ordered)).2
      fun w => (h.mem_iff w).trans (hwords.mem_iff w).symm
    refine hperm.eq_of_pairwise ?_ h.ordered hwords.ordered
    intro v w _ _ hlt hlt'
    omega
  · rintro rfl
    exact areWords_words text

/-! ### A text of one word -/

theorem isBlank_of_wordsFrom_eq_nil (h : wordsFrom i cs = []) : ∀ c ∈ cs, isBlank c = true := by
  induction cs using induction_words generalizing i with
  | nil => exact List.forall_mem_nil _
  | blank c cs hc ih =>
    rw [wordsFrom, if_pos hc] at h
    exact List.forall_mem_cons.2 ⟨hc, ih h⟩
  | word p cs hp hsolid hcs _ =>
    rw [wordsFrom_word hp hsolid hcs] at h
    cases h

/-- Around its only word a text has nothing but white space. -/
theorem AreWords.exists_blanks (h : AreWords text [w]) :
    ∃ a b, text = a ++ w.chars ++ b ∧ a.length = w.start ∧ w.chars ≠ [] ∧
      (∀ c ∈ a, isBlank c = true) ∧ ∀ c ∈ b, isBlank c = true := by
  have hw : IsWord text w := (h.mem_iff w).1 List.mem_cons_self
  obtain ⟨a, b, htext, hstart, hne, hwords⟩ := hw.exists_words
  rw [← areWords_iff.1 h] at hwords
  have hlength := congrArg List.length hwords
  rw [List.length_singleton, List.length_append, List.length_cons] at hlength
  refine ⟨a, b, htext, hstart, hne, ?_, ?_⟩
  · exact isBlank_of_wordsFrom_eq_nil (i := 0) (List.length_eq_zero_iff.1 (by omega))
  · exact isBlank_of_wordsFrom_eq_nil (i := w.stop) (List.length_eq_zero_iff.1 (by omega))

/-- A text of one word ends with it, but for white space. -/
theorem AreWords.length_trimRight (h : AreWords text [w]) : (trimRight text).length = w.stop := by
  have hw : IsWord text w := (h.mem_iff w).1 List.mem_cons_self
  obtain ⟨a, b, rfl, hstart, hne, -, hb⟩ := h.exists_blanks
  have hsolid : isBlank (w.chars.getLast hne) = false := hw.solid _ (List.getLast_mem hne)
  have htrim : trimRight (a ++ w.chars ++ b) = a ++ w.chars := by
    rw [trimRight, List.reverse_append, List.reverse_append,
      List.dropWhile_append_of_pos fun c hc => hb c (List.mem_reverse.1 hc),
      ← List.dropLast_concat_getLast hne, List.reverse_append, List.reverse_singleton,
      List.singleton_append, List.cons_append, List.dropWhile_cons_of_neg (by simp [hsolid])]
    simp
  rw [htrim, List.length_append, hstart, Word.stop]

/-- The part of a text up to the end of its only word is that word, unless white space stands in
front. -/
theorem AreWords.wholeWords_iff (h : AreWords text [w]) :
    WholeWords text 0 w.stop ↔ w.start = 0 := by
  have hw : IsWord text w := (h.mem_iff w).1 List.mem_cons_self
  constructor
  · rintro ⟨-, ⟨c, hc, hsolid⟩, -⟩
    obtain ⟨a, b, rfl, hstart, -, ha, -⟩ := h.exists_blanks
    cases a with
    | nil => exact hstart.symm
    | cons d a =>
      cases hc
      rw [ha c List.mem_cons_self] at hsolid
      cases hsolid
  · intro hstart
    have hwhole := hw.whole
    rwa [hstart] at hwhole

end CronSchedule.Text
