import CronSchedule.Proofs.Reading.Outcome

/-!
# Where faults are

A fault of a field is shown under the word that was read for it. A fault of a nickname is shown
under all that follows it or, where the nickname is unknown, from the start of the text to its end.
Faults of the text as a whole have no place.

* `Diagnostic.Underlines`: what a rendering with carets looks like; `TextFault.underlines`.
* `Schedule.read_firstRefused`: **the first word that is refused is reported, with the fault that it
  has by itself.**
* `Schedule.HasPlace`, `Schedule.raises_read`: all places that faults have.
* `Schedule.wholeWords_place_iff`: **a place is made of whole words, unless an unknown nickname
  stands behind white space.**
-/

namespace CronSchedule

open Text

/-! ### Renderings -/

/-- The rendering of an error shows a text two columns in, and beneath it a line with carets exactly
in the columns from `i` up to `j` of the text. The columns count all characters of the text. -/
def Diagnostic.Underlines (e : Diagnostic) (text : List Char) (i j : Nat) : Prop :=
  ∃ marks, e.rich.toList = "error: ".toList ++ e.message.toList ++ "\n  ".toList ++ text ++
      "\n  ".toList ++ marks ∧
    ∀ k, marks[k]? = if k < i then some ' ' else if k < j then some '^' else none

/-- A fault with a place is underlined there. -/
theorem TextFault.underlines {f : Fault} {text : List Char} {i j : Nat} (htext : text ≠ [])
    (hlt : i < j) :
    (TextFault.diagnostic ⟨f, some (⟨i, j⟩, text)⟩).Underlines text i j := by
  refine ⟨List.replicate i ' ' ++ List.replicate (j - i) '^', ?_, fun k => ?_⟩
  · have hempty : ¬ (String.ofList text).isEmpty = true := by
      rw [String.isEmpty_iff, ← String.toList_eq_nil_iff, String.toList_ofList]
      exact htext
    have hpad : ((i : Int) + 2).toNat = i + 2 := by omega
    have hcarets : (max ((j : Int) - i) 1).toNat = j - i := by omega
    simp only [TextFault.diagnostic, Diagnostic.rich, Option.map_some, if_neg hempty,
      Diagnostic.repeated, hpad, hcarets, String.toList_append, String.toList_ofList]
    simp [List.replicate_succ]
  · rw [List.getElem?_append, List.length_replicate, List.getElem?_replicate,
      List.getElem?_replicate]
    split
    · rfl
    · next hk =>
      have hcolumn : k - i < j - i ↔ k < j := by omega
      simp only [hcolumn]

namespace Schedule

variable {D : Definition} {t : List Char} {w : Word} {ws : List Word} {f : Fault} {i j : Nat}

/-! ### The first refused word -/

/-- **The first word that is refused is reported, with the fault that it has by itself.** The fault
is underlined exactly where the word stands in the text. Where no word is refused, the first
constraint that the fields violate is reported, which has no place. -/
theorem read_firstRefused (hnames : ∀ d ∈ D.fields, d.rule.Lettered) (hws : AreWords t ws)
    (hlen : ws.length ∈ D.acceptedLengths) (hw : ws.head? = some w)
    (hat : w.chars.head? ≠ some '@') :
    ((∃ p ∈ ws.zip D.fields, ∀ e, ¬ p.2.Accepts p.1.chars e) →
      ∃ pre w d post f, ws.zip D.fields = pre ++ (w, d) :: post ∧
        (∀ p ∈ pre, ∃ e, p.2.Accepts p.1.chars e) ∧ d.Refuses w.chars f ∧
        (f.kind = .parse ∨ f.kind = .validation) ∧ t.extract w.start w.stop = w.chars ∧
        ∃ tf, read D t = .error tf ∧ tf.place = some (⟨w.start, w.stop⟩, t) ∧
          tf.diagnostic.kind = f.diagnostic.kind ∧
          tf.diagnostic.message = f.diagnostic.message ∧
          tf.diagnostic.Underlines t w.start w.stop) ∧
      ((∀ p ∈ ws.zip D.fields, ∃ e, p.2.Accepts p.1.chars e) →
        ∀ tf, read D t = .error tf → tf.place = none ∧
          ∃ (s : Schedule) (pre : List Constraint) (c : Constraint) (post : List Constraint),
            s.definition = D ∧ Fills ws D.fields s.fields ∧ D.constraints = pre ++ c :: post ∧
              (∀ b ∈ pre, s.satisfies b = true) ∧ s.satisfies c = false ∧
              tf.fault = .violated s.chars c.description) := by
  obtain ⟨ws, rfl⟩ : ∃ ws', ws = w :: ws' := ⟨ws.tail, (List.cons_head?_tail hw).symm⟩
  have hle := (Definition.mem_acceptedLengths.1 hlen).2
  have hread : read D t = readFields t (w :: ws) D.fields >>= validated D := by
    rw [read_of_words hws hat, if_pos hlen]
  constructor
  · rintro ⟨p, hp, hnone⟩
    cases hfs : readFields t (w :: ws) D.fields with
    | ok fs =>
      obtain ⟨e, he⟩ := (exists_fills_iff hle).1 ⟨fs, (readFields_eq_ok_iff hle).1 hfs⟩ p hp
      exact absurd he (hnone e)
    | error tf =>
      obtain ⟨pre, v, d, post, f, hzip, hpre, hf, rfl⟩ := readFields_eq_error hfs
      have hmem : (v, d) ∈ (w :: ws).zip D.fields := by
        rw [hzip]
        exact List.mem_append_right pre List.mem_cons_self
      obtain ⟨hv, hd⟩ := List.of_mem_zip hmem
      have hword := (hws.mem_iff v).1 hv
      refine ⟨pre, v, d, post, f, hzip, hpre, hf, hf.kind_eq (hnames d hd), hword.extract_eq, ?_⟩
      refine ⟨_, by rw [hread, hfs]; rfl, rfl, rfl, rfl, ?_⟩
      exact TextFault.underlines hword.whole.ne_nil hword.whole.lt
  · intro hall tf htf
    obtain ⟨fs, hfills⟩ := (exists_fills_iff hle).2 hall
    obtain ⟨s, rfl, rfl⟩ := hfills.exists_schedule
    rw [hread, (readFields_eq_ok_iff hle).2 hfills] at htf
    obtain ⟨hplace, pre, c, post, hcs, hpre, hc, hfault⟩ := validated_eq_error hfills htf
    exact ⟨hplace, s, pre, c, post, rfl, hfills, hcs, hpre, hc, hfault⟩

theorem read_hour25_and_bothDays :
    (read Dialect.unix " 0\t25 * * *".toList =
        .error ⟨.outOfRange 25 0 23 .hour, some (⟨3, 5⟩, " 0\t25 * * *".toList)⟩ ∧
      (TextFault.diagnostic ⟨.outOfRange 25 0 23 .hour,
        some (⟨3, 5⟩, " 0\t25 * * *".toList)⟩).Underlines " 0\t25 * * *".toList 3 5) ∧
    ∃ s : Schedule, s.satisfies .oneDayField = false ∧
      read Dialect.cron4j "0 9 1 * MON".toList =
        .error ⟨.violated s.chars Constraint.oneDayField.description, none⟩ := by
  constructor
  · have hws : AreWords " 0\t25 * * *".toList [⟨"0".toList, 1⟩, ⟨"25".toList, 3⟩, ⟨"*".toList, 6⟩,
        ⟨"*".toList, 8⟩, ⟨"*".toList, 10⟩] := areWords_iff.2 (by decide)
    have hread : read Dialect.unix " 0\t25 * * *".toList =
        .error ⟨.outOfRange 25 0 23 .hour, some (⟨3, 5⟩, " 0\t25 * * *".toList)⟩ := by cbv
    have hrefused : (Dialect.hour true).Refuses "25".toList (.outOfRange 25 0 23 .hour) :=
      .inr ⟨.value 25, by cbv, by rfl⟩
    have hnames := Dialect.lettered Dialect.unix Dialect.unix_mem_all
    obtain ⟨pre, w, d, post, f, -, -, -, -, -, tf, htf, hplace, -, -, hunder⟩ :=
      (read_firstRefused hnames hws (by decide) rfl (by decide)).1
        ⟨(⟨"25".toList, 3⟩, Dialect.hour true), by decide, fun e he => he.not_refuses hrefused⟩
    rw [hread] at htf
    cases htf
    simp only [Option.some.injEq, Prod.mk.injEq, Span.mk.injEq, and_true] at hplace
    obtain ⟨hstart, hstop⟩ := hplace
    rw [show w.start = 3 by omega, show w.stop = 5 by omega] at hunder
    exact ⟨hread, hunder⟩
  · have hws : AreWords "0 9 1 * MON".toList [⟨"0".toList, 0⟩, ⟨"9".toList, 2⟩, ⟨"1".toList, 4⟩,
        ⟨"*".toList, 6⟩, ⟨"MON".toList, 8⟩] := areWords_iff.2 (by decide)
    have hfills : Fills _ Dialect.cron4j.fields _ :=
      .next (w := ⟨"0".toList, 0⟩) (e := .value 0) ⟨by cbv, by rfl⟩ <|
      .next (w := ⟨"9".toList, 2⟩) (e := .value 9) ⟨by cbv, by rfl⟩ <|
      .next (w := ⟨"1".toList, 4⟩) (e := .value 1) ⟨by cbv, by rfl⟩ <|
      .next (w := ⟨"*".toList, 6⟩) (e := .always) ⟨by cbv, by rfl⟩ <|
      .next (w := ⟨"MON".toList, 8⟩) (e := .value 1) ⟨by cbv, by rfl⟩ <| .done []
    obtain ⟨⟨fault, place⟩, htf⟩ : ∃ tf, read Dialect.cron4j "0 9 1 * MON".toList = .error tf := by
      cases hread : read Dialect.cron4j "0 9 1 * MON".toList with
      | error tf => exact ⟨tf, rfl⟩
      | ok s =>
        obtain ⟨-, -, hfills', hcs⟩ := (read_eq_ok_iff_of_first hws (by decide)).1 hread
        have hbroken := hcs .oneDayField List.mem_cons_self
        rw [satisfies, isUnspecified, isUnspecified, isUnspecified, expr?, expr?, expr?,
          hfills'.eq hfills] at hbroken
        cases hbroken
    have hnames := Dialect.lettered Dialect.cron4j (by simp [Dialect.all])
    obtain ⟨hplace, s, pre, c, post, -, -, hcs, -, hc, hfault⟩ :=
      (read_firstRefused hnames hws (by decide) rfl (by decide)).2
        ((exists_fills_iff (by decide)).1 ⟨_, hfills⟩) _ htf
    obtain rfl : c = .oneDayField := by
      have hmem : c ∈ Dialect.cron4j.constraints := by simp [hcs]
      simpa [Dialect.cron4j] using hmem
    obtain rfl : place = none := hplace
    obtain rfl : fault = .violated s.chars _ := hfault
    exact ⟨s, hc, htf⟩

/-! ### All places -/

/-- What a fault is about, from where to where in a text. -/
inductive HasPlace (D : Definition) (t : List Char) : Fault → Nat → Nat → Prop
  /-- A word that is refused. -/
  | word {ws : List Word} {w : Word} {d : FieldDefinition} {f : Fault} (hws : AreWords t ws)
      (hat : ∀ v ∈ ws.head?, v.chars.head? ≠ some '@') (hmem : (w, d) ∈ ws.zip D.fields)
      (hf : d.Refuses w.chars f) : HasPlace D t f w.start w.stop
  /-- All that follows a nickname, from the first word to the last. -/
  | behind {w v z : Word} {ws : List Word} (hws : AreWords t (w :: v :: ws))
      (hat : w.chars.head? = some '@') (hlast : (v :: ws).getLast? = some z) :
      HasPlace D t (.afterNickname w.chars) v.start z.stop
  /-- An unknown nickname, from the start of the text on. -/
  | nickname {w : Word} (hws : AreWords t [w]) (hat : w.chars.head? = some '@')
      (hname : nickname? D w.chars = none) : HasPlace D t (.nickname w.chars) 0 w.stop

/-- A fault with no place, or with one of those that faults of a text have. -/
def Placed (D : Definition) (t : List Char) (tf : TextFault) : Prop :=
  tf.place = none ∨ ∃ i j : Nat, tf.place = some (⟨i, j⟩, t) ∧ HasPlace D t tf.fault i j

theorem raises_mapError {α : Type} (x : Except Fault α) :
    Raises (Placed D t) (x.mapError fun f => ⟨f, none⟩) := by
  cases x with
  | error f => exact .inl rfl
  | ok a => exact trivial

theorem raises_validated (fs : List Field) : Raises (Placed D t) (validated D fs) :=
  (raises_mapError _).bind fun _ _ => trivial

theorem raises_readFields (hws : AreWords t ws) (hat : ∀ v ∈ ws.head?, v.chars.head? ≠ some '@') :
    Raises (Placed D t) (readFields t ws D.fields) := by
  cases hfs : readFields t ws D.fields with
  | ok fs => exact trivial
  | error tf =>
    obtain ⟨pre, w, d, post, f, hzip, -, hf, rfl⟩ := readFields_eq_error hfs
    refine .inr ⟨w.start, w.stop, rfl, .word hws hat ?_ hf⟩
    rw [hzip]
    exact List.mem_append_right pre List.mem_cons_self

theorem raises_readNickname (hws : AreWords t [w]) (hat : w.chars.head? = some '@') :
    Raises (Placed D t) (readNickname D t w.chars) := by
  rw [readNickname]
  cases hname : nickname? D w.chars with
  | none =>
    refine .inr ⟨0, w.stop, ?_, .nickname hws hat hname⟩
    rw [hws.length_trimRight]
    rfl
  | some settings => exact (raises_mapError _).bind fun fs _ => raises_validated fs

/-- A text has no other faults than these. -/
theorem raises_read (D : Definition) (t : List Char) : Raises (Placed D t) (read D t) := by
  have hws := areWords_words t
  rw [read]
  cases hwords : words t with
  | nil => exact .inl rfl
  | cons w ws =>
    rw [hwords] at hws
    by_cases hat : w.chars.head? = some '@'
    · simp only [if_pos hat]
      cases ws with
      | nil => exact raises_readNickname hws hat
      | cons v ws =>
        have hlast := List.getLast?_eq_some_getLast (List.cons_ne_nil v ws)
        simp only [List.head?_cons, hlast]
        exact .inr ⟨_, _, rfl, .behind hws hat hlast⟩
    · simp only [if_neg hat]
      split
      · refine (raises_readFields hws fun v hv => ?_).bind fun fs _ => raises_validated fs
        obtain rfl : w = v := Option.some.inj hv
        exact hat
      · exact .inl rfl

/-- A place starts and ends with words, or it starts with the text and ends with its only word. -/
theorem HasPlace.cases_wholeWords (h : HasPlace D t f i j) :
    (WholeWords t i j ∧ ∀ w, AreWords t [w] → w.chars.head? = some '@' → w.start = 0) ∨
      ∃ w, AreWords t [w] ∧ w.chars.head? = some '@' ∧ i = 0 ∧ j = w.stop := by
  cases h with
  | @word ws w d f hws hat hmem hf =>
    refine .inl ⟨((hws.mem_iff w).1 (List.of_mem_zip hmem).1).whole, fun v hv hv' => ?_⟩
    rw [(areWords_iff.1 hws).trans (areWords_iff.1 hv).symm] at hat
    exact absurd hv' (hat v rfl)
  | @behind w v z ws hws hat hlast =>
    refine .inl ⟨?_, fun u hu => ?_⟩
    · have hz := List.mem_of_getLast? hlast
      have hle : v.start ≤ z.start := by
        rcases List.mem_cons.1 hz with rfl | hz
        · exact Nat.le_refl _
        · exact Nat.le_of_lt (List.rel_of_pairwise_cons hws.ordered.tail hz)
      have hvword := (hws.mem_iff v).1 (List.mem_cons_of_mem w List.mem_cons_self)
      exact hvword.whole.upTo ((hws.mem_iff z).1 (List.mem_cons_of_mem w hz)).whole hle
    · have hone := (areWords_iff.1 hws).trans (areWords_iff.1 hu).symm
      cases hone
  | @nickname w hws hat hname => exact .inr ⟨w, hws, hat, rfl, rfl⟩

/-- **A place is made of whole words, unless an unknown nickname stands behind white space.** It is
a part of the text, and it is what the rendering underlines. -/
theorem wholeWords_place_iff {span : Span} {input : List Char}
    (h : read D t = .error ⟨f, some (span, input)⟩) :
    input = t ∧ ∃ i j : Nat, span = ⟨i, j⟩ ∧ HasPlace D t f i j ∧ i < j ∧ j ≤ t.length ∧
      (TextFault.diagnostic ⟨f, some (span, input)⟩).Underlines t i j ∧
      (WholeWords t i j ↔ ¬ ∃ w, AreWords t [w] ∧ w.chars.head? = some '@' ∧ 0 < w.start) := by
  rcases (raises_read D t).of_error h with hnone | ⟨i, j, hsome, hplace⟩
  · cases hnone
  cases hsome
  rcases hplace.cases_wholeWords with ⟨hwhole, hstart⟩ | ⟨w, hws, hat, rfl, rfl⟩
  · refine ⟨rfl, i, j, rfl, hplace, hwhole.lt, hwhole.le_length,
      TextFault.underlines hwhole.ne_nil hwhole.lt, iff_of_true hwhole ?_⟩
    rintro ⟨w, hws, hat, hpos⟩
    exact Nat.ne_of_gt hpos (hstart w hws hat)
  · have hwhole := ((hws.mem_iff w).1 List.mem_cons_self).whole
    have hpos : 0 < w.stop := Nat.zero_lt_of_lt hwhole.lt
    refine ⟨rfl, 0, w.stop, rfl, hplace, hpos, hwhole.le_length,
      TextFault.underlines hwhole.ne_nil hpos, ?_⟩
    rw [hws.wholeWords_iff]
    constructor
    · rintro hstart ⟨v, hv, -, hvpos⟩
      have hone := (areWords_iff.1 hws).trans (areWords_iff.1 hv).symm
      obtain rfl : w = v := (List.cons.inj hone).1
      exact Nat.ne_of_gt hvpos hstart
    · intro hnone
      exact Nat.eq_zero_of_not_pos fun hstart => hnone ⟨w, hws, hat, hstart⟩

theorem wholeWords_afterDaily :
    read Dialect.unix " @daily  1\t* ".toList =
        .error ⟨.afterNickname "@daily".toList, some (⟨9, 12⟩, " @daily  1\t* ".toList)⟩ ∧
      WholeWords " @daily  1\t* ".toList 9 12 := by
  have hread : read Dialect.unix " @daily  1\t* ".toList =
      .error ⟨.afterNickname "@daily".toList, some (⟨9, 12⟩, " @daily  1\t* ".toList)⟩ := by rfl
  obtain ⟨-, i, j, hspan, -, -, -, -, hwhole⟩ := wholeWords_place_iff hread
  simp only [Span.mk.injEq] at hspan
  obtain ⟨hi, hj⟩ := hspan
  obtain rfl : i = 9 := by omega
  obtain rfl : j = 12 := by omega
  refine ⟨hread, hwhole.2 ?_⟩
  rintro ⟨w, hws, -⟩
  cases areWords_iff.1 hws

/-- White space in front of an unknown nickname is underlined with it. -/
theorem not_wholeWords_fortnightly :
    read Dialect.unix "  @fortnightly".toList =
        .error ⟨.nickname "@fortnightly".toList, some (⟨0, 14⟩, "  @fortnightly".toList)⟩ ∧
      ¬ WholeWords "  @fortnightly".toList 0 14 := by
  refine ⟨by rfl, ?_⟩
  rintro ⟨-, ⟨c, hc, hsolid⟩, -⟩
  cases hc
  cases hsolid

end Schedule

end CronSchedule
