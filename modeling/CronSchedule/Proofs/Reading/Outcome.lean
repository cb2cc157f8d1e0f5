import CronSchedule.Proofs.Reading.Schedule
import CronSchedule.Proofs.Reading.Words

/-!
# What the reading of a text gives

A text that is no nickname is read word by word, and what was read is checked once more as a whole.
The second check of the fields never fails, so a schedule is refused for its first refused word or,
after that, for its first violated constraint.

* `Schedule.of?_fields`: the fields of a schedule are accepted when a schedule is made of them.
* `Schedule.validated_eq_error`: what is wrong with fields that were read.
* `Schedule.read_eq_ok_iff_fills`: **a text is read exactly if its words fill the fields of the
  dialect and keep its constraints.**
-/

namespace CronSchedule

open Text

namespace Schedule

variable {s : Schedule} {D : Definition} {w : Word} {ws : List Word} {fs : List Field}
  {t : List Char} {f : Fault} {tf : TextFault}

/-! ### The schedule -/

/-- The schedule of the fields that words stand for. -/
theorem Fills.exists_schedule (h : Fills ws D.fields fs) :
    ∃ s : Schedule, s.definition = D ∧ s.fields = fs := by
  have hordered : (fs.map (·.name)).Sublist D.fieldNames := by
    rw [h.names]
    exact (List.take_sublist _ _).map _
  exact ⟨⟨D, fs, hordered⟩, rfl, rfl⟩

/-- Fields that the dialect has, each given once, are not refused. -/
theorem firstRefused?_eq_none {seen : List FieldName} (hknown : ∀ g ∈ fs, g.name ∈ D.fieldNames)
    (hnodup : (fs.map (·.name)).Nodup) (hnew : ∀ g ∈ fs, g.name ∉ seen) :
    firstRefused? D seen fs = none := by
  induction fs generalizing seen with
  | nil => rfl
  | cons g fs ih =>
    obtain ⟨hg, hknown⟩ := List.forall_mem_cons.1 hknown
    obtain ⟨hgseen, hnew⟩ := List.forall_mem_cons.1 hnew
    rw [List.map_cons, List.nodup_cons, List.mem_map] at hnodup
    obtain ⟨hgfs, hnodup⟩ := hnodup
    rw [firstRefused?, hasField_iff.2 hg, if_neg (by simp), if_neg hgseen]
    refine ih hknown hnodup fun g' hg' => ?_
    rw [List.mem_cons, not_or]
    exact ⟨fun heq => hgfs ⟨g', hg', heq⟩, hnew g' hg'⟩

/-- The fields of a schedule make it up: none is unknown and none comes twice. -/
theorem of?_fields (s : Schedule) : of? s.definition s.fields = .ok s := by
  have hknown : ∀ g ∈ s.fields, g.name ∈ s.definition.fieldNames :=
    fun g hg => s.ordered.mem (List.mem_map_of_mem hg)
  have hnodup : (s.fields.map (·.name)).Nodup := s.ordered.nodup s.definition.nodup
  rw [of?, firstRefused?_eq_none hknown hnodup fun _ _ => List.not_mem_nil]
  exact congrArg Except.ok (ofAssignment_exprIn s)

/-- The fields that were accepted stand up to the second check. -/
theorem Fills.checkFields (h : Fills ws s.definition.fields s.fields) :
    s.checkFields s.definition.fields = .ok () := by
  rw [checkFields_eq_ok_iff]
  intro d hd e he
  obtain ⟨g, hg, rfl⟩ := Option.map_eq_some_iff.1 he
  obtain ⟨d', hd', w, -, hname, -, hcheck⟩ := h.exists_accepts (List.mem_of_find?_eq_some hg)
  have hgname : g.name = d.name := by simpa using List.find?_some hg
  obtain rfl := List.inj_on_of_nodup_map s.definition.nodup hd' hd (hname.trans hgname)
  exact hcheck

theorem checkConstraints_eq_error {cs : List Constraint} (h : s.checkConstraints cs = .error f) :
    ∃ pre c post, cs = pre ++ c :: post ∧ (∀ b ∈ pre, s.satisfies b = true) ∧
      s.satisfies c = false ∧ f = .violated s.chars c.description := by
  induction cs with
  | nil => cases h
  | cons c cs ih =>
    rw [checkConstraints] at h
    split at h
    · next hc =>
      obtain ⟨pre, b, post, rfl, hpre, hb, rfl⟩ := ih h
      exact ⟨c :: pre, b, post, rfl, List.forall_mem_cons.2 ⟨hc, hpre⟩, hb, rfl⟩
    · next hc =>
      cases h
      exact ⟨[], c, cs, rfl, List.forall_mem_nil _, by simpa using hc, rfl⟩

/-- **What is wrong with fields that were read is the first constraint that they violate.** -/
theorem validated_eq_error (hfills : Fills ws s.definition.fields s.fields)
    (h : validated s.definition s.fields = .error tf) :
    tf.place = none ∧ ∃ pre c post, s.definition.constraints = pre ++ c :: post ∧
      (∀ b ∈ pre, s.satisfies b = true) ∧ s.satisfies c = false ∧
      tf.fault = .violated s.chars c.description := by
  rw [validated, ofAssignment_exprIn, validate, hfills.checkFields] at h
  change ((s.checkConstraints s.definition.constraints).mapError _ >>= _) = _ at h
  cases hcs : s.checkConstraints s.definition.constraints with
  | ok u =>
    rw [hcs] at h
    cases h
  | error f =>
    rw [hcs] at h
    cases h
    exact ⟨rfl, checkConstraints_eq_error hcs⟩

/-- Fields that were read make up a valid schedule exactly if they keep the constraints. -/
theorem validated_eq_ok_iff_satisfies (hfills : Fills ws D.fields fs) :
    validated D fs = .ok s ↔
      s.definition = D ∧ s.fields = fs ∧ ∀ c ∈ D.constraints, s.satisfies c = true := by
  obtain ⟨s₀, rfl, rfl⟩ := hfills.exists_schedule
  rw [validated_eq_ok_iff, ofAssignment_exprIn]
  constructor
  · rintro ⟨rfl, hv⟩
    exact ⟨rfl, rfl, (validate_eq_ok_iff.1 hv).2⟩
  · rintro ⟨hd, hf, hcs⟩
    obtain rfl := eq_of_fields hd hf
    exact ⟨rfl, validate_eq_ok_iff.2 ⟨checkFields_eq_ok_iff.1 hfills.checkFields, hcs⟩⟩

/-! ### The text -/

/-- A text that is no nickname is read by its words, if the dialect accepts so many. -/
theorem read_of_words (hws : AreWords t (w :: ws)) (hat : w.chars.head? ≠ some '@') :
    read D t = if (w :: ws).length ∈ D.acceptedLengths then
      readFields t (w :: ws) D.fields >>= validated D
    else .error ⟨.fieldCount (w :: ws).length D.acceptedLengths, none⟩ := by
  rw [read, ← areWords_iff.1 hws]
  exact if_neg hat

theorem read_eq_ok_iff_of_first (hws : AreWords t (w :: ws)) (hat : w.chars.head? ≠ some '@') :
    read D t = .ok s ↔
      s.definition = D ∧ (w :: ws).length ∈ D.acceptedLengths ∧ Fills (w :: ws) D.fields s.fields ∧
        ∀ c ∈ D.constraints, s.satisfies c = true := by
  rw [read_of_words hws hat]
  by_cases hlen : (w :: ws).length ∈ D.acceptedLengths
  · have hle := (Definition.mem_acceptedLengths.1 hlen).2
    rw [if_pos hlen, bind_eq_ok_iff]
    constructor
    · rintro ⟨fs, hfs, hs⟩
      rw [readFields_eq_ok_iff hle] at hfs
      obtain ⟨hd, rfl, hcs⟩ := (validated_eq_ok_iff_satisfies hfs).1 hs
      exact ⟨hd, hlen, hfs, hcs⟩
    · rintro ⟨hd, -, hfills, hcs⟩
      exact ⟨s.fields, (readFields_eq_ok_iff hle).2 hfills,
        (validated_eq_ok_iff_satisfies hfills).2 ⟨hd, rfl, hcs⟩⟩
  · rw [if_neg hlen]
    exact iff_of_false nofun fun h => hlen h.2.1

/-- **A text is read exactly if its words fill the fields of the dialect and keep its
constraints.** The words are as many as the dialect has fields, or fewer by some of the optional
ones, and each of them is accepted for the field at its place. The schedule has just these fields,
in the order of the dialect, every required one among them. -/
theorem read_eq_ok_iff_fills (hws : AreWords t ws)
    (hat : ∀ w ∈ ws.head?, w.chars.head? ≠ some '@') :
    (∀ s, read D t = .ok s ↔
      s.definition = D ∧ 1 ≤ ws.length ∧ D.requiredCount ≤ ws.length ∧
        ws.length ≤ D.fields.length ∧ Fills ws D.fields s.fields ∧
        ∀ c ∈ D.constraints, s.satisfies c = true) ∧
      ∀ s, read D t = .ok s →
        of? D s.fields = .ok s ∧ s.fields.map (·.name) = D.fieldNames.take ws.length ∧
          ∀ d ∈ D.fields, d.optional = false → (s.expr? d.name).isSome = true := by
  have hiff : ∀ s, read D t = .ok s ↔
      s.definition = D ∧ 1 ≤ ws.length ∧ D.requiredCount ≤ ws.length ∧
        ws.length ≤ D.fields.length ∧ Fills ws D.fields s.fields ∧
        ∀ c ∈ D.constraints, s.satisfies c = true := by
    intro s
    cases ws with
    | nil =>
      rw [read, ← areWords_iff.1 hws]
      constructor
      · intro hok
        cases hok
      · rintro ⟨-, hpos, -⟩
        cases hpos
    | cons w ws =>
      rw [read_eq_ok_iff_of_first hws (hat w rfl), Definition.mem_acceptedLengths]
      constructor
      · rintro ⟨hd, ⟨hmin, hmax⟩, hrest⟩
        exact ⟨hd, Nat.le_add_left 1 _, hmin, hmax, hrest⟩
      · rintro ⟨hd, -, hmin, hmax, hrest⟩
        exact ⟨hd, ⟨hmin, hmax⟩, hrest⟩
  refine ⟨hiff, fun s hs => ?_⟩
  obtain ⟨rfl, -, hmin, -, hfills, -⟩ := (hiff s).1 hs
  have hnames : s.fields.map (·.name) = (s.definition.fields.take ws.length).map (·.name) :=
    hfills.names
  refine ⟨of?_fields s, ?_, fun d hd ho => ?_⟩
  · rw [hnames, Definition.fieldNames, List.map_take]
  · rw [expr?, isSome_exprIn, hnames]
    exact List.mem_map_of_mem (mem_take_of_required s.definition.optional_last hmin hd ho)

/-- A dialect of hours, weekdays and, if need be, years, with a constraint of its own. -/
def shifts : Definition where
  fields := [Dialect.hour false, ⟨.dayOfWeek, Dialect.sundayOneRule, false⟩,
    ⟨.year, { min := 1970, max := 2099 }, true⟩]
  constraints := [.custom "The shift at nine is for Mondays." fun fs =>
    fs.all fun f => f.name != .hour || f.expr != .value 9 || fs.contains ⟨.dayOfWeek, .value 2⟩]
  nodup := by decide
  optional_last := by decide

/-- Every other hour of a working day on Mondays, in every year. -/
def mondayShift : Schedule :=
  .ofAssignment shifts fun
    | .hour => some (.every (.between 9 17) 2)
    | .dayOfWeek => some (.value 2)
    | _ => none

theorem read_mondayShift :
    AreWords " 9-17/2\t mon ".toList [⟨"9-17/2".toList, 1⟩, ⟨"mon".toList, 9⟩] ∧
      read shifts " 9-17/2\t mon ".toList = .ok mondayShift ∧
      mondayShift.fields.map (·.name) = shifts.fieldNames.take 2 ∧
      ∀ d ∈ shifts.fields, d.optional = false → (mondayShift.expr? d.name).isSome = true := by
  have hws : AreWords " 9-17/2\t mon ".toList [⟨"9-17/2".toList, 1⟩, ⟨"mon".toList, 9⟩] :=
    areWords_iff.2 (by decide)
  obtain ⟨hiff, hfields⟩ := read_eq_ok_iff_fills (D := shifts) hws (by decide)
  have hfills : Fills [⟨"9-17/2".toList, 1⟩, ⟨"mon".toList, 9⟩] shifts.fields
      mondayShift.fields :=
    .next ⟨by cbv, by rfl⟩ (.next ⟨by cbv, by rfl⟩ (.done _))
  have hread := (hiff mondayShift).2
    ⟨rfl, by decide, by decide, by decide, hfills, by decide⟩
  exact ⟨hws, hread, (hfields mondayShift hread).2⟩

end Schedule

end CronSchedule
