import CronSchedule.Proofs.Fields
import CronSchedule.Proofs.Reading.Field
import CronSchedule.Proofs.Reading.Fills
import CronSchedule.Proofs.Timetable.Sound
import CronSchedule.Schedule.Read
import Mathlib

/-!
# Reading back a schedule

* `Schedule.Readable`: a schedule that can be written so that it reads back.
* `Schedule.readable_of_read`: whatever is read is such a schedule.
* `Schedule.read_text`: **such a schedule reads back as itself**, so the written forms of what has
  been read tell schedules apart.
-/

namespace CronSchedule

open Text

/-! ### Properties of the four dialects -/

namespace Dialect

/-- No field of a dialect has negative numbers. -/
theorem min_nonneg : ∀ D ∈ all, ∀ d ∈ D.fields, 0 ≤ d.rule.min := by
  decide

theorem required_of_mem_dropLast : ∀ D ∈ all, ∀ d ∈ D.fields.dropLast, d.optional = false := by
  decide

theorem same_self : ∀ D ∈ all, D.same D = true := by
  decide

end Dialect

theorem Definition.mem_acceptedLengths {D : Definition} {n : Nat} :
    n ∈ D.acceptedLengths ↔ D.requiredCount ≤ n ∧ n ≤ D.fields.length := by
  have hle : D.requiredCount ≤ D.fields.length := List.countP_le_length
  simp only [acceptedLengths, List.mem_map, List.mem_range]
  constructor
  · rintro ⟨k, hk, rfl⟩
    omega
  · rintro ⟨h, h'⟩
    exact ⟨n - D.requiredCount, by omega, by omega⟩

/-- The required fields are the first ones. -/
theorem mem_take_of_required {ds : List FieldDefinition} {n : Nat}
    (ho : ds.Pairwise fun a b => a.optional = true → b.optional = true)
    (hn : ds.countP (!·.optional) ≤ n) {d : FieldDefinition} (hd : d ∈ ds)
    (hr : d.optional = false) : d ∈ ds.take n := by
  induction ds generalizing n with
  | nil => cases hd
  | cons d' ds ih =>
    obtain ⟨hd', ho⟩ := List.pairwise_cons.1 ho
    -- an optional field here would make all later ones optional, and `d` with them
    have hreq : d'.optional = false := by
      by_contra hopt
      rw [Bool.not_eq_false] at hopt
      rcases List.mem_cons.1 hd with rfl | hd
      · simp [hopt] at hr
      · simp [hd' d hd hopt] at hr
    rw [List.countP_cons_of_pos (by simp [hreq])] at hn
    obtain ⟨n, rfl⟩ := Nat.exists_eq_add_of_le' (show 1 ≤ n by omega)
    rw [List.take_succ_cons, List.mem_cons]
    rcases List.mem_cons.1 hd with rfl | hd
    · exact .inl rfl
    · exact .inr (ih ho (by omega) hd)

namespace Schedule

variable {s : Schedule} {D : Definition}

/-! ### The fields of a schedule -/

/-- Where at most the last field is missing, the fields are the first ones of the dialect. -/
theorem filterMap_prefix {f : FieldName → Option Expr} {ds : List FieldDefinition}
    (hopt : ∀ d ∈ ds.dropLast, d.optional = false)
    (h : ∀ d ∈ ds, d.optional = false → (f d.name).isSome = true) :
    ((ds.filterMap fun d => (f d.name).map (Field.mk d.name)).map (·.name)) <+:
      ds.map (·.name) := by
  induction ds with
  | nil => exact List.prefix_rfl
  | cons d ds ih =>
    cases hf : f d.name with
    | some e =>
      obtain ⟨-, h⟩ := List.forall_mem_cons.1 h
      rw [List.filterMap_cons_some (by rw [hf]; rfl), List.map_cons, List.map_cons,
        List.cons_prefix_cons]
      refine ⟨rfl, ih (fun d' hd' => hopt d' ?_) h⟩
      cases ds with
      | nil => cases hd'
      | cons d'' ds => exact List.mem_cons_of_mem d hd'
    | none =>
      cases ds with
      | nil =>
        rw [List.filterMap_cons_none (by rw [hf]; rfl)]
        exact List.nil_prefix
      | cons d' ds =>
        have hsome := h d List.mem_cons_self (hopt d List.mem_cons_self)
        rw [hf] at hsome
        cases hsome

/-! ### A schedule -/

/-- A schedule that can be written so that it reads back: it is valid, it has every required field,
and no field is a list of one member, which is written like the member. -/
structure Readable (s : Schedule) : Prop where
  valid : s.validate = .ok ()
  required : ∀ d ∈ s.definition.fields, d.optional = false → (s.expr? d.name).isSome = true
  lists : ∀ f ∈ s.fields, f.expr.isSingleton = false

theorem Readable.fields_prefix (hs : s.Readable) (hD : s.definition ∈ Dialect.all) :
    s.fields.map (·.name) <+: s.definition.fieldNames := by
  have h := filterMap_prefix (f := exprIn s.fields) (Dialect.required_of_mem_dropLast _ hD)
    hs.required
  rwa [filterMap_exprIn s.ordered s.definition.nodup] at h

theorem Readable.length_mem (hs : s.Readable) : s.fields.length ∈ s.definition.acceptedLengths := by
  have hle := s.ordered.length_le
  rw [List.length_map, Definition.fieldNames, List.length_map] at hle
  refine Definition.mem_acceptedLengths.2 ⟨?_, hle⟩
  have hf := filterMap_exprIn s.ordered s.definition.nodup
  rw [← hf, List.length_filterMap_eq_countP, Definition.requiredCount]
  apply List.countP_mono_left
  intro d hd hr
  rw [Option.isSome_map]
  exact hs.required d hd (by simpa using hr)

/-- What a field of the schedule writes is read as its expression. -/
theorem Readable.read_field (hs : s.Readable) (hD : s.definition ∈ Dialect.all) {f : Field}
    (hf : f ∈ s.fields) {d : FieldDefinition} (hd : d ∈ s.definition.fields)
    (hn : f.name = d.name) :
    Expr.read d f.expr.chars = .ok f.expr ∧ f.expr.check d = .ok () := by
  have hc : f.expr.check d = .ok () :=
    (validate_eq_ok_iff.1 hs.valid).1 d hd f.expr (hn ▸ expr?_of_mem hf)
  have hmin := Dialect.min_nonneg _ hD d hd
  exact ⟨Expr.read_chars (Dialect.rule_spelled _ hD d hd) hmin hc (hs.lists f hf), hc⟩

/-- Words that are the written forms of accepted fields stand for these fields. -/
theorem fills_of_accepts {ws : List Word} {fs : List Field} {ds : List FieldDefinition}
    (hp : fs.map (·.name) <+: ds.map (·.name))
    (hw : ws.map (·.chars) = fs.map fun f => f.expr.chars)
    (haccepts : ∀ f ∈ fs, ∀ d ∈ ds, f.name = d.name → d.Accepts f.expr.chars f.expr) :
    Fills ws ds fs := by
  induction fs generalizing ws ds with
  | nil =>
    rw [List.map_nil, List.map_eq_nil_iff] at hw
    rw [hw]
    exact .done ds
  | cons f fs ih =>
    cases ds with
    | nil => simp at hp
    | cons d ds =>
      cases ws with
      | nil => cases hw
      | cons w ws =>
        rw [List.map_cons, List.map_cons, List.cons_prefix_cons] at hp
        obtain ⟨name, e⟩ := f
        obtain ⟨rfl, hp⟩ := hp
        obtain ⟨hwe, hws⟩ := List.cons.inj hw
        have he := haccepts _ List.mem_cons_self d List.mem_cons_self rfl
        refine .next (by rwa [show w.chars = e.chars from hwe]) (ih hp hws fun f hf d hd => ?_)
        exact haccepts f (List.mem_cons_of_mem _ hf) d (List.mem_cons_of_mem _ hd)

theorem validated_eq_ok_iff {fs : List Field} :
    validated D fs = .ok s ↔ s = ofAssignment D (exprIn fs) ∧ s.validate = .ok () := by
  rw [validated, seq_eq_ok_iff, mapError_eq_ok_iff]
  constructor
  · rintro ⟨h, h'⟩
    cases h'
    exact ⟨rfl, h⟩
  · rintro ⟨rfl, h⟩
    exact ⟨h, rfl⟩

/-- **A readable schedule reads back as itself.** -/
theorem Readable.read_chars (hs : s.Readable) (hD : s.definition ∈ Dialect.all) :
    read s.definition s.chars = .ok s := by
  have hfield : ∀ f ∈ s.fields, f.expr.chars ≠ [] ∧
      ∀ c ∈ f.expr.chars, isWritten c = true := by
    intro f hf
    obtain ⟨d, hd, hn⟩ := List.mem_map.1 (s.ordered.mem (List.mem_map_of_mem hf))
    obtain ⟨-, hc⟩ := hs.read_field hD hf hd hn.symm
    have htext := Expr.fieldText_chars (Dialect.min_nonneg _ hD d hd) hc (hs.lists f hf)
    exact ⟨(htext.ne_nil_clean (Dialect.rule_spelled _ hD d hd)).1,
      Expr.isWritten_of_mem_chars f.expr⟩
  have hparts : ∀ p ∈ s.fields.map fun f => f.expr.chars,
      p ≠ [] ∧ ∀ c ∈ p, isBlank c = false := by
    rw [List.forall_mem_map]
    intro f hf
    exact ⟨(hfield f hf).1, fun c hc => isBlank_of_written ((hfield f hf).2 c hc)⟩
  -- the words of the text are the texts of the fields, and as many
  have hwords : (words s.chars).map (·.chars) = s.fields.map fun f => f.expr.chars := by
    rw [chars, trim_intercalate hparts, words_intercalate hparts]
  have hlen : (words s.chars).length = s.fields.length := by
    rw [← List.length_map, hwords, List.length_map]
  have hle := (Definition.mem_acceptedLengths.1 hs.length_mem).2
  rw [← hlen] at hle
  have hfields := (readFields_eq_ok_iff (t := s.chars) hle).2 <|
    fills_of_accepts (hs.fields_prefix hD) hwords fun f hf d hd => hs.read_field hD hf hd
  have hvalid : validated s.definition s.fields = .ok s :=
    validated_eq_ok_iff.2 ⟨(ofAssignment_exprIn s).symm, hs.valid⟩
  rw [read]
  generalize words s.chars = ws at *
  cases ws with
  | nil =>
    obtain ⟨d, hd, hreq⟩ := Dialect.exists_required_field _ hD .minute (by decide)
    have hsome := isSome_exprIn.1 (hs.required d (Definition.mem_of_field? hd).1 hreq)
    rw [List.length_eq_zero_iff.1 hlen.symm] at hsome
    cases hsome
  | cons w ws =>
    -- no field starts as a nickname does
    have hat : w.chars.head? ≠ some '@' := by
      intro h
      obtain ⟨f, hf, hw⟩ := List.mem_map.1
        (show w.chars ∈ s.fields.map fun f => f.expr.chars from hwords ▸ List.mem_cons_self)
      have := (hfield f hf).2 '@' (hw ▸ List.mem_of_mem_head? h)
      cases this
    simp only [if_neg hat]
    rw [if_pos (by rw [← List.length_cons, hlen]; exact hs.length_mem), hfields]
    exact hvalid

/-! ### What comes out of reading -/

/-- Fields each of which was read from some text. -/
def AllRead (fs : List Field) : Prop := ∀ f ∈ fs, ∃ d token, Expr.read d token = .ok f.expr

theorem nicknameExprs_eq_ok {settings : List (FieldName × String)} {ds : List FieldDefinition}
    {fs : List Field} (h : nicknameExprs settings ds = .ok fs) :
    fs.map (·.name) = (ds.filter (!·.optional)).map (·.name) ∧ AllRead fs := by
  induction ds generalizing fs with
  | nil =>
    cases h
    exact ⟨rfl, List.forall_mem_nil _⟩
  | cons d ds ih =>
    rw [nicknameExprs] at h
    by_cases ho : d.optional = true
    · rw [if_pos ho] at h
      rw [List.filter_cons_of_neg (by simp [ho])]
      exact ih h
    · rw [if_neg ho] at h
      obtain ⟨e, he, h⟩ := bind_eq_ok_iff.1 h
      obtain ⟨fs, hfs, h⟩ := bind_eq_ok_iff.1 h
      cases h
      obtain ⟨hnames, hread⟩ := ih hfs
      rw [List.filter_cons_of_pos (by simp [ho]), List.map_cons, List.map_cons, hnames]
      exact ⟨rfl, List.forall_mem_cons.2 ⟨⟨d, _, he⟩, hread⟩⟩

theorem Fills.allRead {ws : List Word} {ds : List FieldDefinition} {fs : List Field}
    (h : Fills ws ds fs) : AllRead fs := by
  intro f hf
  obtain ⟨d, -, w, -, -, haccepts⟩ := h.exists_accepts hf
  exact ⟨d, w.chars, haccepts.1⟩

theorem readable_of_validated {fs : List Field} (h : validated D fs = .ok s)
    (hreq : ∀ d ∈ D.fields, d.optional = false → d.name ∈ fs.map (·.name)) (hread : AllRead fs) :
    s.definition = D ∧ s.Readable := by
  obtain ⟨rfl, hv⟩ := validated_eq_ok_iff.1 h
  refine ⟨rfl, hv, fun d hd ho => ?_, fun f hf => ?_⟩
  · have hn : d.name ∈ D.fieldNames := List.mem_map_of_mem hd
    rw [expr?_ofAssignment, if_pos hn]
    exact isSome_exprIn.2 (hreq d hd ho)
  · have he := expr?_of_mem hf
    rw [expr?_ofAssignment] at he
    split at he
    · obtain ⟨g, hg, hge⟩ := Option.map_eq_some_iff.1 he
      obtain ⟨d, token, hr⟩ := hread g (List.mem_of_find?_eq_some hg)
      rw [← hge]
      exact Expr.isSingleton_of_read hr
    · cases he

/-- **Whatever is read, a nickname or fields, can be written and read back.** -/
theorem readable_of_read {text : List Char} (h : read D text = .ok s) :
    s.definition = D ∧ s.Readable := by
  rw [read] at h
  split at h
  · cases h
  next w ws hws =>
  split at h
  · split at h
    · cases h
    · rw [readNickname] at h
      split at h
      · cases h
      · obtain ⟨fs, hfs, h⟩ := bind_eq_ok_iff.1 h
        obtain ⟨hnames, hread⟩ := nicknameExprs_eq_ok (mapError_eq_ok_iff.1 hfs)
        refine readable_of_validated h (fun d hd ho => ?_) hread
        rw [hnames]
        exact List.mem_map_of_mem (List.mem_filter.2 ⟨hd, by simp [ho]⟩)
  split at h
  · next hlen =>
    obtain ⟨fs, hfs, h⟩ := bind_eq_ok_iff.1 h
    have hle : (w :: ws).length ≤ D.fields.length := (Definition.mem_acceptedLengths.1 hlen).2
    have hfills := (readFields_eq_ok_iff hle).1 hfs
    refine readable_of_validated h (fun d hd ho => ?_) hfills.allRead
    rw [hfills.names]
    exact List.mem_map_of_mem
      (mem_take_of_required D.optional_last (Definition.mem_acceptedLengths.1 hlen).1 hd ho)
  · cases h

/-! ### Round trips -/

/-- **Schedules read back.** In each dialect, every valid schedule with all required fields and
without a list of one member reads back from its written form. So does everything that was read
from some text, and what was read is told apart by its written form. -/
theorem read_text :
    ∀ D ∈ Dialect.all,
      (∀ s : Schedule, s.definition = D → s.Readable → read D s.text.toList = .ok s) ∧
      (∀ (t : List Char) (s : Schedule), read D t = .ok s → read D s.text.toList = .ok s) ∧
      ∀ (t t' : List Char) (s s' : Schedule), read D t = .ok s → read D t' = .ok s' →
        (s.text = s'.text ↔ s.same s' = true) ∧ (s.same s' = true ↔ s = s') := by
  intro D hD
  have hback : ∀ s : Schedule, s.definition = D → s.Readable → read D s.text.toList = .ok s := by
    rintro s rfl hs
    rw [text, String.toList_ofList]
    exact hs.read_chars hD
  have hback' : ∀ (t : List Char) (s : Schedule), read D t = .ok s → read D s.text.toList = .ok s :=
    fun t s h => hback s (readable_of_read h).1 (readable_of_read h).2
  refine ⟨hback, hback', ?_⟩
  intro t t' s s' h h'
  have hsame : s.same s' = true ↔ s = s' := by
    obtain ⟨hd, -⟩ := readable_of_read h
    obtain ⟨hd', -⟩ := readable_of_read h'
    constructor
    · intro heq
      rw [same, Bool.and_eq_true, beq_iff_eq] at heq
      exact eq_of_fields (hd.trans hd'.symm) heq.2
    · rintro rfl
      rw [same, hd, Dialect.same_self D hD, beq_self_eq_true, Bool.true_and]
  refine ⟨⟨fun ht => ?_, fun heq => by rw [hsame.1 heq]⟩, hsame⟩
  -- equal texts are read alike
  have hs := hback' t s h
  rw [ht, hback' t' s' h'] at hs
  rw [hsame]
  cases hs
  rfl

/-- On the third Monday of a month, every half hour of every other working hour. -/
def thirdMonday : Schedule :=
  ofAssignment Dialect.spring fun
    | .second => some (.value 0)
    | .minute => some (.list [.value 0, .value 30])
    | .hour => some (.every (.between 9 17) 2)
    | .dayOfMonth => some .question
    | .dayOfWeek => some (.on 1 (some 3))
    | _ => some .always

/-- What the nickname for every week reads as. -/
def weekly : Schedule :=
  ofAssignment Dialect.spring fun
    | .second | .minute | .hour => some (.value 0)
    | .dayOfWeek => some (.value 0)
    | _ => some .always

theorem read_text_thirdMonday :
    thirdMonday.Readable ∧ thirdMonday.text = "0 0,30 9-17/2 ? * 1#3" ∧
      read Dialect.spring thirdMonday.text.toList = .ok thirdMonday ∧
      read Dialect.spring "@weekly".toList = .ok weekly ∧
      read Dialect.spring weekly.text.toList = .ok weekly ∧
      (thirdMonday.text = weekly.text ↔ thirdMonday.same weekly = true) := by
  have hr : thirdMonday.Readable := ⟨by rfl, by decide, by decide⟩
  have hw : read Dialect.spring "@weekly".toList = .ok weekly := by
    cbv
  obtain ⟨hback, hback', htell⟩ := read_text Dialect.spring Dialect.spring_mem_all
  have ht := hback thirdMonday rfl hr
  exact ⟨hr, by decide +kernel, ht, hw, hback' _ weekly hw, (htell _ _ thirdMonday weekly ht hw).1⟩

end Schedule

end CronSchedule
