import CronSchedule.Schedule.Basic
import Mathlib.Data.List.Nodup

/-!
# Looking up fields

* `Definition.mem_of_field?`, `Definition.field?_of_mem`: which definition of a field a dialect has.
* `Schedule.isSome_exprIn`, `Schedule.exprIn_of_mem`: which fields a list of fields gives an
  expression.
* `Schedule.ofAssignment_exprIn`: a schedule is made up of the expressions of its fields.
-/

namespace CronSchedule

theorem Definition.mem_of_field? {D : Definition} {name : FieldName} {d : FieldDefinition}
    (h : D.field? name = some d) : d ∈ D.fields ∧ d.name = name :=
  ⟨List.mem_of_find?_eq_some h, by simpa using List.find?_some h⟩

namespace Schedule

variable {s : Schedule} {name : FieldName}

theorem exprIn_of_not_mem {fs : List Field} {name : FieldName} (h : name ∉ fs.map (·.name)) :
    exprIn fs name = none := by
  rw [exprIn, Option.map_eq_none_iff, List.find?_eq_none]
  intro f hf heq
  exact h (List.mem_map.2 ⟨f, hf, beq_iff_eq.1 heq⟩)

theorem isSome_exprIn {fs : List Field} {name : FieldName} :
    (exprIn fs name).isSome = true ↔ name ∈ fs.map (·.name) := by
  constructor
  · intro h
    by_contra hn
    rw [exprIn_of_not_mem hn] at h
    cases h
  · intro h
    obtain ⟨f, hf, rfl⟩ := List.mem_map.1 h
    rw [exprIn, Option.isSome_map, List.find?_isSome]
    exact ⟨f, hf, beq_self_eq_true f.name⟩

theorem exprIn_cons_self (f : Field) (fs : List Field) :
    exprIn (f :: fs) f.name = some f.expr := by
  rw [exprIn, List.find?_cons_of_pos (by simp)]
  rfl

theorem exprIn_cons_of_ne {f : Field} (h : f.name ≠ name) (fs : List Field) :
    exprIn (f :: fs) name = exprIn fs name := by
  rw [exprIn, List.find?_cons_of_neg (by simpa using h)]
  rfl

theorem exprIn_of_mem {fs : List Field} (hnd : (fs.map (·.name)).Nodup) {f : Field} (h : f ∈ fs) :
    exprIn fs f.name = some f.expr := by
  induction fs with
  | nil => cases h
  | cons g fs ih =>
    rw [List.map_cons, List.nodup_cons] at hnd
    rcases List.mem_cons.1 h with rfl | h
    · exact exprIn_cons_self f fs
    · have hne : g.name ≠ f.name := fun he => hnd.1 (he ▸ List.mem_map_of_mem h)
      rw [exprIn_cons_of_ne hne]
      exact ih hnd.2 h

theorem expr?_of_mem {f : Field} (h : f ∈ s.fields) : s.expr? f.name = some f.expr :=
  exprIn_of_mem (s.ordered.nodup s.definition.nodup) h

theorem exists_field?_of_mem {D : Definition} (h : name ∈ D.fieldNames) :
    ∃ d, D.field? name = some d := by
  obtain ⟨d, hd, hn⟩ := List.mem_map.1 h
  have hsome : (D.field? name).isSome = true := by
    rw [Definition.field?, List.find?_isSome]
    exact ⟨d, hd, beq_iff_eq.2 hn⟩
  exact Option.isSome_iff_exists.1 hsome

theorem hasField_iff {D : Definition} : D.hasField name = true ↔ name ∈ D.fieldNames := by
  constructor
  · intro h
    obtain ⟨d, hd⟩ := Option.isSome_iff_exists.1 h
    have hn := List.find?_some hd
    rw [beq_iff_eq] at hn
    exact hn ▸ List.mem_map_of_mem (List.mem_of_find?_eq_some hd)
  · intro h
    obtain ⟨d, hd⟩ := exists_field?_of_mem h
    rw [Definition.hasField, hd]
    rfl

theorem mem_fieldNames_of_expr? {e : Expr} (h : s.expr? name = some e) :
    name ∈ s.definition.fieldNames := by
  obtain ⟨f, hf, -⟩ := Option.map_eq_some_iff.1 h
  have hn := List.find?_some hf
  rw [beq_iff_eq] at hn
  exact hn ▸ s.ordered.mem (List.mem_map_of_mem (List.mem_of_find?_eq_some hf))

theorem field?_eq (s : Schedule) (name : FieldName) :
    s.field? name = (s.expr? name).map (Field.mk name) := by
  rw [field?, expr?, exprIn, Option.map_map]
  cases hf : s.fields.find? (·.name == name) with
  | none => rfl
  | some g =>
    have hn := List.find?_some hf
    rw [beq_iff_eq] at hn
    rw [Option.map_some, ← hn]
    rfl

/-- Fields that stand in the order of a dialect are found again, one by one. -/
theorem filterMap_exprIn {ds : List FieldDefinition} {fs : List Field}
    (h : (fs.map (·.name)).Sublist (ds.map (·.name))) (hnd : (ds.map (·.name)).Nodup) :
    (ds.filterMap fun d => (exprIn fs d.name).map (Field.mk d.name)) = fs := by
  induction ds generalizing fs with
  | nil =>
    rw [List.map_nil, List.sublist_nil, List.map_eq_nil_iff] at h
    rw [h]
    rfl
  | cons d ds ih =>
    rw [List.map_cons, List.nodup_cons] at hnd
    obtain ⟨hd, hnd⟩ := hnd
    rw [List.map_cons, List.sublist_cons_iff] at h
    rcases h with h | ⟨names, hnames, h⟩
    · rw [List.filterMap_cons_none, ih h hnd]
      rw [exprIn_of_not_mem fun hm => hd (h.mem hm)]
      rfl
    · cases fs with
      | nil => cases hnames
      | cons f fs =>
        obtain ⟨hf, rfl⟩ := List.cons.inj hnames
        change f.name = d.name at hf
        -- the later fields of the dialect have other names than the first
        have hrest : (ds.filterMap fun d => (exprIn (f :: fs) d.name).map (Field.mk d.name)) =
            ds.filterMap fun d => (exprIn fs d.name).map (Field.mk d.name) := by
          apply List.filterMap_congr
          intro d' hd'
          have hne : f.name ≠ d'.name := by
            intro he
            rw [← hf, he] at hd
            exact hd (List.mem_map_of_mem hd')
          rw [exprIn_cons_of_ne hne]
        rw [List.filterMap_cons_some, hrest, ih h hnd]
        rw [← hf, exprIn_cons_self]
        rfl

/-- A schedule is made up of the expressions of its fields. -/
theorem ofAssignment_exprIn (s : Schedule) : ofAssignment s.definition (exprIn s.fields) = s := by
  obtain ⟨D, fs, h⟩ := s
  simp only [ofAssignment, filterMap_exprIn h D.nodup]

theorem eq_of_fields {t : Schedule} (hd : s.definition = t.definition) (hf : s.fields = t.fields) :
    s = t := by
  rw [← ofAssignment_exprIn s, ← ofAssignment_exprIn t, hd, hf]

end Schedule

theorem Definition.field?_of_mem {D : Definition} {d : FieldDefinition} (hd : d ∈ D.fields) :
    D.field? d.name = some d := by
  obtain ⟨d', hd'⟩ := Schedule.exists_field?_of_mem (List.mem_map_of_mem (f := (·.name)) hd)
  obtain ⟨hm, hn⟩ := mem_of_field? hd'
  rw [hd', List.inj_on_of_nodup_map D.nodup hm hd hn]

end CronSchedule
