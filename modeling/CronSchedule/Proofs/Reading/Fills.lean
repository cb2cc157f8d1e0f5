import CronSchedule.Proofs.Reading.FaultKind
import CronSchedule.Schedule.Read

/-!
# The fields of a text

The words of a text are read one by one, each for the field of the dialect at its place. Either all
of them are accepted, or the first one that is refused ends the reading.

* `FieldDefinition.Accepts`, `FieldDefinition.Refuses`: the two ends of reading one field.
* `Schedule.Fills`: the fields that the words of a text stand for.
* `Schedule.readFields_eq_ok_iff`, `Schedule.readFields_eq_error`: **what the words are read as, and
  which of them is refused.**
-/

namespace CronSchedule

open Text

/-! ### One field -/

namespace FieldDefinition

variable {d : FieldDefinition} {token : List Char} {e : Expr} {f : Fault}

/-- A text is accepted for a field: it reads as an expression that the field allows. -/
def Accepts (d : FieldDefinition) (token : List Char) (e : Expr) : Prop :=
  Expr.read d token = .ok e ∧ e.check d = .ok ()

/-- A text is refused for a field: it does not read, or the field does not allow what it reads
as. -/
def Refuses (d : FieldDefinition) (token : List Char) (f : Fault) : Prop :=
  Expr.read d token = .error f ∨ ∃ e, Expr.read d token = .ok e ∧ e.check d = .error f

theorem Accepts.eq {e' : Expr} (h : d.Accepts token e) (h' : d.Accepts token e') : e' = e := by
  obtain ⟨h, -⟩ := h
  rw [h'.1] at h
  cases h
  rfl

theorem Accepts.not_refuses (h : d.Accepts token e) : ¬ d.Refuses token f := by
  obtain ⟨hread, hcheck⟩ := h
  rintro (herr | ⟨e', hread', herr⟩)
  · rw [hread] at herr
    cases herr
  · rw [hread] at hread'
    cases hread'
    rw [hcheck] at herr
    cases herr

/-- Where names are spelled in letters, a refused text cannot be read or breaks a rule. -/
theorem Refuses.kind_eq (hr : d.rule.Lettered) (h : d.Refuses token f) :
    f.kind = .parse ∨ f.kind = .validation := by
  rcases h with h | ⟨e, -, h⟩
  · exact .inl (Expr.kind_of_read hr h)
  · exact .inr (Expr.kind_of_check h)

end FieldDefinition

namespace Schedule

variable {d : FieldDefinition} {ds : List FieldDefinition} {w : Word} {ws : List Word}
  {fs : List Field} {t : List Char} {f : Fault} {tf : TextFault}

/-! ### All fields -/

/-- The fields that words stand for, each for the field of the dialect at its place. Fields at the
end may be left out. -/
inductive Fills : List Word → List FieldDefinition → List Field → Prop
  | done (ds : List FieldDefinition) : Fills [] ds []
  | next {w : Word} {d : FieldDefinition} {e : Expr} {ws : List Word} {ds : List FieldDefinition}
      {fs : List Field} (he : d.Accepts w.chars e) (h : Fills ws ds fs) :
      Fills (w :: ws) (d :: ds) (⟨d.name, e⟩ :: fs)

/-- Words stand for one list of fields at most. -/
theorem Fills.eq {gs : List Field} (h : Fills ws ds fs) (h' : Fills ws ds gs) : fs = gs := by
  induction h generalizing gs with
  | done =>
    cases h'
    rfl
  | next he _ ih =>
    cases h' with
    | next he' hrest' => rw [he.eq he', ih hrest']

/-- The fields that are filled are the first ones. -/
theorem Fills.names (h : Fills ws ds fs) :
    fs.map (·.name) = (ds.take ws.length).map (·.name) := by
  induction h with
  | done => rfl
  | next _ _ ih => rw [List.length_cons, List.take_succ_cons, List.map_cons, List.map_cons, ih]

theorem Fills.exists_accepts (h : Fills ws ds fs) {g : Field} (hg : g ∈ fs) :
    ∃ d ∈ ds, ∃ w ∈ ws, d.name = g.name ∧ d.Accepts w.chars g.expr := by
  induction h with
  | done => cases hg
  | @next w d _ _ _ _ he _ ih =>
    rcases List.mem_cons.1 hg with rfl | hg
    · exact ⟨d, List.mem_cons_self, w, List.mem_cons_self, rfl, he⟩
    · obtain ⟨d', hd', w', hw', h⟩ := ih hg
      exact ⟨d', List.mem_cons_of_mem _ hd', w', List.mem_cons_of_mem _ hw', h⟩

/-- Words stand for some fields exactly if each of them is accepted. -/
theorem exists_fills_iff (hlen : ws.length ≤ ds.length) :
    (∃ fs, Fills ws ds fs) ↔ ∀ p ∈ ws.zip ds, ∃ e, p.2.Accepts p.1.chars e := by
  induction ws generalizing ds with
  | nil => exact iff_of_true ⟨[], .done ds⟩ (List.forall_mem_nil _)
  | cons w ws ih =>
    cases ds with
    | nil => cases hlen
    | cons d ds =>
      rw [List.zip_cons_cons, List.forall_mem_cons, ← ih (Nat.le_of_succ_le_succ hlen)]
      constructor
      · rintro ⟨_, hfills⟩
        cases hfills with
        | next he hrest => exact ⟨⟨_, he⟩, ⟨_, hrest⟩⟩
      · rintro ⟨⟨e, he⟩, ⟨fs, hrest⟩⟩
        exact ⟨_, .next he hrest⟩

/-- One word more: the word is refused, or a later one is, or all are accepted. -/
theorem readFields_cons (t : List Char) (w : Word) (ws : List Word) (d : FieldDefinition)
    (ds : List FieldDefinition) :
    (∃ e, d.Accepts w.chars e ∧ readFields t (w :: ws) (d :: ds) =
        (readFields t ws ds).map (⟨d.name, e⟩ :: ·)) ∨
      ∃ f, d.Refuses w.chars f ∧
        readFields t (w :: ws) (d :: ds) = .error ⟨f, some (⟨w.start, w.stop⟩, t)⟩ := by
  rw [readFields]
  cases hread : Expr.read d w.chars with
  | error f => exact .inr ⟨f, .inl hread, rfl⟩
  | ok e =>
    cases hcheck : e.check d with
    | error f =>
      refine .inr ⟨f, .inr ⟨e, hread, hcheck⟩, ?_⟩
      change ((e.check d >>= fun _ => pure e).mapError _ >>= _) = _
      rw [hcheck]
      rfl
    | ok u =>
      refine .inl ⟨e, ⟨hread, hcheck⟩, ?_⟩
      change ((e.check d >>= fun _ => pure e).mapError _ >>= _) = _
      rw [hcheck]
      cases readFields t ws ds <;> rfl

theorem readFields_eq_ok_iff (hlen : ws.length ≤ ds.length) :
    readFields t ws ds = .ok fs ↔ Fills ws ds fs := by
  induction ws generalizing ds fs with
  | nil =>
    have hnil : readFields t [] ds = .ok [] := by
      cases ds <;> rfl
    rw [hnil, Except.ok.injEq]
    constructor
    · rintro rfl
      exact .done ds
    · intro h
      cases h
      rfl
  | cons w ws ih =>
    cases ds with
    | nil => cases hlen
    | cons d ds =>
      have hrest : ∀ gs, readFields t ws ds = .ok gs ↔ Fills ws ds gs :=
        fun gs => ih (Nat.le_of_succ_le_succ hlen)
      rcases readFields_cons t w ws d ds with ⟨e, he, h⟩ | ⟨f, hf, h⟩
      · rw [h]
        constructor
        · intro hok
          cases hgs : readFields t ws ds with
          | error tf =>
            rw [hgs] at hok
            cases hok
          | ok gs =>
            rw [hgs] at hok
            cases hok
            exact .next he ((hrest gs).1 hgs)
        · intro hfills
          cases hfills with
          | next he' hfills =>
            rw [(hrest _).2 hfills, he.eq he']
            rfl
      · rw [h]
        refine iff_of_false nofun ?_
        intro hfills
        cases hfills with
        | next he _ => exact he.not_refuses hf

/-- The first word that is refused is the one whose fault is reported, with its place. -/
theorem readFields_eq_error (h : readFields t ws ds = .error tf) :
    ∃ pre w d post f, ws.zip ds = pre ++ (w, d) :: post ∧
      (∀ p ∈ pre, ∃ e, p.2.Accepts p.1.chars e) ∧ d.Refuses w.chars f ∧
      tf = ⟨f, some (⟨w.start, w.stop⟩, t)⟩ := by
  induction ws generalizing ds with
  | nil => cases ds <;> cases h
  | cons w ws ih =>
    cases ds with
    | nil => cases h
    | cons d ds =>
      rcases readFields_cons t w ws d ds with ⟨e, he, heq⟩ | ⟨f, hf, heq⟩
      · rw [heq] at h
        have hrest : readFields t ws ds = .error tf := by
          cases hrest : readFields t ws ds with
          | error tf' =>
            rw [hrest] at h
            cases h
            rfl
          | ok gs =>
            rw [hrest] at h
            cases h
        obtain ⟨pre, w', d', post, f, hzip, hpre, hf, rfl⟩ := ih hrest
        refine ⟨(w, d) :: pre, w', d', post, f, ?_, ?_, hf, rfl⟩
        · rw [List.zip_cons_cons, hzip, List.cons_append]
        · exact List.forall_mem_cons.2 ⟨⟨e, he⟩, hpre⟩
      · rw [heq] at h
        cases h
        exact ⟨[], w, d, ws.zip ds, f, rfl, List.forall_mem_nil _, hf, rfl⟩

end Schedule

end CronSchedule
