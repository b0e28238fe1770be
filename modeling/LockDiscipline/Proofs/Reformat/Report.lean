import LockDiscipline.Proofs.Report.Collect
import LockDiscipline.Proofs.Reformat.Resolution

/- The report on a reformatted program. Each finding stays, in its place, and its
   positions move (`Report.Moved`). A violation lists a position once, columns
   included, so in another layout positions of one line may fall together or
   come apart. What moves is therefore the set of its lines, and its first
   known position. -/
namespace LockDiscipline

variable (ρ : Relining)

def Escape.Moved : Escape → Escape → Prop := ρ.Shifts Escape.pos fun e pos => { e with pos }

/-- The same chain, with the lines of its positions moved. -/
structure Violation.Moved (v v' : Violation) : Prop where
  discipline : v.discipline = v'.discipline
  location : v.location = v'.location
  path : v.path = v'.path
  signature : v.signature = v'.signature
  primary? : Option.Rel ρ.Moves v.primary? v'.primary?
  positions : ∀ pos ∈ v.positions, ∃ pos' ∈ v'.positions, ρ.Moves pos pos'
  origins : ∀ pos' ∈ v'.positions, ∃ pos ∈ v.positions, ρ.Moves pos pos'

/-- The findings correspond one to one and in order. -/
structure Report.Moved (r r' : Report) : Prop where
  warnings : List.Forall₂ (Warning.Moved ρ) r.warnings r'.warnings
  violations : List.Forall₂ (Violation.Moved ρ) r.violations r'.violations
  escapes : List.Forall₂ (Escape.Moved ρ) r.escapes r'.escapes

variable {ρ}

/-! ## Violations -/

theorem Position.find?_isKnown_rel {ps ps' : List Position} (h : List.Forall₂ ρ.Moves ps ps') :
    Option.Rel ρ.Moves (ps.find? isKnown) (ps'.find? isKnown) := by
  induction h with
  | nil => exact .none
  | cons hpos _ ih =>
    rw [List.find?_cons, List.find?_cons, hpos.isKnown_eq]
    split
    · exact .some hpos
    · exact ih

namespace Violation

/-- More positions do not change the first known one, if there is one. -/
theorem primary?_addPositions (v : Violation) (more : List Position) :
    (v.addPositions more).primary? = v.primary?.or (more.find? Position.isKnown) := by
  show (more.foldl _ v.positions).find? _ = (v.positions.find? _).or _
  generalize v.positions = kept
  induction more generalizing kept with
  | nil => simp
  | cons pos more ih =>
    rw [List.foldl_cons, ih, List.find?_cons]
    by_cases hkept : kept.contains pos = true
    · rw [if_pos hkept]
      cases hknown : pos.isKnown with
      | false => rfl
      | true =>
        -- a known position that is listed stands behind or at the first one
        have hsome : (kept.find? Position.isKnown).isSome = true :=
          List.find?_isSome.mpr ⟨pos, List.contains_iff_mem.mp hkept, hknown⟩
        obtain ⟨first, hfirst⟩ := Option.isSome_iff_exists.mp hsome
        simp [hfirst]
    · rw [if_neg hkept, List.find?_append, Option.or_assoc]
      cases hknown : pos.isKnown <;> simp [hknown]

variable {v v' w w' : Violation}

theorem Moved.sameKey_eq (h : v.Moved ρ v') (hw : w.Moved ρ w') : v.sameKey w = v'.sameKey w' := by
  rw [sameKey, sameKey, key, key, key, key, h.discipline, h.signature, hw.discipline, hw.signature]

theorem Moved.addPositions (hw : w.Moved ρ w') (h : v.Moved ρ v') :
    (w.addPositions v.positions).Moved ρ (w'.addPositions v'.positions) := by
  refine ⟨hw.discipline, hw.location, hw.path, hw.signature, ?_, ?_, ?_⟩
  · rw [primary?_addPositions, primary?_addPositions]
    have hprimary := hw.primary?
    revert hprimary
    cases w.primary? <;> cases w'.primary? <;> intro hprimary
    · exact h.primary?
    · cases hprimary
    · cases hprimary
    · exact hprimary
  · intro pos hpos
    rcases mem_addPositions.mp hpos with hpos | hpos
    · obtain ⟨pos', hpos', hmoves⟩ := hw.positions pos hpos
      exact ⟨pos', mem_addPositions.mpr (.inl hpos'), hmoves⟩
    · obtain ⟨pos', hpos', hmoves⟩ := h.positions pos hpos
      exact ⟨pos', mem_addPositions.mpr (.inr hpos'), hmoves⟩
  · intro pos' hpos'
    rcases mem_addPositions.mp hpos' with hpos' | hpos'
    · obtain ⟨pos, hpos, hmoves⟩ := hw.origins pos' hpos'
      exact ⟨pos, mem_addPositions.mpr (.inl hpos), hmoves⟩
    · obtain ⟨pos, hpos, hmoves⟩ := h.origins pos' hpos'
      exact ⟨pos, mem_addPositions.mpr (.inr hpos), hmoves⟩

/-- Positions that move one by one move as a set. -/
theorem moved_of_positions {d : Discipline} {l : Location} {path : CallPath} {signature : String}
    {ps ps' : List Position} (h : List.Forall₂ ρ.Moves ps ps') :
    Moved ρ ⟨d, l, path, signature, ps⟩ ⟨d, l, path, signature, ps'⟩ := by
  have hback : List.Forall₂ (flip ρ.Moves) ps' ps := List.Forall₂.flip h
  refine ⟨rfl, rfl, rfl, rfl, Position.find?_isKnown_rel h, ?_, ?_⟩
  · intro pos hpos
    exact forall₂_exists_mem h hpos
  · intro pos' hpos'
    exact forall₂_exists_mem hback hpos'

end Violation

/-! ## Reports -/

namespace Report

variable {r r' other other' : Report} {v v' : Violation}

theorem insertViolation_rel {vs vs' : List Violation} (hv : v.Moved ρ v')
    (h : List.Forall₂ (Violation.Moved ρ) vs vs') :
    List.Forall₂ (Violation.Moved ρ) (insertViolation v vs) (insertViolation v' vs') := by
  induction h with
  | nil => exact .cons hv .nil
  | cons hw hrest ih =>
    rw [insertViolation, insertViolation, hv.sameKey_eq hw]
    split
    · exact .cons (hw.addPositions hv) hrest
    · exact .cons hw ih

theorem Moved.insert (h : r.Moved ρ r') (hv : v.Moved ρ v') : (r.insert v).Moved ρ (r'.insert v') := by
  refine ⟨?_, ?_, ?_⟩
  · rw [warnings_insert, warnings_insert]
    exact h.warnings
  · rw [violations_insert, violations_insert]
    exact insertViolation_rel hv h.violations
  · rw [escapes_insert, escapes_insert]
    exact h.escapes

theorem Moved.recordEscape {e e' : Escape} (h : r.Moved ρ r') (he : e.Moved ρ e') :
    (r.recordEscape e).Moved ρ (r'.recordEscape e') :=
  ⟨h.warnings, h.violations, List.rel_append h.escapes (.cons he .nil)⟩

theorem Moved.merge (h : r.Moved ρ r') (hother : other.Moved ρ other') :
    (r.merge other).Moved ρ (r'.merge other') := by
  have hinsert : (other.violations.foldl Report.insert r).Moved ρ
      (other'.violations.foldl Report.insert r') :=
    List.rel_foldl (fun _ _ hr _ _ hv => hr.insert hv) h hother.violations
  exact ⟨List.rel_append h.warnings hother.warnings, hinsert.violations,
    List.rel_append h.escapes hother.escapes⟩

end Report

namespace Program.Moved

variable {p q : Program} (h : p.Moved ρ q)
include h

/-- The same functions use the protected locations. -/
theorem usages_eq (d : Discipline) : d.usages p = d.usages q := by
  have hguarded : (d.resolve p).guards.locations = (d.resolve q).guards.locations :=
    forall₂_map_eq (h.resolve d).guards fun _ _ he => he.1
  rw [Discipline.usages, Discipline.usages, hguarded, Discipline.usagesOf, Discipline.usagesOf,
    h.checkedNodes_eq]
  congr 1
  funext usages n
  obtain ⟨file, hbody⟩ := h.body n
  refine List.rel_foldl (P := Eq) ?_ rfl hbody
  rintro usages _ rfl i i' hi
  simp only [Discipline.noteUses, hi.2.uses_eq d]

/-- A function that fails, fails on the same chain and at the moved positions. -/
theorem failures_rel (d : Discipline) (l lock : Location) (nodes : List Nat) :
    List.Forall₂ (fun a b => a.1 = b.1 ∧ List.Forall₂ ρ.Moves a.2 b.2) (d.failures p l lock nodes)
      (d.failures q l lock nodes) := by
  rw [Discipline.failures, Discipline.failures]
  refine List.rel_filterMap (R := Eq) ?_ (List.forall₂_refl _)
  rintro n _ rfl
  obtain ⟨file, hbody⟩ := h.body n
  have hpositions := d.unprotected_rel hbody lock l
  unfold Discipline.failure?
  rw [h.unprotectedPath?_eq]
  revert hpositions
  generalize d.unprotected (p.body n) lock l = ps
  generalize d.unprotected (q.body n) lock l = ps'
  intro hpositions
  cases hpositions with
  | nil => exact .none
  | cons hpos hrest =>
    show Option.Rel _ ((d.unprotectedPath? q l lock n).map _) ((d.unprotectedPath? q l lock n).map _)
    cases d.unprotectedPath? q l lock n with
    | none => exact .none
    | some path => exact .some ⟨rfl, .cons hpos hrest⟩

theorem escapes_rel (l lock : Location) :
    List.Forall₂ (Escape.Moved ρ) (p.escapes l lock) (q.escapes l lock) := by
  rw [Program.escapes, Program.escapes, h.checkedNodes_eq]
  refine List.rel_flatMap (R := Eq) (List.forall₂_refl _) ?_
  rintro n _ rfl
  obtain ⟨file, hbody⟩ := h.body n
  rw [escapesOf, escapesOf, List.forall₂_map_left_iff, List.forall₂_map_right_iff]
  refine List.Forall₂.imp (fun i i' hi => ⟨i'.pos, hi.2.moves, rfl⟩) (forall₂_filter hbody ?_)
  intro i i' hi
  rw [hi.2.moves.isKnown_eq, Instruction.releases_eq hbody hi.2]

theorem recordLocation (d : Discipline) (usages : UsageMap) {r r' : Report}
    {e e' : Location × Guard} (hr : r.Moved ρ r') (he : EntryMoved ρ e e') :
    (Report.recordLocation d p usages r e).Moved ρ (Report.recordLocation d q usages r' e') := by
  obtain ⟨l, guard⟩ := e
  obtain ⟨l', guard'⟩ := e'
  obtain ⟨hl, hguard⟩ := he
  simp only at hl hguard
  subst hl
  simp only [Report.recordLocation, hguard.location_eq]
  refine List.rel_foldl (fun _ _ hr _ _ he => hr.recordEscape he) ?_
    (h.escapes_rel l guard'.location)
  refine List.rel_foldl ?_ hr (h.failures_rel d l guard'.location _)
  rintro r r' hr ⟨path, ps⟩ ⟨_, ps'⟩ ⟨rfl, hps⟩
  show (r.insert _).Moved ρ (r'.insert _)
  rw [h.render_eq]
  exact hr.insert (Violation.moved_of_positions hps)

theorem disciplineCheck (d : Discipline) : (d.check p).Moved ρ (d.check q) := by
  rw [Discipline.check, Discipline.check, h.usages_eq]
  refine List.rel_foldl ?_ ⟨(h.resolve d).warnings, .nil, .nil⟩ (h.agenda d)
  intro r r' hr e e' he
  exact h.recordLocation d _ hr he

end Program.Moved

/-- A program in another layout has the same findings at the moved positions: how
    lines are numbered does not matter as long as their order stays, and columns
    do not matter at all. -/
theorem reformatted_findings_correspond (ρ : Relining) (p q : Program) (ds : List Discipline)
    (h : p.Moved ρ q) : (p.check ds).Moved ρ (q.check ds) := by
  refine List.rel_foldl (R := Eq) ?_ ⟨.nil, .nil, .nil⟩ (List.forall₂_refl ds)
  rintro r r' hr d _ rfl
  exact hr.merge (h.disciplineCheck d)

/-- `peek` uses the guarded field twice on one line and returns its address; nobody
    says what `idle` guards. The positions are up to the layout. -/
def peekSnapshot (place : Nat → Nat → Position) : Snapshot where
  modulePath := none
  buildFlags := []
  packages := #[⟨"example.com/app", []⟩]
  files := #[⟨"app/cache.go", 0,
    [.struct ⟨"Cache", 0,
      [⟨["mu"], .named (some "sync") "Mutex", place 2 1, 0⟩,
       ⟨["items"], .named none "int", place 3 1, 1⟩]⟩,
     .var ⟨"idle", 0, some (.named (some "sync") "Mutex"), place 5 1⟩]⟩]
  globals := #[⟨"idle", 0, place 5 1⟩]
  structs := #[⟨"Cache", 0, [⟨"mu", place 2 1⟩, ⟨"items", place 3 1⟩]⟩]
  functions := #[⟨"peek", 0, false,
    [⟨place 8 1, some 1, .fieldAddr (.value 0) ⟨0, 1⟩⟩,
     ⟨place 8 5, none, .fieldAddr (.value 0) ⟨0, 1⟩⟩,
     ⟨place 9 1, none, .ret [.value 1]⟩]⟩]
  edges := []
  comments := [⟨place 2 20, "// items"⟩]

def dense : Program :=
  ⟨peekSnapshot fun line column => ⟨0, line, column⟩, by decide, CallGraph.ofSnapshot _, rfl, none⟩

/-- A blank line after each line, and no columns. -/
def spaced : Program :=
  ⟨peekSnapshot fun line _ => ⟨0, 2 * line, 0⟩, by decide, CallGraph.ofSnapshot _, rfl, none⟩

def doubling : Relining where
  lines _ := Set.univ
  line _ l := 2 * l
  zero_mem _ := trivial
  zero _ := rfl
  strictMono _ _ _ _ _ hlt := by simp only; omega

theorem dense_moved : dense.Moved doubling spaced := by
  have hplace : ∀ line column, doubling.Moves ⟨0, line, column⟩ ⟨0, 2 * line, 0⟩ :=
    fun _ _ => ⟨rfl, trivial, rfl⟩
  refine ⟨⟨rfl, rfl, rfl, ?_, ?_, ?_, ?_, rfl, ?_⟩, rfl, ?_⟩
  · refine .cons ⟨_, .cons (.struct ⟨_, ?_, rfl⟩) (.cons (.var ⟨_, hplace _ _, rfl⟩) .nil), rfl⟩ .nil
    exact .cons ⟨_, hplace _ _, rfl⟩ (.cons ⟨_, hplace _ _, rfl⟩ .nil)
  · exact .cons ⟨_, hplace _ _, rfl⟩ .nil
  · exact .cons ⟨_, .cons ⟨_, hplace _ _, rfl⟩ (.cons ⟨_, hplace _ _, rfl⟩ .nil), rfl⟩ .nil
  · refine .cons ⟨_, ?_, rfl⟩ .nil
    exact .cons ⟨_, hplace _ _, rfl⟩ (.cons ⟨_, hplace _ _, rfl⟩ (.cons ⟨_, hplace _ _, rfl⟩ .nil))
  · exact .cons ⟨_, hplace _ _, rfl⟩ .nil
  · intro f hf
    refine ⟨0, ?_⟩
    rw [List.mem_singleton.mp hf]
    decide

/-- A warning, a violation and an escape correspond; the two positions of the
    violation fall together. -/
theorem dense_findings_correspond :
    dense.Moved doubling spaced ∧
    (dense.check Discipline.all).Moved doubling (spaced.check Discipline.all) ∧
    (dense.check Discipline.all).violations.map Violation.positions =
      [[⟨0, 8, 1⟩, ⟨0, 8, 5⟩]] ∧
    (spaced.check Discipline.all).violations.map Violation.positions =
      [[⟨0, 16, 0⟩, ⟨0, 16, 0⟩]] ∧
    (dense.check Discipline.all).warnings = [.missingNote ⟨0, 5, 1⟩] ∧
    (dense.check Discipline.all).escapes = [⟨.field ⟨0, 1⟩, 0, ⟨0, 9, 1⟩⟩] :=
  ⟨dense_moved, reformatted_findings_correspond doubling dense spaced Discipline.all dense_moved,
    by decide +kernel, by decide +kernel, by decide +kernel, by decide +kernel⟩

end LockDiscipline
