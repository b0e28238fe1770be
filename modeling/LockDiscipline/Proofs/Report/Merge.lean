import LockDiscipline.Proofs.Analysis.Violations

/- What a merged report holds. Warnings and escapes stand one check after the
   other (`check_warnings`, `check_escapes`), and a violation of a discipline
   holds a position exactly when that discipline is checked and some breach has
   the position (`check_holds`). -/
namespace LockDiscipline

namespace Report

/-- Some violation of the discipline holds the position. -/
def Holds (r : Report) (d : Discipline) (pos : Position) : Prop :=
  ∃ v ∈ r.violations, v.discipline = d ∧ pos ∈ v.positions

instance (r : Report) (d : Discipline) (pos : Position) : Decidable (r.Holds d pos) :=
  inferInstanceAs (Decidable (∃ v ∈ r.violations, v.discipline = d ∧ pos ∈ v.positions))

variable {d : Discipline} {pos : Position}

theorem holds_insert {r : Report} {v : Violation} :
    (r.insert v).Holds d pos ↔ r.Holds d pos ∨ v.discipline = d ∧ pos ∈ v.positions := by
  rw [Holds, Holds, violations_insert]
  induction r.violations with
  | nil => simp [insertViolation]
  | cons w kept ih =>
    rw [insertViolation]
    by_cases hkey : v.sameKey w = true
    · -- the positions join a violation of the same discipline
      have hd : v.discipline = w.discipline :=
        (Prod.mk.inj (Violation.sameKey_iff.mp hkey)).1
      have hw : (w.addPositions v.positions).discipline = w.discipline := rfl
      simp only [if_pos hkey, List.exists_mem_cons_iff, Violation.mem_addPositions, hw, hd,
        and_or_left, or_assoc]
      rw [or_comm (a := w.discipline = d ∧ pos ∈ v.positions)]
    · simp only [if_neg hkey, List.exists_mem_cons_iff, ih, or_assoc]

theorem holds_foldl_insert {r : Report} {vs : List Violation} :
    (vs.foldl insert r).Holds d pos ↔
      r.Holds d pos ∨ ∃ v ∈ vs, v.discipline = d ∧ pos ∈ v.positions := by
  induction vs generalizing r with
  | nil => simp
  | cons v vs ih =>
    rw [List.foldl_cons, ih, holds_insert, or_assoc, List.exists_mem_cons_iff]

theorem holds_merge {r other : Report} :
    (r.merge other).Holds d pos ↔ r.Holds d pos ∨ other.Holds d pos :=
  holds_foldl_insert

theorem warnings_foldl_recordEscape (r : Report) (es : List Escape) :
    (es.foldl recordEscape r).warnings = r.warnings := by
  induction es generalizing r with
  | nil => rfl
  | cons e es ih =>
    rw [List.foldl_cons, ih]
    rfl

theorem warnings_foldl_recordViolation (p : Program) (l : Location) (r : Report)
    (failures : List (CallPath × List Position)) :
    (failures.foldl (fun r failure => r.recordViolation p d l failure.1 failure.2) r).warnings =
      r.warnings := by
  induction failures generalizing r with
  | nil => rfl
  | cons failure failures ih =>
    rw [List.foldl_cons, ih, recordViolation, warnings_insert]

theorem warnings_recordLocation (p : Program) (usages : UsageMap) (r : Report)
    (e : Location × Guard) : (recordLocation d p usages r e).warnings = r.warnings := by
  rw [← warnings_foldl_recordViolation p e.1 r
    (d.failures p e.1 e.2.location (usages.usersOf e.1))]
  exact warnings_foldl_recordEscape _ _

theorem warnings_foldl_recordLocation (p : Program) (usages : UsageMap) (r : Report)
    (entries : List (Location × Guard)) :
    (entries.foldl (recordLocation d p usages) r).warnings = r.warnings := by
  induction entries generalizing r with
  | nil => rfl
  | cons e rest ih => rw [List.foldl_cons, ih, warnings_recordLocation]

end Report

namespace Discipline

variable (d : Discipline) (p : Program)

theorem warnings_check : (d.check p).warnings = (d.resolve p).warnings :=
  Report.warnings_foldl_recordLocation p _ _ _

/-- A violation of the check holds a position that a breach has. -/
theorem check_holds {d' : Discipline} {pos : Position} :
    (d.check p).Holds d' pos ↔ d' = d ∧ ∃ b : Breach, b.Occurs d p ∧ pos ∈ b.positions d p := by
  have hiff := @exists_violation_iff d p d'
  constructor
  · intro h
    obtain ⟨v, hv, hd, hpos⟩ := h
    obtain ⟨hd', b, hb, -, hpos⟩ := hiff.mp ⟨v, hv, hd, rfl, hpos⟩
    exact ⟨hd', b, hb, hpos⟩
  · intro h
    obtain ⟨hd, b, hb, hpos⟩ := h
    obtain ⟨v, hv, hd, -, hpos⟩ := hiff.mpr ⟨hd, b, hb, rfl, hpos⟩
    exact ⟨v, hv, hd, hpos⟩

end Discipline

namespace Program

variable (p : Program)

theorem foldl_merge_append (r : Report) (ds : List Discipline) :
    (ds.foldl (fun r d => r.merge (d.check p)) r).warnings =
        r.warnings ++ ds.flatMap (fun d => (d.check p).warnings) ∧
      (ds.foldl (fun r d => r.merge (d.check p)) r).escapes =
        r.escapes ++ ds.flatMap fun d => (d.check p).escapes := by
  induction ds generalizing r with
  | nil => simp
  | cons d ds ih =>
    obtain ⟨hwarnings, hescapes⟩ := ih (r.merge (d.check p))
    rw [List.foldl_cons, hwarnings, hescapes, List.flatMap_cons, List.flatMap_cons]
    exact ⟨List.append_assoc .., List.append_assoc ..⟩

theorem check_warnings (ds : List Discipline) :
    (p.check ds).warnings = ds.flatMap fun d => (d.check p).warnings :=
  (p.foldl_merge_append .empty ds).1

theorem check_escapes (ds : List Discipline) :
    (p.check ds).escapes = ds.flatMap fun d => (d.check p).escapes :=
  (p.foldl_merge_append .empty ds).2

theorem holds_foldl_merge {r : Report} {ds : List Discipline} {d : Discipline} {pos : Position} :
    (ds.foldl (fun r d => r.merge (d.check p)) r).Holds d pos ↔
      r.Holds d pos ∨ ∃ d' ∈ ds, (d'.check p).Holds d pos := by
  induction ds generalizing r with
  | nil => simp
  | cons d' ds ih =>
    rw [List.foldl_cons, ih, Report.holds_merge, or_assoc, List.exists_mem_cons_iff]

/-- A violation of the merged report holds a position that a breach of a checked
    discipline has. -/
theorem check_holds {ds : List Discipline} {d : Discipline} {pos : Position} :
    (p.check ds).Holds d pos ↔
      d ∈ ds ∧ ∃ b : Breach, b.Occurs d p ∧ pos ∈ b.positions d p := by
  have hempty : ¬ Report.empty.Holds d pos := by simp [Report.Holds, Report.empty]
  rw [check, holds_foldl_merge]
  simp only [hempty, false_or, Discipline.check_holds]
  constructor
  · intro h
    obtain ⟨d', hmem, rfl, hb⟩ := h
    exact ⟨hmem, hb⟩
  · intro h
    exact ⟨d, h.1, rfl, h.2⟩

end Program
end LockDiscipline
