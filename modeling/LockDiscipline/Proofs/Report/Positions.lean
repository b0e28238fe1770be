import LockDiscipline.Proofs.Analysis.Violations

/- Where the positions of a report come from: those of violations and escapes
   from instructions, those of warnings from declarations. So the files that a
   report of a check names exist (`Program.check_inRange`). -/
namespace LockDiscipline

variable {d : Discipline} {p : Program} {l lock : Location}

theorem Program.hasInstruction_of_mem_body {n : Nat} {i : Instruction} (h : i ∈ p.body n) :
    p.snapshot.HasInstruction i := by
  unfold Program.body at h
  split at h
  · next f hf =>
    exact (p.inRange.functions f (Array.mem_toList_iff.mpr (Array.mem_of_getElem? hf))).2 i h
  · cases h

theorem Discipline.hasPosition_of_mem_failures {nodes : List Nat}
    {failure : CallPath × List Position} (h : failure ∈ d.failures p l lock nodes) :
    ∀ pos ∈ failure.2, p.snapshot.HasPosition pos := by
  obtain ⟨n, -, hfailure⟩ := List.mem_filterMap.mp h
  obtain ⟨hpositions, -⟩ := failure?_eq_some.mp hfailure
  intro pos hpos
  rw [← hpositions] at hpos
  obtain ⟨i, hi, rfl⟩ := List.mem_map.mp (List.mem_filter.mp hpos).1
  exact (Program.hasInstruction_of_mem_body (List.mem_filter.mp hi).1).pos

theorem Program.hasPosition_of_mem_escapes {e : Escape} (h : e ∈ p.escapes l lock) :
    p.snapshot.HasPosition e.pos := by
  obtain ⟨n, -, h⟩ := List.mem_flatMap.mp h
  obtain ⟨i, hi, rfl⟩ := List.mem_map.mp h
  exact (hasInstruction_of_mem_body (List.mem_filter.mp hi).1).pos

namespace Report

/-- All positions of the report lie in files of the program. -/
structure InRange (p : Program) (r : Report) : Prop where
  warnings : ∀ w ∈ r.warnings, p.snapshot.HasPosition w.pos
  violations : ∀ v ∈ r.violations, ∀ pos ∈ v.positions, p.snapshot.HasPosition pos
  escapes : ∀ e ∈ r.escapes, p.snapshot.HasPosition e.pos

variable {r : Report}

/-- An insertion brings no positions but those of the violation. -/
theorem mem_positions_insertViolation {v w : Violation} {kept : List Violation} {pos : Position}
    (hw : w ∈ insertViolation v kept) (hpos : pos ∈ w.positions) :
    pos ∈ v.positions ∨ ∃ u ∈ kept, pos ∈ u.positions := by
  induction kept with
  | nil =>
    rw [List.mem_singleton.mp hw] at hpos
    exact .inl hpos
  | cons u kept ih =>
    rw [insertViolation] at hw
    split at hw
    · rcases List.mem_cons.mp hw with rfl | hw
      · rcases Violation.mem_addPositions.mp hpos with hpos | hpos
        · exact .inr ⟨u, List.mem_cons_self, hpos⟩
        · exact .inl hpos
      · exact .inr ⟨w, List.mem_cons_of_mem u hw, hpos⟩
    · rcases List.mem_cons.mp hw with rfl | hw
      · exact .inr ⟨w, List.mem_cons_self, hpos⟩
      · rcases ih hw with hpos | ⟨x, hx, hpos⟩
        · exact .inl hpos
        · exact .inr ⟨x, List.mem_cons_of_mem u hx, hpos⟩

theorem InRange.insert (hr : r.InRange p) {v : Violation}
    (hv : ∀ pos ∈ v.positions, p.snapshot.HasPosition pos) : (r.insert v).InRange p := by
  refine ⟨?_, ?_, ?_⟩
  · rw [warnings_insert]
    exact hr.warnings
  · intro w hw pos hpos
    rw [violations_insert] at hw
    rcases mem_positions_insertViolation hw hpos with hpos | ⟨u, hu, hpos⟩
    · exact hv pos hpos
    · exact hr.violations u hu pos hpos
  · rw [escapes_insert]
    exact hr.escapes

theorem InRange.recordEscape (hr : r.InRange p) {e : Escape} (he : p.snapshot.HasPosition e.pos) :
    (r.recordEscape e).InRange p := by
  refine ⟨hr.warnings, hr.violations, ?_⟩
  intro x hx
  rcases List.mem_append.mp hx with hx | hx
  · exact hr.escapes x hx
  · rw [List.mem_singleton.mp hx]
    exact he

theorem InRange.recordLocation (hr : r.InRange p) (d : Discipline) (usages : UsageMap)
    (e : Location × Guard) : (r.recordLocation d p usages e).InRange p := by
  have hviolations : ((d.failures p e.1 e.2.location (usages.usersOf e.1)).foldl
      (fun r failure => r.recordViolation p d e.1 failure.1 failure.2) r).InRange p := by
    apply List.foldlRecOn _ _ hr
    intro r hr failure hfailure
    exact hr.insert (Discipline.hasPosition_of_mem_failures hfailure)
  apply List.foldlRecOn _ _ hviolations
  intro r hr escape hescape
  exact hr.recordEscape (Program.hasPosition_of_mem_escapes hescape)

theorem InRange.merge {other : Report} (hr : r.InRange p) (hother : other.InRange p) :
    (r.merge other).InRange p := by
  have hviolations : (other.violations.foldl Report.insert r).InRange p := by
    apply List.foldlRecOn _ _ hr
    intro r hr v hv
    exact hr.insert (hother.violations v hv)
  refine ⟨?_, hviolations.violations, ?_⟩
  · intro w hw
    rcases List.mem_append.mp hw with hw | hw
    · exact hr.warnings w hw
    · exact hother.warnings w hw
  · intro e he
    rcases List.mem_append.mp he with he | he
    · exact hr.escapes e he
    · exact hother.escapes e he

end Report

theorem Discipline.check_inRange (d : Discipline) (p : Program) : (d.check p).InRange p := by
  have hstart : ({ Report.empty with warnings := (d.resolve p).warnings } : Report).InRange p :=
    ⟨(d.resolve_declared p.covers_hasOwner).warning, by simp [Report.empty], by simp [Report.empty]⟩
  apply List.foldlRecOn _ _ hstart
  intro r hr e _
  exact hr.recordLocation d (d.usages p) e

/-- The files that a report of a check names exist. -/
theorem Program.check_inRange (p : Program) (ds : List Discipline) : (p.check ds).InRange p := by
  have hempty : Report.empty.InRange p :=
    ⟨by simp [Report.empty], by simp [Report.empty], by simp [Report.empty]⟩
  apply List.foldlRecOn _ _ hempty
  intro r hr d _
  exact hr.merge (d.check_inRange p)

end LockDiscipline
