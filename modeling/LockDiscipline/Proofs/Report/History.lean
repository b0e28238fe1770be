import LockDiscipline.Proofs.Report.Replay

/- A report and its history. The violations that a script records, those of the
   reports that it merges in included, form one list in recording order
   (`ReportStep.allRecordings`), and the report holds what collecting that list
   comes to (`violations_nextAll?`). So the index, the order of the violations
   and each list of positions can be read off the history
   (`report_keeps_history`). -/
namespace LockDiscipline

/-! ## Collected violations -/

namespace Report

open Violation

/-- Violations are kept in the order in which their keys are first recorded. -/
theorem map_key_collect (vs : List Violation) :
    (collect vs).map key = Text.distinct (vs.map key) := by
  induction vs using List.reverseRecOn with
  | nil => rfl
  | append_singleton vs v ih =>
    rw [collect_concat, map_key_insertViolation, ih, List.map_append, List.map_singleton]
    simp only [Text.mem_distinct]
    by_cases hmem : v.key ∈ vs.map key
    · rw [if_pos hmem, Text.distinct_concat_of_mem hmem]
    · rw [if_neg hmem, Text.distinct_concat_of_not_mem hmem]

/-- To record what is left of `vs` is to record `vs`. -/
theorem recordAll_collect (kept vs : List Violation) :
    recordAll kept (collect vs) = recordAll kept vs := by
  induction vs using List.reverseRecOn with
  | nil => rfl
  | append_singleton vs v ih =>
    rw [collect_concat, recordAll_insertViolation v (collect_collected vs).nodup, ih,
      recordAll_append]
    rfl

/-- What a report holds after the violations `vs` have been recorded in this order. -/
structure Keeps (r : Report) (vs : List Violation) : Prop where
  /-- The index leads from the keys of the violations, and from no others, to the
      places of the violations. -/
  index : ∀ k place, r.index.lookup k = some place ↔
    ∃ w, r.violations[place]? = some w ∧ w.key = k
  /-- No two violations have the same key. -/
  nodup : (r.violations.map key).Nodup
  /-- The violations are in the order in which their keys are first recorded. -/
  order : r.violations.map key = Text.distinct (vs.map key)
  /-- A violation is the first one recorded under its key, and to its positions each
      further position that is recorded under the key is added, once and in order. -/
  first : ∀ w ∈ r.violations, ∃ before v after, vs = before ++ v :: after ∧
    (∀ u ∈ before, u.key ≠ v.key) ∧
    w = { v with
      positions := v.positions ++
        Text.distinct ((positionsOf v.key after).filter (· ∉ v.positions)) }
  /-- No position is lost. -/
  kept : ∀ v ∈ vs, ∃ w ∈ r.violations, w.key = v.key ∧ ∀ pos ∈ v.positions, pos ∈ w.positions

theorem keeps_of_collect {r : Report} {vs : List Violation} (h : r.violations = collect vs) :
    r.Keeps vs := by
  have hcollected : Collected vs r.violations := h ▸ collect_collected vs
  refine ⟨?_, hcollected.nodup, ?_, ?_, ?_⟩
  · intro k place
    show r.indexOf? k.1 k.2 = some place ↔ _
    rw [indexOf?_eq_some_iff hcollected.nodup]
    simp only [key, Prod.ext_iff]
  · rw [h, map_key_collect]
  · intro w hw
    obtain ⟨before, v, after, hvs, hbefore, hfirst⟩ := hcollected.origin w hw
    refine ⟨before, v, after, hvs, hbefore, ?_⟩
    rw [hfirst, ← positions_addPositions]
    rfl
  · intro v hv
    obtain ⟨w, hw, hkey⟩ := hcollected.covered v hv
    refine ⟨w, hw, hkey, ?_⟩
    intro pos hpos
    exact (hcollected.positions w hw pos).mpr ⟨v, hv, hkey.symm, hpos⟩

end Report

/-! ## Scripts -/

namespace ReportStep

open Report

mutual

/-- The violations that a step records, in recording order. -/
def recordings (p : Program) : ReportStep → List Violation
  | .violation d l path positions => [⟨d, l, path, path.render p, positions⟩]
  | .merge steps => allRecordings p steps
  | .escape _ | .warning _ => []

/-- The violations that a script records, in recording order. -/
def allRecordings (p : Program) : List ReportStep → List Violation
  | [] => []
  | step :: steps => recordings p step ++ allRecordings p steps

end

/-- The chain of the violation leads over functions of the program. -/
def onProgram (p : Program) (v : Violation) : Bool := v.path.nodes.all p.hasNode

mutual

theorem violations_next? (p : Program) (r : Report) : ∀ step : ReportStep,
    (next? p r step).map Report.violations =
      if (recordings p step).all (onProgram p) then
        some (recordAll r.violations (recordings p step))
      else none
  | .violation d l path positions => by
    have hrecord : (r.recordViolation p d l path positions).violations =
        recordAll r.violations [⟨d, l, path, path.render p, positions⟩] := by
      rw [recordViolation, violations_insert]
      rfl
    simp only [next?, recordings, List.all_cons, List.all_nil, Bool.and_true, onProgram]
    split
    · rw [Option.map_some, hrecord]
    · rfl
  | .escape e => by simp [next?, recordings, recordEscape, recordAll]
  | .warning w => by simp [next?, recordings, recordWarning, recordAll]
  | .merge steps => by
    -- the report that is merged in starts from nothing, so it holds what its own
    -- recordings are collected to
    have hsteps := violations_nextAll? p .empty steps
    have hmerge : (next? p r (.merge steps)).map Report.violations =
        ((nextAll? p .empty steps).map Report.violations).map (recordAll r.violations) := by
      rw [next?, Option.map_map, Option.map_map]
      congr 1
      funext s
      exact violations_merge r s
    rw [hmerge, hsteps, recordings]
    split
    · exact congrArg some (recordAll_collect r.violations (allRecordings p steps))
    · rfl

/-- A script comes to an end when all its chains lead over functions of the program,
    and then it has recorded its violations one after the other. -/
theorem violations_nextAll? (p : Program) (r : Report) : ∀ steps : List ReportStep,
    (nextAll? p r steps).map Report.violations =
      if (allRecordings p steps).all (onProgram p) then
        some (recordAll r.violations (allRecordings p steps))
      else none
  | [] => rfl
  | step :: steps => by
    have hstep := violations_next? p r step
    rw [nextAll?_cons, allRecordings, List.all_append]
    -- the rest of the script sees the violations of the report after the first step only
    cases hknown : (recordings p step).all (onProgram p) with
    | false =>
      rw [hknown, if_neg Bool.false_ne_true, Option.map_eq_none_iff] at hstep
      rw [hstep, Bool.false_and, if_neg Bool.false_ne_true]
      rfl
    | true =>
      rw [hknown, if_pos rfl, Option.map_eq_some_iff] at hstep
      obtain ⟨r', hnext, hviolations⟩ := hstep
      rw [hnext, Option.bind_some, violations_nextAll? p r' steps, Bool.true_and, hviolations,
        recordAll_append]

end

theorem allRecordings_onProgram_iff {p : Program} {steps : List ReportStep} :
    (allRecordings p steps).all (onProgram p) = true ↔
      ∀ v ∈ allRecordings p steps, ∀ n ∈ v.path.nodes, p.hasNode n = true := by
  simp only [List.all_eq_true, onProgram]

end ReportStep

open ReportStep in
/-- A script builds a report exactly when its chains lead over functions of the
    program, and the report then keeps what was recorded, be it by the script
    itself or by a report merged in. -/
theorem report_keeps_history (p : Program) (steps : List ReportStep) :
    ((∃ r, nextAll? p .empty steps = some r) ↔
      ∀ v ∈ allRecordings p steps, ∀ n ∈ v.path.nodes, p.hasNode n = true) ∧
    ∀ r, nextAll? p .empty steps = some r → r.Keeps (allRecordings p steps) := by
  have hrun := violations_nextAll? p .empty steps
  rw [← allRecordings_onProgram_iff]
  cases hknown : (allRecordings p steps).all (onProgram p) with
  | false =>
    rw [hknown, if_neg Bool.false_ne_true, Option.map_eq_none_iff] at hrun
    simp [hrun]
  | true =>
    rw [hknown, if_pos rfl, Option.map_eq_some_iff] at hrun
    obtain ⟨s, hs, hviolations⟩ := hrun
    refine ⟨by simp [hs], ?_⟩
    intro r hr
    have hrs : s = r := Option.some.inj (hs.symm.trans hr)
    exact Report.keeps_of_collect (hrs ▸ hviolations)

/-- A chain is recorded before and after a report is merged in that has it too. -/
def mergedSteps : List ReportStep :=
  [callPairStep .globals [7, 7], .merge lateSteps, callPairStep .globals [12, 5, 9, 5]]

def mergedReport : Report :=
  ⟨[], [callPairViolation .globals [7, 7, 9, 12, 5], callPairViolation .fields [12]],
    [((.globals, "app.F --> app.Caller"), 0), ((.fields, "app.F --> app.Caller"), 1)], rfl, []⟩

theorem mergedReport_keeps_history :
    ReportStep.nextAll? callPair .empty mergedSteps = some mergedReport ∧
    mergedReport.Keeps (ReportStep.allRecordings callPair mergedSteps) ∧
    ReportStep.allRecordings callPair mergedSteps =
      [callPairViolation .globals [7, 7], callPairViolation .fields [12],
       callPairViolation .globals [9, 9], callPairViolation .globals [7, 9],
       callPairViolation .globals [12, 5, 9, 5]] := by
  have hbuilt : ReportStep.nextAll? callPair .empty mergedSteps = some mergedReport := by
    decide +kernel
  exact ⟨hbuilt, (report_keeps_history callPair mergedSteps).2 _ hbuilt, by decide +kernel⟩

end LockDiscipline
