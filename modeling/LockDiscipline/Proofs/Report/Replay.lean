import LockDiscipline.Proofs.Report.Collect
import LockDiscipline.Report.Script

/- Merging as replaying. The violations of a report have distinct keys
   (`Distinct`), and every step keeps this. So a violation that is recorded after
   a merge goes where it would have gone before it (`merge_insert`), and a script
   run on a merged report does what it does on the report that was merged in
   (`nextAll?_merge`). What follows of merging, its laws as an operation
   included, comes from these two. -/
namespace LockDiscipline

/-! ## Positions -/

namespace Violation

theorem addPositions_of_listed {v : Violation} {ps : List Position}
    (h : ∀ pos ∈ ps, pos ∈ v.positions) : v.addPositions ps = v := by
  induction ps with
  | nil => rfl
  | cons pos ps ih =>
    obtain ⟨hpos, hps⟩ := List.forall_mem_cons.mp h
    have hskip : v.addPositions [pos] = v := by simp [addPositions, hpos]
    rw [← List.singleton_append, addPositions_append, hskip, ih hps]

/-- Positions may be added one list after the other, or first to each other. -/
theorem addPositions_addPositions (v w : Violation) (ps : List Position) :
    v.addPositions (w.addPositions ps).positions =
      (v.addPositions w.positions).addPositions ps := by
  induction ps generalizing w with
  | nil => rfl
  | cons pos ps ih =>
    have hstep : v.addPositions (w.addPositions [pos]).positions =
        (v.addPositions w.positions).addPositions [pos] := by
      by_cases hpos : pos ∈ w.positions
      · have hw : ∀ q ∈ [pos], q ∈ w.positions := by simpa using hpos
        have hv : ∀ q ∈ [pos], q ∈ (v.addPositions w.positions).positions :=
          fun q hq => mem_addPositions.mpr (.inr (hw q hq))
        rw [addPositions_of_listed hw, addPositions_of_listed hv]
      · have hw : (w.addPositions [pos]).positions = w.positions ++ [pos] := by
          simp [addPositions, hpos]
        rw [hw, addPositions_append]
    rw [← List.singleton_append, addPositions_append, addPositions_append, ih, hstep]

end Violation

/-! ## Recorded violations -/

namespace Report

open Violation

variable {u v w : Violation} {kept vs : List Violation}

theorem insertViolation_cons_of_eq (h : v.key = w.key) :
    insertViolation v (w :: kept) = w.addPositions v.positions :: kept := by
  rw [insertViolation, if_pos (sameKey_iff.mpr h)]

theorem insertViolation_cons_of_ne (h : v.key ≠ w.key) :
    insertViolation v (w :: kept) = w :: insertViolation v kept := by
  rw [insertViolation, if_neg fun hs => h (sameKey_iff.mp hs)]

theorem map_key_insertViolation (v : Violation) (kept : List Violation) :
    (insertViolation v kept).map key =
      if v.key ∈ kept.map key then kept.map key else kept.map key ++ [v.key] := by
  induction kept with
  | nil => rfl
  | cons w kept ih =>
    by_cases h : v.key = w.key
    · rw [insertViolation_cons_of_eq h, if_pos (by simp [h])]
      rfl
    · rw [insertViolation_cons_of_ne h, List.map_cons, ih]
      by_cases hmem : v.key ∈ kept.map key
      · rw [if_pos hmem, List.map_cons, if_pos (List.mem_cons_of_mem _ hmem)]
      · rw [if_neg hmem, List.map_cons, if_neg (by simp [h, hmem]), List.cons_append]

theorem mem_map_key_insertViolation {k : Discipline × String} :
    k ∈ (insertViolation v kept).map key ↔ k ∈ kept.map key ∨ k = v.key := by
  rw [map_key_insertViolation]
  by_cases hmem : v.key ∈ kept.map key
  · rw [if_pos hmem]
    constructor
    · exact .inl
    · intro h
      rcases h with h | rfl
      · exact h
      · exact hmem
  · rw [if_neg hmem, List.mem_append, List.mem_singleton]

theorem nodup_insertViolation (v : Violation) (h : (kept.map key).Nodup) :
    ((insertViolation v kept).map key).Nodup := by
  rw [map_key_insertViolation]
  by_cases hmem : v.key ∈ kept.map key
  · rw [if_pos hmem]
    exact h
  · rw [if_neg hmem]
    refine List.nodup_append.mpr ⟨h, List.pairwise_singleton _ _, ?_⟩
    intro a ha b hb hab
    rw [hab, List.mem_singleton.mp hb] at ha
    exact hmem ha

/-- Two violations of one key are recorded one after the other, or as one. -/
theorem insertViolation_addPositions (h : v.key = w.key) (kept : List Violation) :
    insertViolation (w.addPositions v.positions) kept =
      insertViolation v (insertViolation w kept) := by
  induction kept with
  | nil => rw [insertViolation, insertViolation, insertViolation_cons_of_eq h]
  | cons x kept ih =>
    by_cases hx : w.key = x.key
    · have hv : v.key = (x.addPositions w.positions).key := h.trans hx
      rw [insertViolation_cons_of_eq (v := w.addPositions v.positions) hx,
        insertViolation_cons_of_eq hx, insertViolation_cons_of_eq hv, addPositions_addPositions]
    · have hv : v.key ≠ x.key := h ▸ hx
      rw [insertViolation_cons_of_ne (v := w.addPositions v.positions) hx,
        insertViolation_cons_of_ne hx, insertViolation_cons_of_ne hv, ih]

/-- A violation of a known key only adds positions, so it may come before one of
    another key, or after it. -/
theorem insertViolation_comm (hne : u.key ≠ v.key) (hknown : v.key ∈ kept.map key) :
    insertViolation u (insertViolation v kept) = insertViolation v (insertViolation u kept) := by
  induction kept with
  | nil => cases hknown
  | cons w kept ih =>
    by_cases hv : v.key = w.key
    · have hu : u.key ≠ w.key := hv ▸ hne
      rw [insertViolation_cons_of_eq hv, insertViolation_cons_of_ne hu,
        insertViolation_cons_of_eq hv,
        insertViolation_cons_of_ne (w := w.addPositions v.positions) hu]
    · have hknown : v.key ∈ kept.map key := by simpa [hv] using hknown
      rw [insertViolation_cons_of_ne hv]
      by_cases hu : u.key = w.key
      · rw [insertViolation_cons_of_eq hu, insertViolation_cons_of_eq hu,
          insertViolation_cons_of_ne (w := w.addPositions u.positions) hv]
      · rw [insertViolation_cons_of_ne hu, insertViolation_cons_of_ne hu,
          insertViolation_cons_of_ne hv, ih hknown]

/-- The kept violations after `vs` are recorded too. -/
def recordAll (kept vs : List Violation) : List Violation :=
  vs.foldl (fun kept v => insertViolation v kept) kept

theorem recordAll_cons (kept : List Violation) (v : Violation) (vs : List Violation) :
    recordAll kept (v :: vs) = recordAll (insertViolation v kept) vs := rfl

theorem recordAll_append (kept us vs : List Violation) :
    recordAll kept (us ++ vs) = recordAll (recordAll kept us) vs :=
  List.foldl_append

theorem nodup_recordAll (vs : List Violation) (h : (kept.map key).Nodup) :
    ((recordAll kept vs).map key).Nodup := by
  induction vs generalizing kept with
  | nil => exact h
  | cons v vs ih => exact ih (nodup_insertViolation v h)

theorem recordAll_insertViolation_of_known (hknown : v.key ∈ kept.map key)
    (hvs : v.key ∉ vs.map key) :
    recordAll (insertViolation v kept) vs = insertViolation v (recordAll kept vs) := by
  induction vs generalizing kept with
  | nil => rfl
  | cons u vs ih =>
    rw [List.map_cons, List.mem_cons, not_or] at hvs
    have hknown' : v.key ∈ (insertViolation u kept).map key :=
      mem_map_key_insertViolation.mpr (.inl hknown)
    rw [recordAll_cons, recordAll_cons, insertViolation_comm (Ne.symm hvs.1) hknown, ih hknown' hvs.2]

/-- To record what is left of `vs` after one more violation is to record `vs` and
    then this violation. -/
theorem recordAll_insertViolation (v : Violation) (hvs : (vs.map key).Nodup) :
    recordAll kept (insertViolation v vs) = insertViolation v (recordAll kept vs) := by
  induction vs generalizing kept with
  | nil => rfl
  | cons w vs ih =>
    rw [List.map_cons, List.nodup_cons] at hvs
    by_cases h : v.key = w.key
    · -- the key is known once `w` is recorded, and no later violation has it
      have hknown : v.key ∈ (insertViolation w kept).map key :=
        mem_map_key_insertViolation.mpr (.inr h)
      rw [insertViolation_cons_of_eq h, recordAll_cons, insertViolation_addPositions h,
        recordAll_insertViolation_of_known hknown (h ▸ hvs.1), recordAll_cons]
    · rw [insertViolation_cons_of_ne h, recordAll_cons, ih hvs.2, recordAll_cons]

theorem recordAll_of_new (h : ((kept ++ vs).map key).Nodup) : recordAll kept vs = kept ++ vs := by
  induction vs generalizing kept with
  | nil => rw [List.append_nil]; rfl
  | cons v vs ih =>
    have hnew : ∀ w ∈ kept, v.key ≠ w.key := by
      intro w hw he
      rw [List.map_append, List.nodup_append] at h
      exact h.2.2 _ (List.mem_map_of_mem hw) _ (by simp) he.symm
    rw [recordAll_cons, insertViolation_of_new hnew, ih (by simpa using h), List.append_assoc,
      List.singleton_append]

theorem insertViolation_of_mem (hnodup : (kept.map key).Nodup) (hv : v ∈ kept) :
    insertViolation v kept = kept := by
  induction kept with
  | nil => cases hv
  | cons w kept ih =>
    rw [List.map_cons, List.nodup_cons] at hnodup
    rcases List.mem_cons.mp hv with rfl | hv
    · rw [insertViolation_cons_of_eq rfl, addPositions_of_listed fun _ h => h]
    · have hne : v.key ≠ w.key := fun he => hnodup.1 (he ▸ List.mem_map_of_mem hv)
      rw [insertViolation_cons_of_ne hne, ih hnodup.2 hv]

theorem recordAll_of_subset (hnodup : (kept.map key).Nodup) (hvs : ∀ v ∈ vs, v ∈ kept) :
    recordAll kept vs = kept := by
  induction vs with
  | nil => rfl
  | cons v vs ih =>
    obtain ⟨hv, hvs⟩ := List.forall_mem_cons.mp hvs
    rw [recordAll_cons, insertViolation_of_mem hnodup hv, ih hvs]

/-! ## Reports -/

/-- No two violations have the same key. -/
def Distinct (r : Report) : Prop := (r.violations.map key).Nodup

variable {r s t : Report}

/-- Reports with the same findings have the same index too. -/
theorem ext_findings (hwarnings : r.warnings = s.warnings) (hviolations : r.violations = s.violations)
    (hescapes : r.escapes = s.escapes) : r = s := by
  have hindex : r.index = s.index := by rw [r.index_eq, s.index_eq, hviolations]
  rw [Report.mk.injEq]
  exact ⟨hwarnings, hviolations, hindex, hescapes⟩

theorem violations_foldl_insert (r : Report) (vs : List Violation) :
    (vs.foldl insert r).violations = recordAll r.violations vs := by
  induction vs generalizing r with
  | nil => rfl
  | cons v vs ih => rw [List.foldl_cons, ih, violations_insert, recordAll_cons]

theorem violations_merge (r s : Report) :
    (r.merge s).violations = recordAll r.violations s.violations :=
  violations_foldl_insert r s.violations

theorem Distinct.insert (h : r.Distinct) (v : Violation) : (r.insert v).Distinct := by
  unfold Distinct
  rw [violations_insert]
  exact nodup_insertViolation v h

theorem Distinct.merge (h : r.Distinct) (s : Report) : (r.merge s).Distinct := by
  unfold Distinct
  rw [violations_merge]
  exact nodup_recordAll s.violations h

theorem merge_insert (r : Report) (hs : s.Distinct) (v : Violation) :
    r.merge (s.insert v) = (r.merge s).insert v := by
  refine ext_findings ?_ ?_ ?_
  · rw [warnings_insert]
    show r.warnings ++ (s.insert v).warnings = r.warnings ++ s.warnings
    rw [warnings_insert]
  · rw [violations_merge, violations_insert, recordAll_insertViolation v hs, violations_insert,
      violations_merge]
  · rw [escapes_insert]
    show r.escapes ++ (s.insert v).escapes = r.escapes ++ s.escapes
    rw [escapes_insert]

theorem merge_recordEscape (r s : Report) (e : Escape) :
    r.merge (s.recordEscape e) = (r.merge s).recordEscape e :=
  ext_findings rfl rfl (List.append_assoc ..).symm

theorem merge_recordWarning (r s : Report) (w : Warning) :
    r.merge (s.recordWarning w) = (r.merge s).recordWarning w :=
  ext_findings (List.append_assoc ..).symm rfl rfl

theorem merge_empty (r : Report) : r.merge .empty = r :=
  ext_findings (List.append_nil _) rfl (List.append_nil _)

theorem empty_merge (h : r.Distinct) : Report.empty.merge r = r := by
  refine ext_findings rfl ?_ rfl
  rw [violations_merge]
  exact recordAll_of_new h

theorem merge_assoc (r : Report) (hs : s.Distinct) (t : Report) :
    (r.merge s).merge t = r.merge (s.merge t) := by
  have hviolations : ((r.merge s).merge t).violations = (r.merge (s.merge t)).violations := by
    simp only [violations_merge]
    unfold Distinct at hs
    generalize s.violations = kept at hs
    induction t.violations generalizing kept with
    | nil => rfl
    | cons v vs ih =>
      rw [recordAll_cons, recordAll_cons, ← ih _ (nodup_insertViolation v hs),
        recordAll_insertViolation v hs]
  have hwarnings := List.append_assoc r.warnings s.warnings t.warnings
  have hescapes := List.append_assoc r.escapes s.escapes t.escapes
  exact ext_findings hwarnings hviolations hescapes

theorem violations_merge_self (h : r.Distinct) : (r.merge r).violations = r.violations := by
  rw [violations_merge]
  exact recordAll_of_subset h fun _ hv => hv

/-- The index leads to the violation with the key, and to no other place. -/
theorem indexOf?_eq_some_iff (h : r.Distinct) {d : Discipline} {signature : String} {i : Nat} :
    r.indexOf? d signature = some i ↔
      ∃ v, r.violations[i]? = some v ∧ v.discipline = d ∧ v.signature = signature := by
  have hfound : ∀ v : Violation, ((d, signature) == v.key) = true ↔
      v.discipline = d ∧ v.signature = signature := by
    intro v
    rw [beq_iff_eq, eq_comm, key, Prod.mk.injEq]
  rw [indexOf?_eq_findIdx?, List.findIdx?_eq_some_iff_getElem]
  simp only [hfound]
  constructor
  · intro hi
    obtain ⟨hlt, hkey, -⟩ := hi
    exact ⟨_, List.getElem?_eq_getElem hlt, hkey⟩
  · intro hi
    obtain ⟨v, hv, rfl, rfl⟩ := hi
    obtain ⟨hlt, rfl⟩ := List.getElem?_eq_some_iff.mp hv
    refine ⟨hlt, ⟨rfl, rfl⟩, ?_⟩
    -- an earlier violation has another key
    intro j hj hkey
    have hkeys := List.pairwise_iff_getElem.mp (List.pairwise_map.mp h) j i (by omega) hlt hj
    exact hkeys (Prod.ext hkey.1 hkey.2)

end Report

/-! ## Scripts -/

namespace ReportStep

open Report

variable {p : Program} {r s s' : Report}

theorem nextAll?_cons (p : Program) (r : Report) (step : ReportStep) (steps : List ReportStep) :
    nextAll? p r (step :: steps) = (next? p r step).bind (nextAll? p · steps) := by
  rw [nextAll?]
  cases next? p r step <;> rfl

theorem nextAll?_append (p : Program) (r : Report) (xs ys : List ReportStep) :
    nextAll? p r (xs ++ ys) = (nextAll? p r xs).bind (nextAll? p · ys) := by
  induction xs generalizing r with
  | nil => rfl
  | cons x xs ih =>
    rw [List.cons_append, nextAll?_cons, nextAll?_cons, Option.bind_assoc]
    simp only [ih]

theorem distinct_of_next? {step : ReportStep} (hs : s.Distinct) (h : next? p s step = some s') :
    s'.Distinct := by
  cases step with
  | violation d l path positions =>
    obtain ⟨-, h⟩ := Option.ite_none_right_eq_some.mp h
    cases h
    exact hs.insert _
  | escape e =>
    cases h
    exact hs
  | warning w =>
    cases h
    exact hs
  | merge steps =>
    obtain ⟨t, -, rfl⟩ := Option.map_eq_some_iff.mp h
    exact hs.merge t

theorem distinct_of_nextAll? {steps : List ReportStep} (hs : s.Distinct)
    (h : nextAll? p s steps = some s') : s'.Distinct := by
  induction steps generalizing s with
  | nil =>
    cases h
    exact hs
  | cons step steps ih =>
    rw [nextAll?_cons] at h
    obtain ⟨t, ht, h⟩ := Option.bind_eq_some_iff.mp h
    exact ih (distinct_of_next? hs ht) h

/-- A step taken after a merge might as well have been taken before it. -/
theorem next?_merge (p : Program) (r : Report) (hs : s.Distinct) (step : ReportStep) :
    next? p (r.merge s) step = (next? p s step).map r.merge := by
  cases step with
  | violation d l path positions =>
    rw [next?, next?]
    split
    · exact congrArg some (merge_insert r hs _).symm
    · rfl
  | escape e => exact congrArg some (merge_recordEscape r s e).symm
  | warning w => exact congrArg some (merge_recordWarning r s w).symm
  | merge steps =>
    rw [next?, next?, Option.map_map]
    congr 1
    funext t
    exact merge_assoc r hs t

theorem nextAll?_merge (p : Program) (r : Report) (hs : s.Distinct) (steps : List ReportStep) :
    nextAll? p (r.merge s) steps = (nextAll? p s steps).map r.merge := by
  induction steps generalizing s with
  | nil => rfl
  | cons step steps ih =>
    rw [nextAll?_cons, nextAll?_cons, next?_merge p r hs]
    cases hstep : next? p s step with
    | none => rfl
    | some s' => exact ih (distinct_of_next? hs hstep)

/-- The report is what some steps come to. -/
def Builds (p : Program) (r : Report) : Prop := ∃ steps, nextAll? p .empty steps = some r

theorem distinct_empty : Report.empty.Distinct := List.nodup_nil

theorem Builds.distinct (h : Builds p r) : r.Distinct := by
  obtain ⟨steps, hsteps⟩ := h
  exact distinct_of_nextAll? distinct_empty hsteps

end ReportStep

open ReportStep in
/-- To merge a report is to take its steps again. Merging is therefore associative
    and has the empty report as its identity, a report merged into itself keeps
    its violations, and the index of a report is given by its violations. -/
theorem merging_replays (p : Program) :
    (∀ xs ys, nextAll? p .empty (xs ++ ys) =
      (nextAll? p .empty xs).bind fun r => (nextAll? p .empty ys).map r.merge) ∧
    (∀ r s t, Builds p r → Builds p s → Builds p t →
      (r.merge s).merge t = r.merge (s.merge t)) ∧
    (∀ r, Builds p r → Report.empty.merge r = r ∧ r.merge .empty = r ∧
      (r.merge r).violations = r.violations) ∧
    ∀ r, Builds p r → ∀ d signature i, r.indexOf? d signature = some i ↔
      ∃ v, r.violations[i]? = some v ∧ v.discipline = d ∧ v.signature = signature := by
  refine ⟨?_, ?_, ?_, ?_⟩
  · intro xs ys
    rw [nextAll?_append]
    congr 1
    funext r
    rw [← nextAll?_merge p r distinct_empty, Report.merge_empty]
  · intro r s t _ hs _
    exact Report.merge_assoc r hs.distinct t
  · intro r hr
    exact ⟨Report.empty_merge hr.distinct, Report.merge_empty r,
      Report.violations_merge_self hr.distinct⟩
  · intro r hr d signature i
    exact Report.indexOf?_eq_some_iff hr.distinct

/-- Two functions to record chains of. -/
def callPair : Program :=
  ⟨{ Snapshot.empty with
      packages := #[⟨"example.com/app", []⟩]
      functions := #[⟨"app.F", 0, false, []⟩, ⟨"app.Caller", 0, false, []⟩] },
    by decide, CallGraph.ofSnapshot _, rfl, none⟩

/-- The chain from `app.F` up to `app.Caller`, used at some lines. -/
def callPairStep (d : Discipline) (lines : List Nat) : ReportStep :=
  .violation d (.global 0) ⟨[0, 1], false⟩ (lines.map (Position.ofLine 0))

def callPairViolation (d : Discipline) (lines : List Nat) : Violation :=
  ⟨d, .global 0, ⟨[0, 1], false⟩, "app.F --> app.Caller", lines.map (Position.ofLine 0)⟩

def earlySteps : List ReportStep := [callPairStep .globals [7, 7]]

def earlyReport : Report :=
  ⟨[], [callPairViolation .globals [7, 7]], [((.globals, "app.F --> app.Caller"), 0)], rfl, []⟩

def lateSteps : List ReportStep :=
  [callPairStep .fields [12], callPairStep .globals [9, 9], callPairStep .globals [7, 9]]

def lateReport : Report :=
  ⟨[], [callPairViolation .fields [12], callPairViolation .globals [9, 9, 7]],
    [((.fields, "app.F --> app.Caller"), 0), ((.globals, "app.F --> app.Caller"), 1)], rfl, []⟩

/-- Lines repeat inside a step, from step to step and from script to script. -/
theorem merging_replays_callPair :
    ReportStep.nextAll? callPair .empty earlySteps = some earlyReport ∧
    ReportStep.nextAll? callPair .empty lateSteps = some lateReport ∧
    ReportStep.nextAll? callPair .empty (earlySteps ++ lateSteps) =
      some (earlyReport.merge lateReport) ∧
    (earlyReport.merge lateReport).violations =
      [callPairViolation .globals [7, 7, 9], callPairViolation .fields [12]] ∧
    (earlyReport.merge lateReport).merge earlyReport =
      earlyReport.merge (lateReport.merge earlyReport) ∧
    Report.empty.merge lateReport = lateReport ∧
    (lateReport.merge lateReport).violations = lateReport.violations ∧
    lateReport.indexOf? .globals "app.F --> app.Caller" = some 1 := by
  have hearly : ReportStep.nextAll? callPair .empty earlySteps = some earlyReport := by
    decide +kernel
  have hlate : ReportStep.nextAll? callPair .empty lateSteps = some lateReport := by
    decide +kernel
  obtain ⟨hreplay, hassoc, hunit, hindex⟩ := merging_replays callPair
  have hbuilt : ReportStep.Builds callPair earlyReport := ⟨earlySteps, hearly⟩
  have hbuilt' : ReportStep.Builds callPair lateReport := ⟨lateSteps, hlate⟩
  obtain ⟨hempty, -, hself⟩ := hunit lateReport hbuilt'
  have hmerged : ReportStep.nextAll? callPair .empty (earlySteps ++ lateSteps) =
      some (earlyReport.merge lateReport) := by
    rw [hreplay, hearly, hlate]
    rfl
  exact ⟨hearly, hlate, hmerged, by decide +kernel, hassoc _ _ _ hbuilt hbuilt' hbuilt, hempty, hself,
    (hindex lateReport hbuilt' _ _ _).mpr ⟨_, rfl, rfl, rfl⟩⟩

end LockDiscipline
