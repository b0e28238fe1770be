import LockDiscipline.Proofs.Checked.Check
import LockDiscipline.Proofs.Report.Groups
import LockDiscipline.Proofs.Report.Positions

/- The lines of a report with checked lookups. They come out as they do without
   when the files exist that are named in them (`findingLines_of_exist`,
   `render_of_exist`). With them the whole run is checked: for an accepted
   program, whatever module is in scope, no lookup from the building of the call
   graph to the last line that is printed is outside its table, and no index
   outgrows 32 bits (`lookups_never_fail`). Comments are found by their lines and
   take no lookup. -/
namespace LockDiscipline

namespace Report

/-- The positions in the lines of findings. -/
def findingPositions (r : Report) : List Position :=
  r.violations.filterMap Violation.primary? ++ (r.escapes.filter (·.pos.isKnown)).map Escape.pos

theorem printedPositions_eq (r : Report) :
    r.printedPositions = r.warnings.map Warning.pos ++ r.findingPositions :=
  List.append_assoc ..

/-- The positions that are added when paths are shown. -/
def furtherPositions (r : Report) : List Position :=
  r.violations.flatMap fun v => (v.positions.filter Position.isKnown).drop 1

/-- The files of the positions exist. -/
def FilesExist (p : Program) (positions : List Position) : Prop :=
  ∀ pos ∈ positions, p.snapshot.HasPosition pos

end Report

namespace Checked

open Report (FilesExist)

variable (p : Program)

def lineAt (pos : Position) (message : String) : Checked String := do
  return Report.mark ++ " " ++ (← showPosition p pos) ++ " " ++ message

def warningLine : Warning → Checked String
  | .missingNote pos =>
    lineAt p pos "guard has no annotation naming the locations it protects"
  | .unresolvedName pos name =>
    lineAt p pos ("annotation names undeclared identifier " ++ name)

def warningLines (r : Report) : Checked (List String) := r.warnings.mapM (warningLine p)

def unlockedLine? (v : Violation) : Checked (Option String) :=
  match v.primary? with
  | none => return none
  | some pos => do return some (← lineAt p pos Report.unlockedMessage)

def unlockedLines (r : Report) : Checked (List String) := do
  return sortedLines (← r.violations.filterMapM (unlockedLine? p))

def escapeLines (r : Report) : Checked (List String) := do
  let escapes := r.escapes.filter (·.pos.isKnown)
  return sortedLines (← escapes.mapM fun e => lineAt p e.pos Report.escapeMessage)

def findingLines (r : Report) : Checked (List String) := do
  return (← unlockedLines p r) ++ (← escapeLines p r)

def pathLines (v : Violation) : Checked (List String) := do
  let further := (v.positions.filter Position.isKnown).drop 1
  return ("    " ++ v.signature) ::
    (← further.mapM fun pos => do return "      also at " ++ (← showPosition p pos))

def addToGroup (groups : LineGroups) (v : Violation) : Checked LineGroups := do
  match ← unlockedLine? p v with
  | none => return groups
  | some line => return groups.add line v

def groups (r : Report) : Checked LineGroups := r.violations.foldlM (addToGroup p) .empty

def groupLines (r : Report) : Checked (List String) := do
  (← groups p r).entries.flatMapM fun g => do return g.1 :: (← g.2.flatMapM (pathLines p))

def render (r : Report) (showPaths : Bool) : Checked (List String) := do
  let warnings ← warningLines p r
  if showPaths then
    let grouped ← groupLines p r
    return warnings ++ (grouped ++ (← findingLines p r).filter Report.isEscapeLine)
  else return warnings ++ (← findingLines p r)

variable {p} {r : Report}

theorem lineAt_ok {pos : Position} (h : p.snapshot.HasPosition pos) (message : String) :
    lineAt p pos message = .ok (Report.lineAt p pos message) := by
  rw [lineAt, showPosition_ok h, ok_bind, pure_eq_ok, Report.lineAt]

theorem warningLines_of_exist (h : FilesExist p (r.warnings.map Warning.pos)) :
    warningLines p r = .ok (r.warningLines p) := by
  refine mapM_ok ?_
  intro w hw
  have hpos := h w.pos (List.mem_map_of_mem hw)
  cases w with
  | missingNote pos => exact lineAt_ok hpos _
  | unresolvedName pos name => exact lineAt_ok hpos _

theorem unlockedLine?_of_exist (h : FilesExist p r.findingPositions) {v : Violation}
    (hv : v ∈ r.violations) : unlockedLine? p v = .ok (Report.unlockedLine? p v) := by
  unfold unlockedLine? Report.unlockedLine?
  cases hprimary : v.primary? with
  | none => rfl
  | some pos =>
    have hpos := h pos (List.mem_append_left _ (List.mem_filterMap.mpr ⟨v, hv, hprimary⟩))
    simp only [lineAt_ok hpos, ok_bind, pure_eq_ok, Option.map_some]

theorem unlockedLines_of_exist (h : FilesExist p r.findingPositions) :
    unlockedLines p r = .ok (r.unlockedLines p) := by
  have hlines := filterMapM_ok fun v (hv : v ∈ r.violations) => unlockedLine?_of_exist h hv
  rw [unlockedLines, hlines, ok_bind, pure_eq_ok, Report.unlockedLines]

theorem escapeLines_of_exist (h : FilesExist p r.findingPositions) :
    escapeLines p r = .ok (r.escapeLines p) := by
  have hlines : (r.escapes.filter (·.pos.isKnown)).mapM
      (fun e => lineAt p e.pos Report.escapeMessage) =
      .ok ((r.escapes.filter (·.pos.isKnown)).map
        fun e => Report.lineAt p e.pos Report.escapeMessage) := by
    refine mapM_ok ?_
    intro e he
    exact lineAt_ok (h e.pos (List.mem_append_right _ (List.mem_map_of_mem he))) _
  rw [escapeLines, hlines, ok_bind, pure_eq_ok, Report.escapeLines]

theorem findingLines_of_exist (h : FilesExist p r.findingPositions) :
    findingLines p r = .ok (r.findingLines p) := by
  rw [findingLines, unlockedLines_of_exist h, ok_bind, escapeLines_of_exist h, ok_bind, pure_eq_ok,
    Report.findingLines]

theorem pathLines_of_exist (h : FilesExist p r.furtherPositions) {v : Violation}
    (hv : v ∈ r.violations) : pathLines p v = .ok (Report.pathLines p v) := by
  have hfurther : ((v.positions.filter Position.isKnown).drop 1).mapM
      (fun pos => do return "      also at " ++ (← showPosition p pos)) =
      .ok (((v.positions.filter Position.isKnown).drop 1).map
        fun pos => "      also at " ++ p.showPosition pos) := by
    refine mapM_ok ?_
    intro pos hpos
    rw [showPosition_ok (h pos (List.mem_flatMap.mpr ⟨v, hv, hpos⟩)), ok_bind, pure_eq_ok]
  rw [pathLines, hfurther, ok_bind, pure_eq_ok, Report.pathLines]

theorem groups_of_exist (h : FilesExist p r.findingPositions) : groups p r = .ok (r.groups p) := by
  refine foldlM_ok ?_ _
  intro groups v hv
  rw [addToGroup, unlockedLine?_of_exist h hv, ok_bind, Report.addToGroup]
  cases Report.unlockedLine? p v <;> rfl

theorem groupLines_of_exist (h : FilesExist p r.findingPositions)
    (hfurther : FilesExist p r.furtherPositions) : groupLines p r = .ok (r.groupLines p) := by
  rw [groupLines, groups_of_exist h, ok_bind]
  refine flatMapM_ok ?_
  intro g hg
  have hpaths : g.2.flatMapM (pathLines p) = .ok (g.2.flatMap (Report.pathLines p)) := by
    refine flatMapM_ok ?_
    intro v hv
    rw [(Report.grouped_groups p r).group g hg] at hv
    exact pathLines_of_exist hfurther (List.mem_filter.mp hv).1
  rw [hpaths, ok_bind, pure_eq_ok]

/-- Where the files of the printed positions exist, a report is printed; the positions
    behind the first ones matter only when paths are shown. -/
theorem render_of_exist (hwarnings : FilesExist p (r.warnings.map Warning.pos))
    (h : FilesExist p r.findingPositions) {showPaths : Bool}
    (hfurther : showPaths = true → FilesExist p r.furtherPositions) :
    render p r showPaths = .ok (r.render p showPaths) := by
  rw [render, warningLines_of_exist hwarnings, ok_bind, Report.render]
  cases showPaths with
  | false => simp only [findingLines_of_exist h, ok_bind, pure_eq_ok, Bool.false_eq_true, if_false]
  | true =>
    simp only [groupLines_of_exist h (hfurther rfl), findingLines_of_exist h, ok_bind, pure_eq_ok,
      if_true]

/-! ## Reports in range -/

theorem warningLines_ok (hr : r.InRange p) : warningLines p r = .ok (r.warningLines p) := by
  apply warningLines_of_exist
  intro pos hpos
  obtain ⟨w, hw, rfl⟩ := List.mem_map.mp hpos
  exact hr.warnings w hw

theorem filesExist_findingPositions (hr : r.InRange p) : FilesExist p r.findingPositions := by
  intro pos hpos
  rcases List.mem_append.mp hpos with hpos | hpos
  · obtain ⟨v, hv, hprimary⟩ := List.mem_filterMap.mp hpos
    exact hr.violations v hv pos (List.mem_of_find?_eq_some hprimary)
  · obtain ⟨e, he, rfl⟩ := List.mem_map.mp hpos
    exact hr.escapes e (List.mem_filter.mp he).1

theorem findingLines_ok (hr : r.InRange p) : findingLines p r = .ok (r.findingLines p) :=
  findingLines_of_exist (filesExist_findingPositions hr)

theorem render_ok (hr : r.InRange p) (showPaths : Bool) :
    render p r showPaths = .ok (r.render p showPaths) := by
  apply render_of_exist
  · intro pos hpos
    obtain ⟨w, hw, rfl⟩ := List.mem_map.mp hpos
    exact hr.warnings w hw
  · exact filesExist_findingPositions hr
  · intro _ pos hpos
    obtain ⟨v, hv, hpos⟩ := List.mem_flatMap.mp hpos
    exact hr.violations v hv pos (List.mem_filter.mp (List.mem_of_mem_drop hpos)).1

end Checked

/-- The run of an accepted program without lines of 2^32 names makes no lookup outside
    a table and no index of more than 32 bits: with checked lookups, the call graph, the
    check and the lines of its report come out as they do without. -/
theorem lookups_never_fail (p : Program) (hnames : p.snapshot.NamesFit) (ds : List Discipline) :
    Checked.graph p.snapshot = .ok p.graph ∧
      Checked.check p ds = .ok (p.check ds) ∧
      Checked.warningLines p (p.check ds) = .ok ((p.check ds).warningLines p) ∧
      Checked.findingLines p (p.check ds) = .ok ((p.check ds).findingLines p) ∧
      ∀ showPaths, Checked.render p (p.check ds) showPaths =
        .ok ((p.check ds).render p showPaths) := by
  have hr := p.check_inRange ds
  exact ⟨Checked.graph_ok p, Checked.check_ok hnames ds, Checked.warningLines_ok hr,
    Checked.findingLines_ok hr, fun showPaths => Checked.render_ok hr showPaths⟩

/-- A struct with a lock for its other field, and a function that uses the field
    without the lock. -/
def cacheSnapshot : Snapshot where
  modulePath := none
  buildFlags := []
  packages := #[⟨"example.com/app", []⟩]
  files := #[⟨"app/cache.go", 0, [.struct ⟨"Cache", 0,
    [⟨["mu"], .named (some "sync") "Mutex", .ofLine 0 2, 0⟩,
     ⟨["size", "items"], .named none "int", .ofLine 0 3, 1⟩]⟩]⟩]
  globals := #[]
  structs := #[⟨"Cache", 0,
    [⟨"mu", .ofLine 0 2⟩, ⟨"size", .ofLine 0 3⟩, ⟨"items", .ofLine 0 3⟩]⟩]
  functions := #[
    ⟨"get", 0, false, [⟨.ofLine 0 5, none, .fieldAddr (.value 0) ⟨0, 2⟩⟩]⟩,
    ⟨"main", 0, false, [⟨.ofLine 0 8, none, .call ⟨.function 0, false, []⟩⟩]⟩]
  edges := [⟨1, 0⟩]
  comments := [⟨.ofLine 0 2, "// items"⟩]

def cache : Program :=
  ⟨cacheSnapshot, by decide, CallGraph.ofSnapshot cacheSnapshot, rfl, some "example.com"⟩

theorem lookups_never_fail_cache :
    cache.snapshot.NamesFit ∧
      Checked.check cache Discipline.all = .ok (cache.check Discipline.all) ∧
      Checked.render cache (cache.check Discipline.all) true =
        .ok ((cache.check Discipline.all).render cache true) := by
  have hnames : cache.snapshot.NamesFit := by
    intro f hf d hd
    rw [List.mem_singleton.mp hf, List.mem_singleton] at hd
    cases hd
    decide
  have h := lookups_never_fail cache hnames Discipline.all
  exact ⟨hnames, h.2.1, h.2.2.2.2 true⟩

end LockDiscipline
