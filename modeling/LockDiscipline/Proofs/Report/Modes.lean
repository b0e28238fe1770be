import LockDiscipline.Proofs.Report.Canonical

/- The two ways to print a report. The lines of warnings and findings are not
   indented, those that are added with paths are (`isIndented_pathLines`), so
   without the latter the groups of violations leave the lines of unlocked
   accesses (`filter_groupLines`). The lines that end like those of escapes are
   the lines of escapes (`filter_findingLines`). Hence the short output is the
   long one without its indented lines, and the long one has the chain of every
   violation in its place (`output_modes_agree`). -/
namespace LockDiscipline

/-- The line begins with four spaces. -/
def isIndented (line : String) : Bool := (Text.after? "    " line.toList).isSome

theorem isIndented_iff {line : String} :
    isIndented line = true ↔ "    ".toList <+: line.toList := by
  rw [isIndented, Text.after?, List.isSome_isPrefixOf?_eq_isPrefixOf, List.isPrefixOf_iff_prefix]

namespace Report

variable {p : Program} {r : Report}

theorem isIndented_lineAt (p : Program) (pos : Position) (message : String) :
    isIndented (lineAt p pos message) = false := by
  simp only [isIndented, lineAt, String.toList_append, Text.after?]
  rfl

theorem isIndented_warningLines {line : String} (h : line ∈ r.warningLines p) :
    isIndented line = false := by
  obtain ⟨w, -, rfl⟩ := List.mem_map.mp h
  cases w with
  | missingNote pos => exact isIndented_lineAt p pos _
  | unresolvedName pos name => exact isIndented_lineAt p pos _

theorem isIndented_unlockedLines {line : String} (h : line ∈ r.unlockedLines p) :
    isIndented line = false := by
  obtain ⟨v, -, hline⟩ := (mem_unlockedLines p).mp h
  obtain ⟨pos, -, rfl⟩ := (unlockedLine?_eq_some p).mp hline
  exact isIndented_lineAt p pos _

theorem isIndented_escapeLines {line : String} (h : line ∈ r.escapeLines p) :
    isIndented line = false := by
  obtain ⟨e, -, -, rfl⟩ := (mem_escapeLines p).mp h
  exact isIndented_lineAt p e.pos _

theorem isIndented_pathLines {v : Violation} {line : String} (h : line ∈ pathLines p v) :
    isIndented line = true := by
  rw [isIndented_iff]
  rcases List.mem_cons.mp h with rfl | h
  · rw [String.toList_append]
    exact List.prefix_append _ _
  · obtain ⟨pos, -, rfl⟩ := List.mem_map.mp h
    have hdeeper : "    ".toList <+: "      also at ".toList := by decide
    rw [String.toList_append]
    exact hdeeper.trans (List.prefix_append _ _)

/-- Without what is indented, a group is its line. -/
theorem filter_groupLines (p : Program) (r : Report) :
    (r.groupLines p).filter (!isIndented ·) = r.unlockedLines p := by
  rw [groupLines, List.filter_flatMap, groups_entries, List.flatMap_map]
  calc _ = (r.unlockedLines p).flatMap fun line => [line] := by
        apply List.flatMap_congr
        intro line hline
        have hpaths : ((r.violations.filter (unlockedLine? p · == some line)).flatMap
            (pathLines p)).filter (!isIndented ·) = [] := by
          rw [List.filter_eq_nil_iff]
          intro x hx
          obtain ⟨v, -, hx⟩ := List.mem_flatMap.mp hx
          simp [isIndented_pathLines hx]
        rw [List.filter_cons_of_pos (by simp [isIndented_unlockedLines hline]), hpaths]
    _ = r.unlockedLines p := List.flatMap_singleton' _

/-- The findings that end like escapes are the escapes. -/
theorem filter_findingLines (p : Program) (r : Report) :
    (r.findingLines p).filter isEscapeLine = r.escapeLines p := by
  have hunlocked : (r.unlockedLines p).filter isEscapeLine = [] := by
    rw [List.filter_eq_nil_iff]
    intro line hline
    simp [isEscapeLine_of_mem_unlockedLines p hline]
  have hescapes : (r.escapeLines p).filter isEscapeLine = r.escapeLines p := by
    rw [List.filter_eq_self]
    intro line hline
    exact isEscapeLine_of_mem_escapeLines p hline
  rw [findingLines, List.filter_append, hunlocked, hescapes, List.nil_append]

theorem render_true (p : Program) (r : Report) :
    r.render p true = r.warningLines p ++ (r.groupLines p ++ r.escapeLines p) := by
  rw [render, if_pos rfl, filter_findingLines]

theorem filter_render (p : Program) (r : Report) :
    (r.render p true).filter (!isIndented ·) = r.render p false := by
  have hwarnings : (r.warningLines p).filter (!isIndented ·) = r.warningLines p := by
    rw [List.filter_eq_self]
    intro line hline
    simp [isIndented_warningLines hline]
  have hescapes : (r.escapeLines p).filter (!isIndented ·) = r.escapeLines p := by
    rw [List.filter_eq_self]
    intro line hline
    simp [isIndented_escapeLines hline]
  rw [render_true, List.filter_append, List.filter_append, hwarnings, filter_groupLines, hescapes]
  rfl

end Report

open Report in
/-- Where the files of the printed positions exist, a report is printed either way,
    and without the lines that begin with four spaces the output with paths is the one
    without. In the output with paths, the violations stand in groups under the lines
    of unlocked accesses: those of a line in recording order, and each one that has a
    known position once, as its signature and the other known positions behind it. -/
theorem output_modes_agree (p : Program) (r : Report)
    (h : FilesExist p (r.printedPositions ++ r.furtherPositions)) :
    Checked.render p r true = .ok (r.render p true) ∧
    Checked.render p r false = .ok (r.render p false) ∧
    (r.render p true).filter (!isIndented ·) = r.render p false ∧
    ∃ groups : List (String × List Violation),
      r.render p true = r.warningLines p ++
        ((groups.flatMap fun g => g.1 :: g.2.flatMap fun v =>
          ("    " ++ v.signature) :: ((v.positions.filter Position.isKnown).drop 1).map fun pos =>
            "      also at " ++ p.showPosition pos) ++ r.escapeLines p) ∧
      groups.map Prod.fst = r.unlockedLines p ∧
      (∀ g ∈ groups, g.2 = r.violations.filter (unlockedLine? p · == some g.1)) ∧
      (groups.flatMap Prod.snd).Perm (r.violations.filter (·.positions.any Position.isKnown)) := by
  rw [printedPositions_eq] at h
  have hwarnings : FilesExist p (r.warnings.map Warning.pos) := by
    intro pos hpos
    exact h pos (List.mem_append_left _ (List.mem_append_left _ hpos))
  have hfindings : FilesExist p r.findingPositions := by
    intro pos hpos
    exact h pos (List.mem_append_left _ (List.mem_append_right _ hpos))
  have hfurther : FilesExist p r.furtherPositions := by
    intro pos hpos
    exact h pos (List.mem_append_right _ hpos)
  exact ⟨Checked.render_of_exist hwarnings hfindings fun _ => hfurther,
    Checked.render_of_exist hwarnings hfindings fun _ => hfurther, filter_render p r,
    (r.groups p).entries, render_true p r, map_fst_groups p r, (grouped_groups p r).group,
    perm_groups p r⟩

/-- Two violations share a line, one of them has another position, and one violation
    has no line. -/
theorem scattered_modes_agree :
    Report.FilesExist twoFiles (scattered.printedPositions ++ scattered.furtherPositions) ∧
    scattered.groupLines twoFiles =
      ["[mutex check] app/a.go:10 no call to lock/unlock", "    far",
       "[mutex check] app/a.go:9 no call to lock/unlock", "    left", "      also at app/b.go:3",
       "    right"] ∧
    (scattered.render twoFiles true).filter (!isIndented ·) = scattered.render twoFiles false := by
  have hexist : Report.FilesExist twoFiles
      (scattered.printedPositions ++ scattered.furtherPositions) := by
    unfold Report.FilesExist Snapshot.HasPosition
    decide
  exact ⟨hexist, by decide +kernel, (output_modes_agree twoFiles scattered hexist).2.2.1⟩

end LockDiscipline
