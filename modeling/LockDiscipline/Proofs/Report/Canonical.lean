import LockDiscipline.Proofs.Checked.Lines

/- The lines of findings in canonical form. They are the lines of unlocked
   accesses in strictly ascending order and then those of escapes, also in
   strictly ascending order. So each line stands once, and the lines depend on
   which findings there are and on nothing else (`findingLines_canonical`). -/
namespace LockDiscipline

namespace Report

variable {p : Program} {r : Report}

theorem not_mem_escapeLines {line : String} (h : line ∈ r.unlockedLines p) :
    line ∉ r.escapeLines p := by
  intro hescape
  have htrue := isEscapeLine_of_mem_escapeLines p hescape
  rw [isEscapeLine_of_mem_unlockedLines p h] at htrue
  cases htrue

end Report

open Report in
/-- Where the files of their positions exist, the lines of findings are those of
    unlocked accesses and then those of escapes, each class in strictly ascending
    order and none in the other. There is a line for the first known position of each
    violation and for each escape at a known position, and no other. So the lines stay
    the same when violations and escapes are put in another order or repeated. -/
theorem findingLines_canonical (p : Program) (r : Report)
    (h : FilesExist p r.findingPositions) :
    Checked.findingLines p r = .ok (r.findingLines p) ∧
    (∃ unlocked escapes, r.findingLines p = unlocked ++ escapes ∧
      unlocked.Pairwise (· < ·) ∧ escapes.Pairwise (· < ·) ∧
      (∀ line, line ∈ unlocked ↔
        ∃ v ∈ r.violations, ∃ pos, v.FirstKnown pos ∧ line = lineAt p pos unlockedMessage) ∧
      (∀ line, line ∈ escapes ↔
        ∃ e ∈ r.escapes, e.pos.isKnown = true ∧ line = lineAt p e.pos escapeMessage) ∧
      ∀ line ∈ unlocked, line ∉ escapes) ∧
    ∀ r' : Report, (∀ v, v ∈ r'.violations ↔ v ∈ r.violations) →
      (∀ e, e ∈ r'.escapes ↔ e ∈ r.escapes) → r'.findingLines p = r.findingLines p := by
  refine ⟨Checked.findingLines_of_exist h, ?_, ?_⟩
  · refine ⟨r.unlockedLines p, r.escapeLines p, rfl, pairwise_sortedLines _,
      pairwise_sortedLines _, ?_, fun line => mem_escapeLines p, ?_⟩
    · intro line
      simp only [mem_unlockedLines, unlockedLine?_eq_some]
    · intro line hline
      exact not_mem_escapeLines hline
  · intro r' hviolations hescapes
    exact findingLines_congr p hviolations hescapes

/-- Two files to report positions in. -/
def twoFiles : Program :=
  ⟨{ Snapshot.empty with
      packages := #[⟨"example.com/app", []⟩]
      files := #[⟨"app/a.go", 0, []⟩, ⟨"app/b.go", 0, []⟩] },
    by decide, CallGraph.ofSnapshot _, rfl, none⟩

/-- A violation of one chain, used at some positions. -/
def violationAt (signature : String) (positions : List Position) : Violation :=
  ⟨.globals, .global 0, ⟨[0], false⟩, signature, positions⟩

/-- The first use of `left` is at an unknown place of a file that does not exist, and
    `right` shares a line with it; `lost` is used at no known place. -/
def scatteredViolations : List Violation :=
  [violationAt "left" [⟨7, 0, 0⟩, ⟨0, 9, 4⟩, ⟨1, 3, 1⟩], violationAt "far" [⟨0, 10, 1⟩],
   violationAt "lost" [⟨7, 0, 0⟩], violationAt "right" [⟨0, 9, 8⟩]]

def scatteredEscapes : List Escape :=
  [⟨.global 0, 1, .ofLine 1 5⟩, ⟨.global 0, 1, ⟨7, 0, 0⟩⟩, ⟨.global 1, 2, .ofLine 0 9⟩]

/-- A report of violations and escapes, with a warning. -/
def reportOf (violations : List Violation) (escapes : List Escape) : Report :=
  ⟨[.missingNote (.ofLine 1 2)], violations, (violations.map Violation.key).zipIdx, rfl, escapes⟩

def scattered : Report := reportOf scatteredViolations scatteredEscapes

/-- The same findings in another order, the violations twice. -/
def rescattered : Report :=
  reportOf (scatteredViolations.reverse ++ scatteredViolations) scatteredEscapes.reverse

theorem scattered_canonical :
    Report.FilesExist twoFiles scattered.findingPositions ∧
    Checked.findingLines twoFiles scattered = .ok (scattered.findingLines twoFiles) ∧
    "[mutex check] app/a.go:9 no call to lock/unlock" ∈ scattered.findingLines twoFiles ∧
    rescattered.findingLines twoFiles = scattered.findingLines twoFiles := by
  have hexist : Report.FilesExist twoFiles scattered.findingPositions := by
    unfold Report.FilesExist Snapshot.HasPosition
    decide
  obtain ⟨hchecked, ⟨unlocked, escapes, hlines, -, -, hunlocked, -⟩, hsame⟩ :=
    findingLines_canonical twoFiles scattered hexist
  have hfirst : (violationAt "left" [⟨7, 0, 0⟩, ⟨0, 9, 4⟩, ⟨1, 3, 1⟩]).FirstKnown ⟨0, 9, 4⟩ :=
    ⟨[⟨7, 0, 0⟩], [⟨1, 3, 1⟩], rfl, by decide, by decide⟩
  refine ⟨hexist, hchecked, ?_, hsame rescattered ?_ ?_⟩
  · rw [hlines]
    exact List.mem_append_left _ ((hunlocked _).mpr ⟨_, List.mem_cons_self, _, hfirst, by decide⟩)
  · intro v
    simp [scattered, rescattered, reportOf]
  · intro e
    simp [scattered, rescattered, reportOf]

end LockDiscipline
