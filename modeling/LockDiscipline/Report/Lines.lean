import LockDiscipline.Report.Groups

/- The lines of a report: warnings, then unlocked accesses, then escapes. The
   last two are sorted by code points and free of repetitions. With paths, the
   violations are grouped by their lines and the chains of a group follow its
   line; the lines of escapes are then picked from those of all findings. -/
namespace LockDiscipline

/-- The lines in ascending order, each once. -/
def sortedLines (lines : List String) : List String :=
  (lines.mergeSort fun a b => decide (a ≤ b)).eraseReps

namespace Report

/-- The mark that every line of a finding starts with. -/
def mark : String := "[mutex check]"

def unlockedMessage : String := "no call to lock/unlock"

def escapeMessage : String :=
  "returns the guarded variable; restructure as a callback/visitor instead"

/-- A line about a position. -/
def lineAt (p : Program) (pos : Position) (message : String) : String :=
  mark ++ " " ++ p.showPosition pos ++ " " ++ message

def warningLine (p : Program) : Warning → String
  | .missingNote pos =>
    lineAt p pos "guard has no annotation naming the locations it protects"
  | .unresolvedName pos name =>
    lineAt p pos ("annotation names undeclared identifier " ++ name)

/-- One line per warning. -/
def warningLines (p : Program) (r : Report) : List String := r.warnings.map (warningLine p)

/-- The line of a violation, if it has a known position. -/
def unlockedLine? (p : Program) (v : Violation) : Option String :=
  v.primary?.map fun pos => lineAt p pos unlockedMessage

/-- The lines of unlocked accesses. -/
def unlockedLines (p : Program) (r : Report) : List String :=
  sortedLines (r.violations.filterMap (unlockedLine? p))

/-- The lines of escapes at known positions. -/
def escapeLines (p : Program) (r : Report) : List String :=
  sortedLines ((r.escapes.filter (·.pos.isKnown)).map fun e => lineAt p e.pos escapeMessage)

/-- The lines of all findings. -/
def findingLines (p : Program) (r : Report) : List String := r.unlockedLines p ++ r.escapeLines p

/-- The chain of a violation and its known positions after the first. -/
def pathLines (p : Program) (v : Violation) : List String :=
  ("    " ++ v.signature) ::
    ((v.positions.filter Position.isKnown).drop 1).map fun pos =>
      "      also at " ++ p.showPosition pos

/-- Puts a violation that has a line into the group of its line. -/
def addToGroup (p : Program) (groups : LineGroups) (v : Violation) : LineGroups :=
  match unlockedLine? p v with
  | none => groups
  | some line => groups.add line v

/-- The violations that have a line, grouped by their lines. -/
def groups (p : Program) (r : Report) : LineGroups := r.violations.foldl (addToGroup p) .empty

/-- The lines of unlocked accesses, each with the chains that lead to it. -/
def groupLines (p : Program) (r : Report) : List String :=
  (r.groups p).entries.flatMap fun g => g.1 :: g.2.flatMap (pathLines p)

/-- The line ends like the lines of escapes. -/
def isEscapeLine (line : String) : Bool := (Text.before? escapeMessage line.toList).isSome

/-- A report as the program prints it. -/
def render (p : Program) (r : Report) (showPaths : Bool) : List String :=
  r.warningLines p ++
    if showPaths then r.groupLines p ++ (r.findingLines p).filter isEscapeLine
    else r.findingLines p

/-- The positions that the lines name. -/
def printedPositions (r : Report) : List Position :=
  r.warnings.map Warning.pos ++ r.violations.filterMap Violation.primary?
    ++ (r.escapes.filter (·.pos.isKnown)).map Escape.pos

/-- All positions that the lines name lie in files of the program. -/
def isPrintable (p : Program) (r : Report) : Bool :=
  r.printedPositions.all fun pos => p.hasFile pos.file

end Report
end LockDiscipline
