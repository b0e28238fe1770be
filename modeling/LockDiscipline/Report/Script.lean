import LockDiscipline.Report.Basic

/- Reports built step by step. A step that names a function which the program
   does not have is refused and changes nothing. -/
namespace LockDiscipline

/-- A step in the making of a report; `merge` makes another report first. -/
inductive ReportStep where
  | violation (d : Discipline) (l : Location) (path : CallPath) (positions : List Position)
  | escape (e : Escape)
  | warning (w : Warning)
  | merge (steps : List ReportStep)

namespace ReportStep

mutual

/-- The report after a step. -/
def next? (p : Program) (r : Report) : ReportStep → Option Report
  | .violation d l path positions =>
    if path.nodes.all p.hasNode then some (r.recordViolation p d l path positions) else none
  | .escape e => some (r.recordEscape e)
  | .warning w => some (r.recordWarning w)
  | .merge steps => (nextAll? p .empty steps).map r.merge

/-- The report after all steps, none of which may be refused. -/
def nextAll? (p : Program) (r : Report) : List ReportStep → Option Report
  | [] => some r
  | step :: steps =>
    match next? p r step with
    | none => none
    | some r => nextAll? p r steps

end

/-- The reports after each step, with `none` where a step is refused. -/
def trace (p : Program) (r : Report) : List ReportStep → List (Option Report)
  | [] => []
  | step :: steps =>
    match next? p r step with
    | none => none :: trace p r steps
    | some next => some next :: trace p next steps

end ReportStep
end LockDiscipline
