import LockDiscipline.Guard.Usage
import LockDiscipline.Report.Basic

/- The check of a program. For each discipline the annotations are resolved, the
   users of the protected locations are collected, and every location is
   verified: in each function that uses it outside the lock, the callers are
   searched for a chain on which nobody holds the lock. Returns that hand out the
   location or its lock are found in all functions. Initializers are left alone. -/
namespace LockDiscipline

namespace Discipline

/-- What a function does wrong with a location: the positions of its
    unprotected uses, and a chain on which nobody holds the lock. -/
def failure? (d : Discipline) (p : Program) (l lock : Location) (node : Nat) :
    Option (CallPath × List Position) :=
  match d.unprotected (p.body node) lock l with
  | [] => none
  | positions => (d.unprotectedPath? p l lock node).map (·, positions)

/-- The failures of the functions `nodes` with a location. -/
def failures (d : Discipline) (p : Program) (l lock : Location) (nodes : List Nat) :
    List (CallPath × List Position) :=
  nodes.filterMap (d.failure? p l lock)

end Discipline

/-- The returns of a function that hand out a location or its lock. -/
def Program.escapesOf (p : Program) (l lock : Location) (node : Nat) : List Escape :=
  ((p.body node).filter fun i => i.pos.isKnown && i.releases (p.body node) l lock).map
    fun i => ⟨l, node, i.pos⟩

/-- All returns that hand out a location or its lock. -/
def Program.escapes (p : Program) (l lock : Location) : List Escape :=
  p.checkedNodes.flatMap (p.escapesOf l lock)

namespace Report

/-- Records what is found about one protected location. -/
def recordLocation (d : Discipline) (p : Program) (usages : UsageMap) (r : Report)
    (entry : Location × Guard) : Report :=
  let (l, guard) := entry
  let r := (d.failures p l guard.location (usages.usersOf l)).foldl
    (fun r failure => r.recordViolation p d l failure.1 failure.2) r
  (p.escapes l guard.location).foldl recordEscape r

end Report

/-- The order in which protected locations are verified: by sort key, then by
    location. -/
def Location.verifiedBefore (p : Program) (a b : Location × Guard) : Bool :=
  let keyA := (a.1.sortKey? p).getD ""
  let keyB := (b.1.sortKey? p).getD ""
  decide (keyA < keyB) || (keyA == keyB && !b.1.before a.1)

/-- The protected locations in the order in which they are verified. -/
def Discipline.agenda (d : Discipline) (p : Program) : List (Location × Guard) :=
  (d.resolve p).guards.entries.mergeSort (Location.verifiedBefore p)

/-- The report of one discipline. -/
def Discipline.check (d : Discipline) (p : Program) : Report :=
  (d.agenda p).foldl (Report.recordLocation d p (d.usages p))
    { Report.empty with warnings := (d.resolve p).warnings }

/-- The merged reports of the disciplines `ds`, in this order. -/
def Program.check (p : Program) (ds : List Discipline) : Report :=
  ds.foldl (fun r d => r.merge (d.check p)) .empty

end LockDiscipline
