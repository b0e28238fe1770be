import LockDiscipline.Guard.Resolution

/- Who uses what is protected. All functions but initializers are gone through
   once, instruction by instruction, and a function is entered as a user of each
   protected location that an instruction of it uses. -/
namespace LockDiscipline

/-- The functions that use a location, by location. -/
abbrev UsageMap := Dictionary Location (List Nat)

namespace UsageMap

/-- Puts a function in its place, unless it is listed already. -/
def insertNode (n : Nat) : List Nat → List Nat
  | [] => [n]
  | m :: rest =>
    if n < m then n :: m :: rest
    else if n = m then m :: rest
    else m :: insertNode n rest

/-- Enters a function as a user of a location. -/
def addUser (usages : UsageMap) (l : Location) (n : Nat) : UsageMap :=
  usages.alter l fun nodes => insertNode n (nodes.getD [])

/-- The users of a location, in ascending order. -/
def usersOf (usages : UsageMap) (l : Location) : List Nat := (usages.get? l).getD []

end UsageMap

/-- The functions that the check looks at. -/
def Program.checkedNodes (p : Program) : List Nat := p.nodes.filter (!p.isInit ·)

namespace Discipline

/-- Enters a function as a user of what one of its instructions uses. -/
def noteUses (d : Discipline) (guarded : List Location) (n : Nat) (usages : UsageMap)
    (i : Instruction) : UsageMap :=
  guarded.foldl (fun usages l => if d.uses i l then usages.addUser l n else usages) usages

/-- The users of the locations `guarded`. -/
def usagesOf (d : Discipline) (p : Program) (guarded : List Location) : UsageMap :=
  p.checkedNodes.foldl (fun usages n => (p.body n).foldl (d.noteUses guarded n) usages) .empty

/-- The users of all protected locations. -/
def usages (d : Discipline) (p : Program) : UsageMap :=
  d.usagesOf p (d.resolve p).guards.locations

/-- The functions that use a protected location, in ascending order. -/
def users (d : Discipline) (p : Program) (l : Location) : List Nat := (d.usages p).usersOf l

end Discipline
end LockDiscipline
