import LockDiscipline.Guard.Discipline
import LockDiscipline.Walk.Basic

/- The walk on a program, for a location and its lock. -/
namespace LockDiscipline

/-- A function is exposed when it lies outside the package of the location or
    is started as a goroutine; a caller shields a call when it mentions the
    lock and its calls of the callee are taken to happen under it. -/
def Discipline.terrain (d : Discipline) (p : Program) (l lock : Location) : Terrain where
  callers := p.graph.callersOf
  exposed node := p.nodePackage? node != l.package? p || p.graph.isSpawned node
  shields caller callee :=
    d.mentions (p.body caller) lock && d.callsHeld (p.body caller) callee lock

/-- The first chain of callers of `start` on which nobody holds the lock. -/
def Discipline.unprotectedPath? (d : Discipline) (p : Program) (l lock : Location)
    (start : Nat) : Option CallPath :=
  Walk.find? (d.terrain p l lock) p.snapshot.functions.size start

/-- The names along a path, with a mark at the end if it loops. -/
def CallPath.render (p : Program) (path : CallPath) : String :=
  String.intercalate " --> " (path.nodes.map p.nodeName)
    ++ if path.looped then " [LOOP]" else ""

end LockDiscipline
