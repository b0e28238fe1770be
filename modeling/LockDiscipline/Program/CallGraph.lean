import LockDiscipline.Program.Snapshot

/- The call graph: for every node its callers and its callees, each once and in
   the order of the first edge that names it, and whether some instruction
   starts it as a goroutine. -/
namespace LockDiscipline

structure CallGraph where
  callers : Array (List Nat)
  callees : Array (List Nat)
  spawned : Array Bool
deriving Repr

namespace CallGraph

/-- `n` nodes without edges. -/
def ofSize (n : Nat) : CallGraph :=
  ⟨Array.replicate n [], Array.replicate n [], Array.replicate n false⟩

/-- Appends a node unless it is already listed. -/
def addNode (nodes : List Nat) (n : Nat) : List Nat :=
  if nodes.contains n then nodes else nodes ++ [n]

/-- Enters an edge at both of its ends. -/
def addEdge (g : CallGraph) (e : Edge) : CallGraph :=
  { g with
    callers := g.callers.modify e.callee (addNode · e.caller)
    callees := g.callees.modify e.caller (addNode · e.callee) }

/-- Marks a node as started by a goroutine. -/
def markSpawned (g : CallGraph) (n : Nat) : CallGraph :=
  { g with spawned := g.spawned.setIfInBounds n true }

/-- The function that an instruction starts as a goroutine. -/
def spawnTarget? (i : Instruction) : Option Nat :=
  match i.action with
  | .spawn site => site.target?
  | _ => none

/-- The functions that are started as goroutines somewhere. -/
def spawnTargets (s : Snapshot) : List Nat :=
  s.functions.toList.flatMap fun f => f.body.filterMap spawnTarget?

/-- The call graph of a snapshot. -/
def ofSnapshot (s : Snapshot) : CallGraph :=
  (spawnTargets s).foldl markSpawned (s.edges.foldl addEdge (ofSize s.functions.size))

/-- The callers of a node. -/
def callersOf (g : CallGraph) (n : Nat) : List Nat := g.callers.getD n []

/-- The callees of a node. -/
def calleesOf (g : CallGraph) (n : Nat) : List Nat := g.callees.getD n []

/-- Some goroutine starts with the node. -/
def isSpawned (g : CallGraph) (n : Nat) : Bool := g.spawned.getD n false

end CallGraph
end LockDiscipline
