/- The walk up the callers. From a function that uses a location without its
   lock, the walk follows callers depth first and looks for a chain on which
   nobody takes the lock. A caller that *shields* the call below it ends its
   branch. A chain is found when it reaches a node that is exposed, a node
   without callers, or a node that it has passed before. A node that the walk
   has seen on another chain is not walked again.

   The walk is told about the graph by a `Terrain` and knows nothing else.
   Every node is opened at most once, so `popBound` steps are enough. -/
namespace LockDiscipline

/-- A chain of nodes, each called by the next. `looped` says that the last node
    occurs earlier. -/
structure CallPath where
  nodes : List Nat
  looped : Bool
deriving Repr, DecidableEq

/-- What the walk asks about the call graph. -/
structure Terrain where
  callers : Nat → List Nat
  /-- Reaching this node means that nobody above it is trusted. -/
  exposed : Nat → Bool
  /-- `shields caller callee`: the caller holds the lock across the call. -/
  shields : Nat → Nat → Bool

/-- A walk under way: nodes seen so far, and the nodes still to be looked at,
    next one first, each with the chain below it, nearest node first. -/
structure Walk where
  seen : List Nat
  stack : List (Nat × List Nat)

/-- How a walk ends; a walk that was cut short is unfinished. -/
inductive WalkResult where
  | found (path : CallPath)
  | exhausted
  | unfinished
deriving Repr, DecidableEq

namespace Walk

/-- The walk about to look at `start`. -/
def ofStart (start : Nat) : Walk := ⟨[], [(start, [])]⟩

/-- The caller shields the chain below it. -/
def isShielded (t : Terrain) (node : Nat) : List Nat → Bool
  | [] => false
  | callee :: _ => t.shields node callee

/-- Looks at `node` on top of `chain`: a complete chain, or the walk that goes
    on. `w` is the walk without this entry. -/
def visit (t : Terrain) (w : Walk) (node : Nat) (chain : List Nat) : CallPath ⊕ Walk :=
  let looped := chain.contains node
  if w.seen.contains node && !looped then .inr w
  else
    let w := { w with seen := if w.seen.contains node then w.seen else node :: w.seen }
    if isShielded t node chain then .inr w
    else if t.exposed node || (t.callers node).isEmpty || looped then
      .inl ⟨(node :: chain).reverse, looped⟩
    else
      .inr { w with stack := (t.callers node).map (·, node :: chain) ++ w.stack }

/-- Walks until a chain is found, nothing is left, or `fuel` runs out. -/
def run (t : Terrain) : Nat → Walk → WalkResult
  | fuel, w =>
    match w.stack with
    | [] => .exhausted
    | (node, chain) :: stack =>
      match fuel with
      | 0 => .unfinished
      | fuel + 1 =>
        match visit t { w with stack := stack } node chain with
        | .inl path => .found path
        | .inr w => run t fuel w

/-- Enough steps for a graph with the nodes below `size`. -/
def popBound (t : Terrain) (size : Nat) : Nat :=
  1 + ((List.range size).map fun n => (t.callers n).length).foldr (· + ·) 0

/-- The first chain from `start` that nobody shields. -/
def find? (t : Terrain) (size start : Nat) : Option CallPath :=
  match run t (popBound t size) (ofStart start) with
  | .found path => some path
  | _ => none

end Walk
end LockDiscipline
