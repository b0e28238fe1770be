import LockDiscipline.Program.Instruction

/- Where a value comes from. `roots` follows an operand back through the
   instructions that define values: a `view` leads to its source, a field
   address to the field and to the roots of its base. Operands that are no
   values are their own roots; a value without a definition has none.

   The search keeps a stack of operands, latest first. Each value is opened
   once, so every source of the body is pushed at most once, and
   `1 + 2 * body.length` steps empty the stack. -/
namespace LockDiscipline.Derivation

/-- What value `v` is read from in instruction `i`, if `i` defines it. -/
def sources (v : Nat) (i : Instruction) : List Operand :=
  if i.result = some v then
    match i.action with
    | .fieldAddr base field => [.field field, base]
    | .view source => [source]
    | _ => []
  else []

/-- The search: roots found so far, values already opened, operands to visit. -/
structure Search where
  roots : List Operand
  opened : List Nat
  stack : List Operand

/-- Visits `op`, the operand just taken off the stack. -/
def visit (body : List Instruction) (s : Search) (op : Operand) : Search :=
  match op with
  | .value v =>
    if s.opened.contains v then s
    else
      { s with
        opened := v :: s.opened
        stack := (body.flatMap (sources v)).reverse ++ s.stack }
  | root => if s.roots.contains root then s else { s with roots := s.roots ++ [root] }

/-- Visits operands until none is left or `fuel` runs out. -/
def run (body : List Instruction) : Nat → Search → Search
  | 0, s => s
  | fuel + 1, s =>
    match s.stack with
    | [] => s
    | op :: stack => run body fuel (visit body { s with stack := stack } op)

/-- Enough steps to empty the stack from any one operand. -/
def stepBound (body : List Instruction) : Nat := 1 + 2 * body.length

/-- The operands that `op` is derived from in `body`, each once, in the order
    in which the search finds them. -/
def roots (body : List Instruction) (op : Operand) : List Operand :=
  (run body (stepBound body) ⟨[], [], [op]⟩).roots

end LockDiscipline.Derivation
