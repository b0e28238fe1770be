import LockDiscipline.Program.Position

/- Instructions. A function body is a list of instructions in block order;
   each has a position, may define a value, and performs one action on its
   operands. -/
namespace LockDiscipline

/-- What an instruction works on. A field operand is the field's address. -/
inductive Operand where
  | global (id : Nat)
  | field (ref : FieldRef)
  | function (node : Nat)
  | value (id : Nat)
  | const
deriving Repr, DecidableEq

/-- What a call invokes: a function of the program, one outside it by its
    short name, or whatever a closure or an interface holds. -/
inductive Callee where
  | function (node : Nat)
  | external (name : String)
  | dynamic
deriving Repr, DecidableEq

/-- A call. The first argument of a method call is its receiver. -/
structure CallSite where
  callee : Callee
  method : Bool
  args : List Operand
deriving Repr, DecidableEq

namespace CallSite

/-- The name of the outside function that is called. -/
def externalName? (call : CallSite) : Option String :=
  match call.callee with
  | .external name => some name
  | _ => none

/-- The receiver of a method call. -/
def receiver? (call : CallSite) : Option Operand :=
  if call.method then call.args.head? else none

/-- The function of the program that is called. -/
def target? (call : CallSite) : Option Nat :=
  match call.callee with
  | .function node => some node
  | _ => none

end CallSite

/-- What an instruction does. -/
inductive Action where
  /-- Takes the address of a field of `base`. -/
  | fieldAddr (base : Operand) (field : FieldRef)
  | call (site : CallSite)
  /-- Puts a call off until the function returns. -/
  | defer (site : CallSite)
  /-- Starts a call as a goroutine. -/
  | spawn (site : CallSite)
  | ret (results : List Operand)
  /-- Reads through or reinterprets `source` and computes nothing new. -/
  | view (source : Operand)
  /-- Anything else, reduced to its operands. -/
  | other (operands : List Operand)
deriving Repr, DecidableEq

namespace Action

/-- The operands of an action. The field of `fieldAddr` is not one of them. -/
def operands : Action → List Operand
  | .fieldAddr base _ => [base]
  | .call site | .defer site | .spawn site => site.args
  | .ret results => results
  | .view source => [source]
  | .other operands => operands

/-- The call that an action makes, puts off or starts. -/
def site? : Action → Option CallSite
  | .call site | .defer site | .spawn site => some site
  | _ => none

end Action

/-- An instruction; `result` is the value that it defines. -/
structure Instruction where
  pos : Position
  result : Option Nat
  action : Action
deriving Repr, DecidableEq

namespace Instruction

/-- The operands of an instruction. -/
def operands (i : Instruction) : List Operand := i.action.operands

/-- Some operand is the variable `g`. -/
def refersTo (i : Instruction) (g : Nat) : Bool :=
  i.operands.contains (.global g)

/-- The call that the instruction makes on the spot. -/
def call? (i : Instruction) : Option CallSite :=
  match i.action with
  | .call site => some site
  | _ => none

end Instruction
end LockDiscipline
