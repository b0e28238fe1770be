/- Ids and source positions. Packages, files, functions, package-level variables
   and struct types are kept in tables; their ids are indices into these
   tables. They are natural numbers here, but those that are made have 32 bits.
   A function is also a node of the call graph, and its id is called a node. -/
namespace LockDiscipline

/-- Ids and indices are counted modulo 2^32. -/
def idModulus : Nat := 4294967296

/-- The sum of two indices, unless it is too large for one. -/
def addIndices? (a b : Nat) : Option Nat := if a + b < idModulus then some (a + b) else none

/-- A struct field: the struct that owns it and its index there. -/
structure FieldRef where
  owner : Nat
  index : Nat
deriving Repr, DecidableEq

/-- A source position. Line 0 means that the place is not known. -/
structure Position where
  file : Nat
  line : Nat
  column : Nat
deriving Repr, DecidableEq

namespace Position

/-- The start of a line. -/
def ofLine (file : Nat) (line : Nat) : Position := ⟨file, line, 0⟩

/-- The place is known. -/
def isKnown (p : Position) : Bool := p.line != 0

/-- The two positions are on one line of one file. -/
def sameLine (p q : Position) : Bool := p.file == q.file && p.line == q.line

end Position
end LockDiscipline
