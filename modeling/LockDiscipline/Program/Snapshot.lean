import LockDiscipline.Program.Instruction
import LockDiscipline.Program.TypeExpr

/- The snapshot of a program, as a front end writes it: tables of packages,
   files, variables, struct types and functions, the edges of the call graph,
   and the comments. Ids are indices into the tables; nothing here says that
   they are in range. -/
namespace LockDiscipline

/-- A package. Any error makes the whole snapshot unusable. -/
structure Package where
  path : String
  errors : List String
deriving Repr, DecidableEq

/-- The declaration of one package-level variable. -/
structure VarDecl where
  name : String
  global : Nat
  ty : Option TypeExpr
  pos : Position
deriving Repr, DecidableEq

/-- A line of a struct body: the fields `names`, or one embedded field if there
    are none. `firstIndex` is the index of the first field of the line. -/
structure FieldLine where
  names : List String
  ty : TypeExpr
  pos : Position
  firstIndex : Nat
deriving Repr, DecidableEq

namespace FieldLine

/-- The line embeds a type. -/
def isEmbedded (l : FieldLine) : Bool := l.names.isEmpty

/-- How many fields the line declares. -/
def size (l : FieldLine) : Nat := max l.names.length 1

/-- The index behind the last field of the line. The number of fields is cut to
    32 bits, and an index that is larger is none. -/
def stop? (l : FieldLine) : Option Nat := addIndices? l.firstIndex (l.size % idModulus)

/-- The index of the field that `name` addresses on this line. -/
def indexOf? (l : FieldLine) (name : String) : Option Nat :=
  if l.isEmbedded then
    if l.ty.embeddedName? = some name then some l.firstIndex else none
  else
    (l.names.findIdx? (· == name)).map fun i => (l.firstIndex + i) % idModulus

end FieldLine

/-- The declaration of a struct type. -/
structure StructDecl where
  name : String
  id : Nat
  fields : List FieldLine
deriving Repr, DecidableEq

/-- A declaration at the top level of a file. -/
inductive Declaration where
  | var (decl : VarDecl)
  | struct (decl : StructDecl)
deriving Repr, DecidableEq

/-- A source file. -/
structure SourceFile where
  path : String
  package : Nat
  decls : List Declaration
deriving Repr, DecidableEq

/-- A package-level variable. -/
structure Global where
  name : String
  package : Nat
  pos : Position
deriving Repr, DecidableEq

/-- A field of a struct type. -/
structure FieldInfo where
  name : String
  pos : Position
deriving Repr, DecidableEq

/-- A struct type. -/
structure StructType where
  name : String
  package : Nat
  fields : List FieldInfo
deriving Repr, DecidableEq

/-- A function. The body of a function outside the program is empty, and
    package initializers are not analysed. -/
structure Function where
  name : String
  package : Nat
  isInit : Bool
  body : List Instruction
deriving Repr, DecidableEq

/-- A call edge. -/
structure Edge where
  caller : Nat
  callee : Nat
deriving Repr, DecidableEq

/-- A comment. -/
structure Comment where
  pos : Position
  text : String
deriving Repr, DecidableEq

/-- A program as a front end writes it. -/
structure Snapshot where
  modulePath : Option String
  buildFlags : List String
  packages : Array Package
  files : Array SourceFile
  globals : Array Global
  structs : Array StructType
  functions : Array Function
  edges : List Edge
  comments : List Comment
deriving Repr, DecidableEq

/-- The program without any part. -/
def Snapshot.empty : Snapshot := ⟨none, [], #[], #[], #[], #[], #[], [], []⟩

end LockDiscipline
