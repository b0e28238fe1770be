import LockDiscipline.Program.Snapshot

/- Consistency of a snapshot: every id it holds names an entry of its table,
   and no package is listed twice. The duties that a snapshot has to meet form
   one list, and the first that it breaks is the one reported. -/
namespace LockDiscipline

/-- Why a snapshot is inconsistent. `user` names what refers to the entry that
    is missing. -/
inductive Inconsistency where
  | fileWithoutPackage (path : String)
  | varWithoutGlobal (name : String)
  | structWithoutType (name : String)
  | fieldIndexOutOfRange (name : String)
  | globalWithoutPackage (name : String)
  | typeWithoutPackage (name : String)
  | functionWithoutPackage (name : String)
  | missingFile (user : String) (file : Nat)
  | missingGlobal (user : String) (id : Nat)
  | missingFunction (user : String) (node : Nat)
  | missingStruct (user : String) (id : Nat)
  | missingField (user : String) (index : Nat) (owner : String)
  | missingCallee (user : String) (node : Nat)
  | missingEdgeEnd (edge : Edge)
  | repeatedPackage (path : String)
deriving Repr, DecidableEq

def Inconsistency.message : Inconsistency → String
  | .fileWithoutPackage path => "file " ++ path ++ " has no package"
  | .varWithoutGlobal name => "var " ++ name ++ " has no global"
  | .structWithoutType name => "struct " ++ name ++ " has no type"
  | .fieldIndexOutOfRange name => "struct " ++ name ++ " field index out of range"
  | .globalWithoutPackage name => "global " ++ name ++ " has no package"
  | .typeWithoutPackage name => "struct " ++ name ++ " has no package"
  | .functionWithoutPackage name => "function " ++ name ++ " has no package"
  | .missingFile user file => user ++ " refers to missing file " ++ Nat.repr file
  | .missingGlobal user id => user ++ " refers to missing global " ++ Nat.repr id
  | .missingFunction user node => user ++ " refers to missing function " ++ Nat.repr node
  | .missingStruct user id => user ++ " refers to missing struct " ++ Nat.repr id
  | .missingField user index owner =>
    user ++ " refers to missing field " ++ Nat.repr index ++ " of " ++ owner
  | .missingCallee user node => user ++ " calls missing function " ++ Nat.repr node
  | .missingEdgeEnd edge =>
    "edge " ++ Nat.repr edge.caller ++ " -> " ++ Nat.repr edge.callee
      ++ " refers to a missing function"
  | .repeatedPackage path => "package " ++ path ++ " listed twice"

/-- A condition on a snapshot, and what is wrong when it does not hold. -/
structure Duty where
  holds : Bool
  otherwise : Inconsistency

namespace Snapshot

/-- The struct type `id` has a field `index`. -/
def hasField (s : Snapshot) (f : FieldRef) : Bool :=
  match s.structs[f.owner]? with
  | some st => f.index < st.fields.length
  | none => false

/-- The name of a struct type. -/
def structName (s : Snapshot) (id : Nat) : String :=
  match s.structs[id]? with
  | some st => st.name
  | none => ""

/-- The number of fields of a struct type. -/
def fieldCount (s : Snapshot) (id : Nat) : Nat :=
  match s.structs[id]? with
  | some st => st.fields.length
  | none => 0

def positionDuty (s : Snapshot) (user : String) (p : Position) : Duty :=
  ⟨p.file < s.files.size, .missingFile user p.file⟩

def fieldDuties (s : Snapshot) (user : String) (f : FieldRef) : List Duty :=
  [⟨f.owner < s.structs.size, .missingStruct user f.owner⟩,
   ⟨s.hasField f, .missingField user f.index (s.structName f.owner)⟩]

def operandDuties (s : Snapshot) (user : String) : Operand → List Duty
  | .global id => [⟨id < s.globals.size, .missingGlobal user id⟩]
  | .function node => [⟨node < s.functions.size, .missingFunction user node⟩]
  | .field ref => s.fieldDuties user ref
  | .value _ | .const => []

/-- What an action names beside its operands. -/
def actionDuties (s : Snapshot) (user : String) : Action → List Duty
  | .fieldAddr _ field => s.fieldDuties user field
  | .call site | .defer site | .spawn site =>
    match site.callee with
    | .function node => [⟨node < s.functions.size, .missingCallee user node⟩]
    | _ => []
  | _ => []

def instructionDuties (s : Snapshot) (user : String) (i : Instruction) : List Duty :=
  s.positionDuty user i.pos ::
    (i.operands.flatMap (s.operandDuties user) ++ s.actionDuties user i.action)

/-- A field line ends inside the fields of its struct type. -/
def fieldLineDuties (s : Snapshot) (d : StructDecl) (l : FieldLine) : List Duty :=
  [s.positionDuty d.name l.pos,
   ⟨l.stop?.any (· ≤ s.fieldCount d.id), .fieldIndexOutOfRange d.name⟩]

def declarationDuties (s : Snapshot) : Declaration → List Duty
  | .var d => [⟨d.global < s.globals.size, .varWithoutGlobal d.name⟩, s.positionDuty d.name d.pos]
  | .struct d =>
    ⟨d.id < s.structs.size, .structWithoutType d.name⟩ :: d.fields.flatMap (s.fieldLineDuties d)

def fileDuties (s : Snapshot) (f : SourceFile) : List Duty :=
  ⟨f.package < s.packages.size, .fileWithoutPackage f.path⟩ ::
    f.decls.flatMap s.declarationDuties

def globalDuties (s : Snapshot) (g : Global) : List Duty :=
  [⟨g.package < s.packages.size, .globalWithoutPackage g.name⟩, s.positionDuty g.name g.pos]

def structDuties (s : Snapshot) (t : StructType) : List Duty :=
  ⟨t.package < s.packages.size, .typeWithoutPackage t.name⟩ ::
    t.fields.map fun f => s.positionDuty t.name f.pos

def functionDuties (s : Snapshot) (f : Function) : List Duty :=
  ⟨f.package < s.packages.size, .functionWithoutPackage f.name⟩ ::
    f.body.flatMap (s.instructionDuties f.name)

def edgeDuty (s : Snapshot) (e : Edge) : Duty :=
  ⟨e.caller < s.functions.size && e.callee < s.functions.size, .missingEdgeEnd e⟩

/-- Each path differs from those before it, which are `seen`. -/
def distinctDuties (seen : List String) : List Package → List Duty
  | [] => []
  | p :: rest =>
    ⟨!seen.contains p.path, .repeatedPackage p.path⟩ :: distinctDuties (p.path :: seen) rest

/-- All duties of a snapshot, in the order in which they are looked at. -/
def duties (s : Snapshot) : List Duty :=
  s.files.toList.flatMap s.fileDuties
    ++ s.globals.toList.flatMap s.globalDuties
    ++ s.structs.toList.flatMap s.structDuties
    ++ s.functions.toList.flatMap s.functionDuties
    ++ s.edges.map s.edgeDuty
    ++ s.comments.map (fun c => s.positionDuty "comment" c.pos)
    ++ distinctDuties [] s.packages.toList

/-- The first duty that the snapshot breaks. -/
def inconsistency? (s : Snapshot) : Option Inconsistency :=
  (s.duties.find? (!·.holds)).map Duty.otherwise

/-- The first package with errors: its path and its first error. -/
def brokenPackage? (s : Snapshot) : Option (String × String) :=
  s.packages.toList.findSome? fun p => p.errors.head?.map (p.path, ·)

/-- No duty is broken exactly when all of them hold. -/
theorem inconsistency?_eq_none_iff (s : Snapshot) :
    s.inconsistency? = none ↔ ∀ d ∈ s.duties, d.holds = true := by
  simp [inconsistency?]

end Snapshot
end LockDiscipline
