import LockDiscipline.Program.CallGraph
import LockDiscipline.Program.Consistency

/- Accepted programs. A program is a snapshot that passed the checks, its call
   graph, and the module that annotations are taken from. -/
namespace LockDiscipline

/-- Why there is no program to work on. -/
inductive LoadError where
  /-- The snapshot file cannot be read. -/
  | unreadable (path : String)
  /-- The snapshot file holds no snapshot. -/
  | malformed (path : String)
  /-- The front end reported errors for a package. -/
  | brokenPackage (path message : String)
  | inconsistent (cause : Inconsistency)
deriving Repr, DecidableEq

namespace LoadError

def message : LoadError → String
  | .unreadable path => "failed to read program snapshot " ++ path
  | .malformed path => "failed to parse program snapshot " ++ path
  | .brokenPackage path message => "package " ++ path ++ " failed to load: " ++ message
  | .inconsistent cause => "program snapshot is inconsistent: " ++ cause.message

/-- The diagnostic code of an error. -/
def code : LoadError → String
  | .unreadable _ => "mutex_check::model::io"
  | .malformed _ => "mutex_check::model::parse"
  | .brokenPackage _ _ => "mutex_check::model::package"
  | .inconsistent _ => "mutex_check::model::inconsistent"

end LoadError

/-- What keeps a snapshot from being a program: a package with errors before
    anything else, then the first inconsistency. -/
def Snapshot.fault? (s : Snapshot) : Option LoadError :=
  match s.brokenPackage? with
  | some (path, message) => some (.brokenPackage path message)
  | none => s.inconsistency?.map .inconsistent

/-- An accepted program. `scope` is the module whose packages are scanned for
    annotations; without it all packages are. -/
structure Program where
  snapshot : Snapshot
  sound : snapshot.fault? = none
  graph : CallGraph
  graph_eq : graph = CallGraph.ofSnapshot snapshot
  scope : Option String

namespace Program

/-- Accepts a snapshot, with all its packages in scope. -/
def ofSnapshot (s : Snapshot) : Except LoadError Program :=
  match h : s.fault? with
  | some e => .error e
  | none => .ok ⟨s, h, CallGraph.ofSnapshot s, rfl, none⟩

/-- Only packages whose path starts with `modulePath` stay in scope. -/
def restrictTo (p : Program) (modulePath : String) : Program :=
  { p with scope := some modulePath }

/-- The package is scanned for annotations. -/
def inScope (p : Program) (id : Nat) : Bool :=
  match p.snapshot.packages[id]? with
  | none => false
  | some pkg =>
    match p.scope with
    | none => true
    | some modulePath => modulePath.toList.isPrefixOf pkg.path.toList

/-- All nodes of the call graph. -/
def nodes (p : Program) : List Nat := List.range p.snapshot.functions.size

/-- The program has a function `n`. -/
def hasNode (p : Program) (n : Nat) : Bool := n < p.snapshot.functions.size

/-- The program has a file `f`. -/
def hasFile (p : Program) (f : Nat) : Bool := f < p.snapshot.files.size

/-- The body of a function. -/
def body (p : Program) (n : Nat) : List Instruction :=
  match p.snapshot.functions[n]? with
  | some f => f.body
  | none => []

/-- The name of a function. -/
def nodeName (p : Program) (n : Nat) : String :=
  match p.snapshot.functions[n]? with
  | some f => f.name
  | none => ""

/-- The package of a function. -/
def nodePackage? (p : Program) (n : Nat) : Option Nat :=
  p.snapshot.functions[n]?.map Function.package

/-- The function is a package initializer. -/
def isInit (p : Program) (n : Nat) : Bool :=
  match p.snapshot.functions[n]? with
  | some f => f.isInit
  | none => false

/-- The path of a file. -/
def filePath (p : Program) (f : Nat) : String :=
  match p.snapshot.files[f]? with
  | some file => file.path
  | none => ""

/-- A position as it is printed: path, colon, line. -/
def showPosition (p : Program) (pos : Position) : String :=
  p.filePath pos.file ++ ":" ++ Nat.repr pos.line

theorem ofSnapshot_eq_ok {s : Snapshot} {p : Program} (h : ofSnapshot s = .ok p) :
    p.snapshot = s ∧ p.scope = none := by
  unfold ofSnapshot at h
  split at h
  · cases h
  · cases h
    exact ⟨rfl, rfl⟩

end Program
end LockDiscipline
