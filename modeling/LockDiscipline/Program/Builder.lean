import LockDiscipline.Program.Basic

/- Building a program in memory. Every operation appends to the tables of a
   snapshot and answers the id of what it added, cut to 32 bits; an operation
   that would have to look up a missing entry is refused. `Program.ofSnapshot`
   then checks the result like any other snapshot. -/
namespace LockDiscipline

/-- A line of a struct body that is to be declared. -/
structure FieldSpec where
  names : List String
  ty : TypeExpr
  line : Nat
deriving Repr, DecidableEq

/-- Why an operation was refused. -/
inductive BuildError where
  /-- It names a file, struct or function that does not exist. -/
  | missingEntry
  /-- The struct has no field of this name. -/
  | noField (name : String)
deriving Repr, DecidableEq

namespace Builder

def addPackage (s : Snapshot) (path : String) : Snapshot × Nat :=
  ({ s with packages := s.packages.push ⟨path, []⟩ }, s.packages.size % idModulus)

def addFile (s : Snapshot) (package : Nat) (path : String) : Snapshot × Nat :=
  ({ s with files := s.files.push ⟨path, package, []⟩ }, s.files.size % idModulus)

def addComment (s : Snapshot) (file line : Nat) (text : String) : Snapshot :=
  { s with comments := s.comments ++ [⟨.ofLine file line, text⟩] }

/-- Appends a declaration to a file. -/
def declare (s : Snapshot) (file : Nat) (d : Declaration) : Snapshot :=
  { s with files := s.files.modify file fun f => { f with decls := f.decls ++ [d] } }

/-- A package-level variable, declared in `file` on `line`. -/
def addGlobal (s : Snapshot) (file : Nat) (name : String) (ty : Option TypeExpr) (line : Nat) :
    Except BuildError (Snapshot × Nat) :=
  match s.files[file]? with
  | none => .error .missingEntry
  | some f =>
    let pos := Position.ofLine file line
    let id := s.globals.size % idModulus
    let s := { s with globals := s.globals.push ⟨name, f.package, pos⟩ }
    .ok (declare s file (.var ⟨name, id, ty, pos⟩), id)

/-- The name of the embedded field of a type; a type without a name gives `_`. -/
def embeddedField (ty : TypeExpr) : String := ty.embeddedName?.getD "_"

/-- The names of the fields that a line declares. -/
def specNames (spec : FieldSpec) : List String :=
  if spec.names.isEmpty then [embeddedField spec.ty] else spec.names

/-- The fields that a line declares. -/
def specFields (file : Nat) (spec : FieldSpec) : List FieldInfo :=
  (specNames spec).map fun name => ⟨name, .ofLine file spec.line⟩

/-- The declaration line of a spec that `first` fields come before. -/
def specLine (file first : Nat) (spec : FieldSpec) : FieldLine :=
  ⟨spec.names, spec.ty, .ofLine file spec.line, first % idModulus⟩

/-- The declaration lines of specs that `first` fields come before. -/
def specLines (file first : Nat) : List FieldSpec → List FieldLine
  | [] => []
  | spec :: specs =>
    specLine file first spec :: specLines file (first + (specFields file spec).length) specs

/-- A struct type, declared in `file`. -/
def addStruct (s : Snapshot) (file : Nat) (name : String) (specs : List FieldSpec) :
    Except BuildError (Snapshot × Nat) :=
  match s.files[file]? with
  | none => .error .missingEntry
  | some f =>
    let id := s.structs.size % idModulus
    let s := { s with
      structs := s.structs.push ⟨name, f.package, specs.flatMap (specFields file)⟩ }
    .ok (declare s file (.struct ⟨name, id, specLines file 0 specs⟩), id)

/-- The first field of a struct with a name. -/
def fieldNamed (s : Snapshot) (owner : Nat) (name : String) : Except BuildError FieldRef :=
  match s.structs[owner]? with
  | none => .error .missingEntry
  | some st =>
    match st.fields.findIdx? (·.name == name) with
    | none => .error (.noField name)
    | some place => .ok ⟨owner, place % idModulus⟩

def addFunction (s : Snapshot) (package : Nat) (name : String) : Snapshot × Nat :=
  ({ s with functions := s.functions.push ⟨name, package, false, []⟩ },
    s.functions.size % idModulus)

/-- A function that is then marked, by its id, as a package initializer. -/
def addInit (s : Snapshot) (package : Nat) (name : String) : Snapshot × Nat :=
  let (s, id) := addFunction s package name
  ({ s with functions := s.functions.modify id fun f => { f with isInit := true } }, id)

/-- Appends an instruction to a body. -/
def addInstruction (s : Snapshot) (node : Nat) (i : Instruction) : Except BuildError Snapshot :=
  if node < s.functions.size then
    .ok { s with functions := s.functions.modify node fun f => { f with body := f.body ++ [i] } }
  else .error .missingEntry

def addEdge (s : Snapshot) (caller callee : Nat) : Snapshot :=
  { s with edges := s.edges ++ [⟨caller, callee⟩] }

/-- The call of a function of the program, without arguments. -/
def plainCall (callee : Nat) : CallSite := ⟨.function callee, false, []⟩

/-- The call of a method from outside the program. -/
def methodCall (name : String) (receiver : Operand) : CallSite := ⟨.external name, true, [receiver]⟩

end Builder

/-- A place in a function body: its node, and the file and line there. -/
structure BodyPlace where
  node : Nat
  file : Nat
  line : Nat
deriving Repr, DecidableEq

/-- An operation of the builder. -/
inductive BuildStep where
  | package (path : String)
  | file (package : Nat) (path : String)
  | comment (file line : Nat) (text : String)
  | global (file : Nat) (name : String) (ty : Option TypeExpr) (line : Nat)
  | struct (file : Nat) (name : String) (specs : List FieldSpec)
  | field (owner : Nat) (name : String)
  | function (package : Nat) (name : String) (isInit : Bool)
  /-- An instruction, which may define a value. -/
  | instruction (place : BodyPlace) (result : Option Nat) (action : Action)
  | edge (caller callee : Nat)
  /-- A call and its edge. -/
  | call (place : BodyPlace) (callee : Nat)
  /-- The start of a goroutine and its edge. -/
  | spawn (place : BodyPlace) (callee : Nat)
deriving Repr, DecidableEq

/-- What an operation answers: the id of what was added, a field, or nothing. -/
inductive BuildAnswer where
  | id (n : Nat)
  | field (ref : FieldRef)
  | done
deriving Repr, DecidableEq

namespace BuildStep

/-- A value read through `source`. -/
def load (place : BodyPlace) (result : Nat) (source : Operand) : BuildStep :=
  .instruction place (some result) (.view source)

/-- A call of a method from outside the program. -/
def method (place : BodyPlace) (name : String) (receiver : Operand) : BuildStep :=
  .instruction place none (.call (Builder.methodCall name receiver))

/-- A deferred call of a method from outside the program. -/
def deferMethod (place : BodyPlace) (name : String) (receiver : Operand) : BuildStep :=
  .instruction place none (.defer (Builder.methodCall name receiver))

/-- A use of an operand. -/
def access (place : BodyPlace) (op : Operand) : BuildStep :=
  .instruction place none (.other [op])

/-- The address of a field. -/
def fieldAddr (place : BodyPlace) (base : Operand) (ref : FieldRef) : BuildStep :=
  .instruction place none (.fieldAddr base ref)

/-- A return. -/
def ret (place : BodyPlace) (results : List Operand) : BuildStep :=
  .instruction place none (.ret results)

open Builder in
/-- The snapshot after an operation, and the answer of the operation. -/
def apply (s : Snapshot) : BuildStep → Except BuildError (Snapshot × BuildAnswer)
  | .package path => let (s, id) := addPackage s path; .ok (s, .id id)
  | .file pkg path => let (s, id) := addFile s pkg path; .ok (s, .id id)
  | .comment fileId line text => .ok (addComment s fileId line text, .done)
  | .global fileId name ty line =>
    (addGlobal s fileId name ty line).map fun (s, id) => (s, .id id)
  | .struct fileId name specs =>
    (addStruct s fileId name specs).map fun (s, id) => (s, .id id)
  | .field owner name => (fieldNamed s owner name).map fun ref => (s, .field ref)
  | .function pkg name isInit =>
    let (s, id) := if isInit then addInit s pkg name else addFunction s pkg name
    .ok (s, .id id)
  | .instruction place result action =>
    (addInstruction s place.node ⟨.ofLine place.file place.line, result, action⟩).map (·, .done)
  | .edge caller callee => .ok (addEdge s caller callee, .done)
  | .call place callee =>
    (addInstruction s place.node
      ⟨.ofLine place.file place.line, none, .call (plainCall callee)⟩).map fun s =>
        (addEdge s place.node callee, .done)
  | .spawn place callee =>
    (addInstruction s place.node
      ⟨.ofLine place.file place.line, none, .spawn (plainCall callee)⟩).map fun s =>
        (addEdge s place.node callee, .done)

/-- The answers of all operations, and the snapshot at the end. An operation
    that is refused changes nothing. -/
def run (s : Snapshot) : List BuildStep → List (Except BuildError BuildAnswer) × Snapshot
  | [] => ([], s)
  | step :: steps =>
    match apply s step with
    | .error e =>
      let (answers, last) := run s steps
      (.error e :: answers, last)
    | .ok (next, answer) =>
      let (answers, last) := run next steps
      (.ok answer :: answers, last)

end BuildStep
end LockDiscipline
