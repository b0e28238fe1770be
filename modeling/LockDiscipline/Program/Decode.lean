import LockDiscipline.Json.Parser
import LockDiscipline.Json.Record
import LockDiscipline.Program.Snapshot

/- Snapshots out of JSON trees. Every decoder takes the room, the number of
   container levels that may still be opened.

   Instructions and declarations are told apart by a tag that may stand behind
   their other members, so those members are held until the tag is known and
   have to `fit`. In all other records unknown members are skipped unseen. -/
namespace LockDiscipline

open Json (Quoted)

def FieldRef.ofJson? (room : Nat) (j : Json) : Option FieldRef := do
  let (_, fields) ← j.record? room ["owner", "index"]
  return {
    owner := ← fields.required? "owner" Json.toWord?
    index := ← fields.required? "index" Json.toWord? }

def Position.ofJson? (room : Nat) (j : Json) : Option Position := do
  let (_, fields) ← j.record? room ["file", "line", "column"]
  return {
    file := ← fields.required? "file" Json.toWord?
    line := ← fields.required? "line" Json.toWord?
    column := ← fields.withDefault? "column" 0 Json.toWord? }

/-- A type is an object with one key, which says what kind of type it is. -/
def TypeExpr.ofJson? : Nat → Json → Option TypeExpr
  | room + 1, .obj [(.text tag, body)] =>
    match tag with
    | "named" => do
      let (_, fields) ← body.record? room ["package", "name"]
      let package ← fields.optional? "package" Json.toText?
      return .named package (← fields.required? "name" Json.toText?)
    | "pointer" => return .pointer (← ofJson? room body)
    | "other" => return .other (← body.toText?)
    | _ => none
  | _, _ => none

/-- What may stand beside a name that takes no argument. -/
def Json.isUnit : Json → Bool
  | .null => true
  | .obj [] => true
  | _ => false

def Operand.ofJson? (room : Nat) : Json → Option Operand
  | .str (.text "const") => some .const
  | .obj [(.text tag, body)] =>
    match room, tag with
    | _ + 1, "global" => return .global (← body.toWord?)
    | inner + 1, "field_addr" => return .field (← FieldRef.ofJson? inner body)
    | _ + 1, "function" => return .function (← body.toWord?)
    | _ + 1, "value" => return .value (← body.toWord?)
    | _ + 1, "const" => if body.isUnit then some .const else none
    | _, _ => none
  | _ => none

def Callee.ofJson? (room : Nat) : Json → Option Callee
  | .str (.text "dynamic") => some .dynamic
  | .obj [(.text tag, body)] =>
    match room, tag with
    | _ + 1, "function" => return .function (← body.toWord?)
    | _ + 1, "external" => return .external (← body.toText?)
    | _ + 1, "dynamic" => if body.isUnit then some .dynamic else none
    | _, _ => none
  | _ => none

/-- The call beside a tag. -/
def CallSite.ofMembers? (room : Nat) (members : List (Quoted × Json)) : Option CallSite := do
  let fields ← Json.knownMembers? ["callee", "method", "args"] members
  return {
    callee := ← fields.required? "callee" (Callee.ofJson? room)
    method := ← fields.withDefault? "method" false Json.toBool?
    args := ← fields.withDefault? "args" [] (·.list? room Operand.ofJson?) }

/-- The tags of actions. An action is named by its tag or by the tag's place in
    this list. -/
def Action.tags : List String :=
  ["field_addr", "call", "defer", "go", "return", "alias", "other"]

/-- The tag that a tree names. -/
def Action.tag? : Json → Option String
  | .str (.text tag) => some tag
  | .num n => n.toNat?.bind fun i => tags[i]?
  | _ => none

/-- The action whose tag and fields are among `members`. -/
def Action.ofMembers? (room : Nat) (members : List (Quoted × Json)) : Option Action := do
  let tagged ← Json.knownMembers? ["op"] members
  match ← tagged.required? "op" Action.tag? with
  | "field_addr" =>
    let fields ← Json.knownMembers? ["base", "field"] members
    let base ← fields.required? "base" (Operand.ofJson? room)
    return .fieldAddr base (← fields.required? "field" (FieldRef.ofJson? room))
  | "call" => return .call (← CallSite.ofMembers? room members)
  | "defer" => return .defer (← CallSite.ofMembers? room members)
  | "go" => return .spawn (← CallSite.ofMembers? room members)
  | "return" =>
    let fields ← Json.knownMembers? ["results"] members
    return .ret (← fields.withDefault? "results" [] (·.list? room Operand.ofJson?))
  | "alias" =>
    let fields ← Json.knownMembers? ["source"] members
    return .view (← fields.required? "source" (Operand.ofJson? room))
  | "other" =>
    let fields ← Json.knownMembers? ["operands"] members
    return .other (← fields.withDefault? "operands" [] (·.list? room Operand.ofJson?))
  | _ => none

/-- The members of an object whose keys are not among `names`. -/
def Json.otherMembers (names : List String) (members : List (Quoted × Json)) :
    List (Quoted × Json) :=
  members.filter fun m =>
    match m.1 with
    | .text key => !names.contains key
    | .unpaired => true

/-- An instruction is an object. All its members but the position and the
    defined value are held. -/
def Instruction.ofJson? (room : Nat) : Json → Option Instruction
  | .obj members =>
    match room with
    | 0 => none
    | inner + 1 => do
      let fields ← Json.knownMembers? ["pos", "def"] members
      let held := Json.otherMembers ["pos", "def"] members
      guard (Json.membersFit inner held)
      return {
        pos := ← fields.required? "pos" (Position.ofJson? inner)
        result := ← fields.optional? "def" Json.toWord?
        action := ← Action.ofMembers? inner held }
  | _ => none

def FieldLine.ofJson? (room : Nat) (j : Json) : Option FieldLine := do
  let (inner, fields) ← j.record? room ["names", "ty", "pos", "first_index"]
  return {
    names := ← fields.withDefault? "names" [] (Json.texts? inner)
    ty := ← fields.required? "ty" (TypeExpr.ofJson? inner)
    pos := ← fields.required? "pos" (Position.ofJson? inner)
    firstIndex := ← fields.required? "first_index" Json.toWord? }

def VarDecl.ofFields? (room : Nat) (fields : Json.Fields) : Option VarDecl := do
  return {
    name := ← fields.required? "name" Json.toText?
    global := ← fields.required? "global" Json.toWord?
    ty := ← fields.optional? "ty" (TypeExpr.ofJson? room)
    pos := ← fields.required? "pos" (Position.ofJson? room) }

def StructDecl.ofFields? (room : Nat) (fields : Json.Fields) : Option StructDecl := do
  return {
    name := ← fields.required? "name" Json.toText?
    id := ← fields.required? "id" Json.toWord?
    fields := ← fields.withDefault? "fields" [] (·.list? room FieldLine.ofJson?) }

/-- The declaration named by `tag`, whose fields are those of `body`. -/
def Declaration.ofTagged? (room : Nat) (tag : String) (body : Json) : Option Declaration :=
  match tag with
  | "var" => do
    return .var (← VarDecl.ofFields? room (← body.fields? ["name", "global", "ty", "pos"]))
  | "struct" => do
    return .struct (← StructDecl.ofFields? room (← body.fields? ["name", "id", "fields"]))
  | _ => none

/-- A declaration is an object with its tag among the members, or an array
    that starts with its tag. -/
def Declaration.ofJson? (room : Nat) (j : Json) : Option Declaration :=
  match room, j with
  | inner + 1, .obj members => do
    let tagged ← Json.knownMembers? ["decl"] members
    let held := Json.otherMembers ["decl"] members
    guard (Json.membersFit inner held)
    ofTagged? inner (← tagged.required? "decl" Json.toText?) (.obj held)
  | inner + 1, .arr (.str (.text tag) :: held) => do
    guard (Json.itemsFit inner held)
    ofTagged? inner tag (.arr held)
  | _, _ => none

def Package.ofJson? (room : Nat) (j : Json) : Option Package := do
  let (inner, fields) ← j.record? room ["path", "errors"]
  return {
    path := ← fields.required? "path" Json.toText?
    errors := ← fields.withDefault? "errors" [] (Json.texts? inner) }

def SourceFile.ofJson? (room : Nat) (j : Json) : Option SourceFile := do
  let (inner, fields) ← j.record? room ["path", "package", "decls"]
  return {
    path := ← fields.required? "path" Json.toText?
    package := ← fields.required? "package" Json.toWord?
    decls := ← fields.withDefault? "decls" [] (·.list? inner Declaration.ofJson?) }

def Global.ofJson? (room : Nat) (j : Json) : Option Global := do
  let (inner, fields) ← j.record? room ["name", "package", "pos"]
  return {
    name := ← fields.required? "name" Json.toText?
    package := ← fields.required? "package" Json.toWord?
    pos := ← fields.required? "pos" (Position.ofJson? inner) }

def FieldInfo.ofJson? (room : Nat) (j : Json) : Option FieldInfo := do
  let (inner, fields) ← j.record? room ["name", "pos"]
  return {
    name := ← fields.required? "name" Json.toText?
    pos := ← fields.required? "pos" (Position.ofJson? inner) }

def StructType.ofJson? (room : Nat) (j : Json) : Option StructType := do
  let (inner, fields) ← j.record? room ["name", "package", "fields"]
  return {
    name := ← fields.required? "name" Json.toText?
    package := ← fields.required? "package" Json.toWord?
    fields := ← fields.withDefault? "fields" [] (·.list? inner FieldInfo.ofJson?) }

def Function.ofJson? (room : Nat) (j : Json) : Option Function := do
  let (inner, fields) ← j.record? room ["name", "package", "init", "body"]
  return {
    name := ← fields.required? "name" Json.toText?
    package := ← fields.required? "package" Json.toWord?
    isInit := ← fields.withDefault? "init" false Json.toBool?
    body := ← fields.withDefault? "body" [] (·.list? inner Instruction.ofJson?) }

def Edge.ofJson? (room : Nat) (j : Json) : Option Edge := do
  let (_, fields) ← j.record? room ["caller", "callee"]
  return {
    caller := ← fields.required? "caller" Json.toWord?
    callee := ← fields.required? "callee" Json.toWord? }

def Comment.ofJson? (room : Nat) (j : Json) : Option Comment := do
  let (inner, fields) ← j.record? room ["pos", "text"]
  return {
    pos := ← fields.required? "pos" (Position.ofJson? inner)
    text := ← fields.required? "text" Json.toText? }

/-- A table of a snapshot; one that is missing is empty. -/
def Json.Fields.table? {α : Type} (fields : Json.Fields) (room : Nat) (name : String)
    (decode : Nat → Json → Option α) : Option (Array α) :=
  (fields.withDefault? name [] (·.list? room decode)).map List.toArray

def Snapshot.ofJson? (room : Nat) (j : Json) : Option Snapshot := do
  let (inner, fields) ← j.record? room
    ["module", "build_flags", "packages", "files", "globals", "structs", "functions", "edges",
     "comments"]
  return {
    modulePath := ← fields.optional? "module" Json.toText?
    buildFlags := ← fields.withDefault? "build_flags" [] (Json.texts? inner)
    packages := ← fields.table? inner "packages" Package.ofJson?
    files := ← fields.table? inner "files" SourceFile.ofJson?
    globals := ← fields.table? inner "globals" Global.ofJson?
    structs := ← fields.table? inner "structs" StructType.ofJson?
    functions := ← fields.table? inner "functions" Function.ofJson?
    edges := ← fields.withDefault? "edges" [] (·.list? inner Edge.ofJson?)
    comments := ← fields.withDefault? "comments" [] (·.list? inner Comment.ofJson?) }

/-- The snapshot that a JSON text holds. -/
def Snapshot.ofText? (text : String) : Option Snapshot := do
  Snapshot.ofJson? Json.nestingLimit (← Json.parse? text)

end LockDiscipline
