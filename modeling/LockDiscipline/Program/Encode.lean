import LockDiscipline.Json.Printer
import LockDiscipline.Program.Snapshot

/- Snapshots as JSON trees. All fields are written, with one exception: the
   value that an instruction defines is left out when there is none. -/
namespace LockDiscipline

open Json (object ofText ofNat)

/-- An optional part, written as null when it is missing. -/
def Json.ofOption {α : Type} (encode : α → Json) : Option α → Json
  | none => .null
  | some a => encode a

/-- A list of parts. -/
def Json.ofList {α : Type} (encode : α → Json) (xs : List α) : Json := .arr (xs.map encode)

def FieldRef.toJson (f : FieldRef) : Json :=
  object [("owner", ofNat f.owner), ("index", ofNat f.index)]

def Position.toJson (p : Position) : Json :=
  object [("file", ofNat p.file), ("line", ofNat p.line), ("column", ofNat p.column)]

def TypeExpr.toJson : TypeExpr → Json
  | .named package name =>
    object [("named", object [("package", .ofOption ofText package), ("name", ofText name)])]
  | .pointer target => object [("pointer", target.toJson)]
  | .other text => object [("other", ofText text)]

def Operand.toJson : Operand → Json
  | .global id => object [("global", ofNat id)]
  | .field ref => object [("field_addr", ref.toJson)]
  | .function node => object [("function", ofNat node)]
  | .value id => object [("value", ofNat id)]
  | .const => ofText "const"

def Callee.toJson : Callee → Json
  | .function node => object [("function", ofNat node)]
  | .external name => object [("external", ofText name)]
  | .dynamic => ofText "dynamic"

/-- The fields of a call, which stand beside the tag of its instruction. -/
def CallSite.fields (call : CallSite) : List (String × Json) :=
  [("callee", call.callee.toJson), ("method", .bool call.method),
   ("args", .ofList Operand.toJson call.args)]

/-- The tag of an action and its fields. -/
def Action.fields : Action → List (String × Json)
  | .fieldAddr base field =>
    [("op", ofText "field_addr"), ("base", base.toJson), ("field", field.toJson)]
  | .call site => ("op", ofText "call") :: site.fields
  | .defer site => ("op", ofText "defer") :: site.fields
  | .spawn site => ("op", ofText "go") :: site.fields
  | .ret results => [("op", ofText "return"), ("results", .ofList Operand.toJson results)]
  | .view source => [("op", ofText "alias"), ("source", source.toJson)]
  | .other operands => [("op", ofText "other"), ("operands", .ofList Operand.toJson operands)]

def Instruction.toJson (i : Instruction) : Json :=
  object (("pos", i.pos.toJson) ::
    ((i.result.map fun v => ("def", ofNat v)).toList ++ i.action.fields))

def Package.toJson (p : Package) : Json :=
  object [("path", ofText p.path), ("errors", .ofList ofText p.errors)]

def FieldLine.toJson (l : FieldLine) : Json :=
  object [("names", .ofList ofText l.names), ("ty", l.ty.toJson), ("pos", l.pos.toJson),
    ("first_index", ofNat l.firstIndex)]

def Declaration.toJson : Declaration → Json
  | .var d =>
    object [("decl", ofText "var"), ("name", ofText d.name), ("global", ofNat d.global),
      ("ty", .ofOption TypeExpr.toJson d.ty), ("pos", d.pos.toJson)]
  | .struct d =>
    object [("decl", ofText "struct"), ("name", ofText d.name), ("id", ofNat d.id),
      ("fields", .ofList FieldLine.toJson d.fields)]

def SourceFile.toJson (f : SourceFile) : Json :=
  object [("path", ofText f.path), ("package", ofNat f.package),
    ("decls", .ofList Declaration.toJson f.decls)]

def Global.toJson (g : Global) : Json :=
  object [("name", ofText g.name), ("package", ofNat g.package), ("pos", g.pos.toJson)]

def FieldInfo.toJson (f : FieldInfo) : Json :=
  object [("name", ofText f.name), ("pos", f.pos.toJson)]

def StructType.toJson (s : StructType) : Json :=
  object [("name", ofText s.name), ("package", ofNat s.package),
    ("fields", .ofList FieldInfo.toJson s.fields)]

def Function.toJson (f : Function) : Json :=
  object [("name", ofText f.name), ("package", ofNat f.package), ("init", .bool f.isInit),
    ("body", .ofList Instruction.toJson f.body)]

def Edge.toJson (e : Edge) : Json :=
  object [("caller", ofNat e.caller), ("callee", ofNat e.callee)]

def Comment.toJson (c : Comment) : Json :=
  object [("pos", c.pos.toJson), ("text", ofText c.text)]

/-- The JSON tree of a snapshot. -/
def Snapshot.toJson (s : Snapshot) : Json :=
  object [("module", .ofOption ofText s.modulePath),
    ("build_flags", .ofList ofText s.buildFlags),
    ("packages", .ofList Package.toJson s.packages.toList),
    ("files", .ofList SourceFile.toJson s.files.toList),
    ("globals", .ofList Global.toJson s.globals.toList),
    ("structs", .ofList StructType.toJson s.structs.toList),
    ("functions", .ofList Function.toJson s.functions.toList),
    ("edges", .ofList Edge.toJson s.edges),
    ("comments", .ofList Comment.toJson s.comments)]

/-- The JSON text of a snapshot. -/
def Snapshot.toText (s : Snapshot) : String := s.toJson.render

end LockDiscipline
