import LockDiscipline.Guard.LockNote
import LockDiscipline.Guard.Discipline
import LockDiscipline.Guard.Map
import LockDiscipline.Program.Comments

/- Resolution of annotations. The lock declarations of the packages in scope
   are read in file order; each name of an annotation is looked up where the
   lock is declared, and the locations found get the lock as their guard. -/
namespace LockDiscipline

/-- What is wrong with the annotation of the lock declared at `pos`. -/
inductive Warning where
  | missingNote (pos : Position)
  | unresolvedName (pos : Position) (name : String)
deriving Repr, DecidableEq

def Warning.pos : Warning → Position
  | .missingNote pos => pos
  | .unresolvedName pos _ => pos

/-- The declaration of a lock, and what names stand for in its annotation. -/
structure LockDecl where
  guard : Guard
  resolve? : String → Option Location

namespace Program

/-- The variable that `name` stands for in a package: the first declaration of
    that name in its files. -/
def packageVar? (p : Program) (package : Nat) (name : String) : Option Nat :=
  ((p.snapshot.files.toList.filter (·.package == package)).flatMap SourceFile.decls).findSome?
    fun
    | .var d => if d.name == name then some d.global else none
    | .struct _ => none

/-- The files whose packages are in scope. -/
def filesInScope (p : Program) : List SourceFile :=
  p.snapshot.files.toList.filter fun f => p.inScope f.package

end Program

/-- The field that `name` stands for in a struct declaration. -/
def StructDecl.fieldNamed? (d : StructDecl) (name : String) : Option FieldRef :=
  d.fields.findSome? fun line => (line.indexOf? name).map fun index => ⟨d.id, index⟩

/-- The lock that a variable declaration declares. -/
def VarDecl.lockDecl? (p : Program) (package : Nat) (d : VarDecl) : Option LockDecl :=
  (d.ty.bind TypeExpr.lockKind?).map fun kind =>
    { guard := ⟨.global d.global, kind, d.pos⟩
      resolve? := fun name => (p.packageVar? package name).map .global }

/-- The lock that a line of a struct declares. A line with several names has
    one comment, which goes with the first of them. -/
def StructDecl.lockDecl? (d : StructDecl) (line : FieldLine) : Option LockDecl :=
  line.ty.lockKind?.map fun kind =>
    { guard := ⟨.field ⟨d.id, line.firstIndex⟩, kind, line.pos⟩
      resolve? := fun name => (d.fieldNamed? name).map .field }

namespace Discipline

/-- The locks of the discipline that a declaration declares. -/
def lockDeclsOf (d : Discipline) (p : Program) (package : Nat) : Declaration → List LockDecl
  | .var decl =>
    match d with
    | .globals => (decl.lockDecl? p package).toList
    | .fields => []
  | .struct decl =>
    match d with
    | .globals => []
    | .fields => decl.fields.filterMap decl.lockDecl?

/-- The lock declarations of a program in the order in which they are read. -/
def lockDecls (d : Discipline) (p : Program) : List LockDecl :=
  p.filesInScope.flatMap fun f => f.decls.flatMap (d.lockDeclsOf p f.package)

end Discipline

/-- Protected locations, and warnings in the order in which they arose. -/
structure Resolution where
  guards : GuardMap
  warnings : List Warning

namespace Resolution

/-- Nothing is resolved yet. -/
def empty : Resolution := ⟨.empty, []⟩

/-- Binds names until one does not resolve; bindings made before it stay. -/
def bindNames (decl : LockDecl) (r : Resolution) : List String → Resolution
  | [] => r
  | name :: names =>
    match decl.resolve? name with
    | none => { r with warnings := r.warnings ++ [.unresolvedName decl.guard.pos name] }
    | some l => bindNames decl { r with guards := r.guards.insert l decl.guard } names

/-- Adds what the annotation of a lock says. -/
def bind (comments : CommentIndex) (r : Resolution) (decl : LockDecl) : Resolution :=
  match LockNote.parse (comments.textAt decl.guard.pos) with
  | .missing => { r with warnings := r.warnings ++ [.missingNote decl.guard.pos] }
  | .optOut => r
  | .names names => bindNames decl r names

end Resolution

/-- All annotations of a discipline, resolved. The comments are indexed once. -/
def Discipline.resolve (d : Discipline) (p : Program) : Resolution :=
  (d.lockDecls p).foldl (Resolution.bind p.commentIndex) .empty

end LockDiscipline
