/- Declared types, in as much detail as it takes to recognise a lock and to
   name an embedded field. -/
namespace LockDiscipline

/-- Exclusive locks and locks that also admit readers. -/
inductive LockKind where
  | exclusive
  | readWrite
deriving Repr, DecidableEq

/-- A type as declared: a name with an optional package qualifier, a pointer,
    or any other type as text. -/
inductive TypeExpr where
  | named (package : Option String) (name : String)
  | pointer (target : TypeExpr)
  | other (text : String)
deriving Repr, DecidableEq

namespace TypeExpr

/-- The lock that the type is, behind any number of pointers. -/
def lockKind? : TypeExpr → Option LockKind
  | .pointer target => target.lockKind?
  | .named (some "sync") "Mutex" => some .exclusive
  | .named (some "sync") "RWMutex" => some .readWrite
  | _ => none

/-- The name by which an embedded field of the type is addressed. -/
def embeddedName? : TypeExpr → Option String
  | .pointer target => target.embeddedName?
  | .named _ name => some name
  | .other _ => none

end TypeExpr
end LockDiscipline
