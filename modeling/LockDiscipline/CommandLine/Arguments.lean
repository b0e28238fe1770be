import LockDiscipline.Guard.Discipline
import LockDiscipline.Storage.Path
import LockDiscipline.Text.Lines

/- The arguments of the command line. They are read from left to right, and the
   first fault or request for the version or for help ends the reading. -/
namespace LockDiscipline

/-- What a check is asked to do. -/
structure Request where
  /-- The root folder; without it, the working directory. -/
  path : Option Path
  snapshot : Option Path
  buildFlags : List String
  disciplines : List Discipline
  showPaths : Bool
  /-- Locations are to be verified one after the other. This is always so. -/
  sequential : Bool
deriving Repr, DecidableEq

/-- A kind of argument that takes a value. -/
inductive Setting where
  | path
  | snapshot
  | buildFlag
  | discipline
deriving Repr, DecidableEq

/-- A kind of argument that takes none. -/
inductive Switch where
  | showPaths
  | sequential
  | version
  | help
deriving Repr, DecidableEq

/-- What the arguments ask for. -/
inductive Command where
  | check (request : Request)
  | version
  | help
deriving Repr, DecidableEq

namespace Request

/-- Nothing is asked for in particular. -/
def plain : Request := ⟨none, none, [], [], false, false⟩

/-- The root folder. -/
def root (r : Request) : Path := r.path.getD ⟨"."⟩

end Request

/-- One argument, by itself. -/
inductive Argument where
  /-- A setting, with its value if it is attached. -/
  | setting (kind : Setting) (value : Option String)
  | switch (kind : Switch)
deriving Repr, DecidableEq

namespace Argument

/-- The argument with a long name and an attached value. Names have to be
    complete, and switches take no value. -/
def ofLong? (name : String) (value : Option String) : Option Argument :=
  match name, value with
  | "path", value => some (.setting .path value)
  | "snapshot", value => some (.setting .snapshot value)
  | "build-flag", value => some (.setting .buildFlag value)
  | "variant", value => some (.setting .discipline value)
  | "show-paths", none => some (.switch .showPaths)
  | "sequential", none => some (.switch .sequential)
  | "version", none => some (.switch .version)
  | "help", none => some (.switch .help)
  | _, _ => none

/-- The argument that a text spells. Of short names in a row the first
    decides, as each of them ends the reading. -/
def ofText? (text : String) : Option Argument :=
  match text.toList with
  | '-' :: '-' :: cs =>
    let name := String.ofList (cs.takeWhile (· != '='))
    match cs.dropWhile (· != '=') with
    | [] => ofLong? name none
    | _ :: value => ofLong? name (some (String.ofList value))
  | '-' :: 'V' :: _ => some (.switch .version)
  | '-' :: 'h' :: _ => some (.switch .help)
  | _ => none

end Argument

namespace Command

end Command
end LockDiscipline
