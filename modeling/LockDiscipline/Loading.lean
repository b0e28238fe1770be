import LockDiscipline.Program.Basic
import LockDiscipline.Program.Decode
import LockDiscipline.Storage.Disk
import LockDiscipline.Text.Lines

/- Loading a program from a root folder: the snapshot file is read and checked,
   and the scan is restricted to the root module. -/
namespace LockDiscipline

variable {m : Type → Type} [Monad m]

/-- What to load. -/
structure LoadConfig where
  /-- The folder of the root package. -/
  root : Path
  /-- The snapshot file, if it is not in its usual place. -/
  snapshot : Option Path
  /-- The root module, if it is not to be looked up. -/
  modulePath : Option String
  /-- The build flags that the snapshot should have been made with. -/
  buildFlags : List String
deriving Repr, DecidableEq

namespace LoadConfig

/-- The snapshot file. -/
def snapshotPath (c : LoadConfig) : Path :=
  c.snapshot.getD (c.root.join ⟨".mutex-check/program.json"⟩)

/-- The snapshot has the expected build flags, or none are expected. -/
def agreesWith (c : LoadConfig) (p : Program) : Bool :=
  c.buildFlags.isEmpty || c.buildFlags == p.snapshot.buildFlags

end LoadConfig

/-- The module that a line of a module file declares. -/
def declaredModule? (line : List Char) : Option String := do
  let rest ← Text.after? "module" (Text.trim line)
  match Text.stripBoth '"' (Text.trim rest) with
  | [] => none
  | name => some (String.ofList name)

/-- The first module that a module file declares. -/
def moduleOfText? (text : String) : Option String :=
  (Text.lines text.toList).findSome? declaredModule?

/-- The module of a root folder, by its module file. -/
def rootModule? (disk : Disk m) (root : Path) : m (Option String) := do
  return (← disk.look (root.join ⟨"go.mod"⟩)).text?.bind moduleOfText?

namespace LoadConfig

/-- The program of a snapshot. The module is the one asked for, else that of
    the root folder, else the one in the snapshot. -/
def programOf (c : LoadConfig) (rootModule : Option String) (s : Snapshot) :
    Except LoadError Program := do
  let p ← Program.ofSnapshot s
  match c.modulePath <|> rootModule <|> s.modulePath with
  | none => return p
  | some name => return p.restrictTo name

/-- Loads a program. -/
def load (disk : Disk m) (c : LoadConfig) : m (Except LoadError Program) := do
  match (← disk.look c.snapshotPath).text? with
  | none => return .error (.unreadable c.snapshotPath.text)
  | some text =>
    match Snapshot.ofText? text with
    | none => return .error (.malformed c.snapshotPath.text)
    | some s => return c.programOf (← rootModule? disk c.root) s

end LoadConfig
end LockDiscipline
