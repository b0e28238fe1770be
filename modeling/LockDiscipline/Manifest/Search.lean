import LockDiscipline.Manifest.Basic
import LockDiscipline.Storage.Disk

/- Finding the manifest: the folder where the search starts is looked at first,
   then the folders above it, as far as the text of the path goes. -/
namespace LockDiscipline.Manifest

variable {m : Type → Type} [Monad m]

/-- The name of the file. -/
def fileName : Path := ⟨"mutex-check.toml"⟩

/-- The folders that are searched, in order. A file stands for the folder that
    holds it. -/
def searchFolders (start : Path) (isFile : Bool) : List Path :=
  if isFile then start.parents else start :: start.parents

/-- The first folder of a list with a manifest in it, as the path of the
    manifest. -/
def findIn? (disk : Disk m) : List Path → m (Option Path)
  | [] => pure none
  | folder :: rest => do
    let candidate := folder.join fileName
    if (← disk.look candidate).isPresent then return some candidate
    else findIn? disk rest

/-- The path of the manifest for a start path. -/
def find? (disk : Disk m) (start : Path) : m (Option Path) := do
  findIn? disk (searchFolders start (← disk.look start).isFile)

/-- The manifest for a start path, if there is one. -/
def load? (disk : Disk m) (start : Path) : m (Except ManifestError (Option Manifest)) := do
  match ← find? disk start with
  | none => return .ok none
  | some path =>
    match (← disk.look path).text? with
    | none => return .error (.unreadable path)
    | some text => return (ofText path text).map some

end LockDiscipline.Manifest
