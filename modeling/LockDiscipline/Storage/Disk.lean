import LockDiscipline.Storage.Path

/- What the program asks of the file system. The loaders are written over any
   monad, so that they run on a real disk and on a `FileTree` alike. -/
namespace LockDiscipline

/-- What stands at a path. -/
inductive Entry where
  | absent
  | folder
  | text (contents : String)
  /-- A file that is no UTF-8 text or cannot be read. -/
  | unreadable
deriving Repr, DecidableEq

namespace Entry

/-- Something stands there. -/
def isPresent : Entry → Bool
  | .absent => false
  | _ => true

/-- A file stands there. -/
def isFile : Entry → Bool
  | .text _ => true
  | .unreadable => true
  | _ => false

/-- The text of a file. -/
def text? : Entry → Option String
  | .text contents => some contents
  | _ => none

end Entry

/-- A file system that can be looked at. -/
structure Disk (m : Type → Type) where
  look : Path → m Entry

end LockDiscipline
