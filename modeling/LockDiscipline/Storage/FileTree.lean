import LockDiscipline.Storage.Disk

/- A file system as a tree of folders without links, and how paths are followed
   in it: every piece but the last has to lead through a folder, `..` leads to
   the folder above, and the root is above itself. -/
namespace LockDiscipline

inductive FileTree where
  | text (contents : String)
  | unreadable
  | folder (entries : List (String × FileTree))
deriving Repr

namespace FileTree

/-- The entry of a folder with a name. -/
def child? (name : String) : FileTree → Option FileTree
  | .folder entries => entries.lookup name
  | _ => none

/-- What stands at a place, given as the names that lead there from the root. -/
def at? (t : FileTree) : List String → Option FileTree
  | [] => some t
  | name :: place => (t.child? name).bind (·.at? place)

/-- A folder stands at a place. -/
def isFolderAt (t : FileTree) (place : List String) : Bool :=
  match t.at? place with
  | some (.folder _) => true
  | _ => false

/-- The place that pieces of a path lead to from `place`. -/
def follow? (t : FileTree) (place : List String) : List (List Char) → Option (List String)
  | [] => some place
  | piece :: rest =>
    if t.isFolderAt place then
      if Path.isIdle piece then follow? t place rest
      else if piece = ['.', '.'] then follow? t place.dropLast rest
      else
        let next := place ++ [String.ofList piece]
        if (t.at? next).isSome then follow? t next rest else none
    else none

/-- The place that a path denotes when `cwd` is the working directory. The
    empty path denotes none. -/
def resolve? (t : FileTree) (cwd : List String) (p : Path) : Option (List String) :=
  if p.text.isEmpty then none
  else if p.isAbsolute then t.follow? [] p.pieces
  else t.follow? cwd p.pieces

/-- What stands at a path. -/
def entry (t : FileTree) (cwd : List String) (p : Path) : Entry :=
  match (t.resolve? cwd p).bind t.at? with
  | none => .absent
  | some (.folder _) => .folder
  | some (.text contents) => .text contents
  | some .unreadable => .unreadable

/-- The tree as a disk, with the working directory `cwd`. -/
def disk (t : FileTree) (cwd : List String) : Disk Id := ⟨t.entry cwd⟩

/-- Applies `f` to the entry with a name, or to an empty folder of that name. -/
def update (name : String) (f : FileTree → FileTree) :
    List (String × FileTree) → List (String × FileTree)
  | [] => [(name, f (.folder []))]
  | (other, t) :: rest =>
    if other == name then (other, f t) :: rest else (other, t) :: update name f rest

/-- Puts a tree at a place and makes the folders that lead there. A folder
    that is there already stays, and so does a file in the way. -/
def put (leaf : FileTree) : List String → FileTree → FileTree
  | [], .folder entries =>
    match leaf with
    | .folder _ => .folder entries
    | _ => leaf
  | [], _ => leaf
  | name :: place, .folder entries => .folder (update name (put leaf place) entries)
  | _ :: _, t => t

end FileTree
end LockDiscipline
