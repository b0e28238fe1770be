/- File paths as text. A path is cut at its slashes; empty pieces and pieces
   `.` are skipped, except that a path may start at the root or with `.`.
   Joining and going up work on the text alone and look at no disk. -/
namespace LockDiscipline

/-- A file path. -/
structure Path where
  text : String
deriving Repr, DecidableEq

namespace Path

/-- What a path starts with: nothing special, the root, or `.`. -/
inductive Lead where
  | plain
  | root
  | here
deriving Repr, DecidableEq

/-- A piece that does not move: nothing, or `.`. -/
def isIdle (piece : List Char) : Bool := piece == [] || piece == ['.']

/-- The text between the slashes. -/
def pieces (p : Path) : List (List Char) := p.text.toList.splitOn '/'

/-- The start of a path and the pieces behind it. -/
def split (p : Path) : Lead × List (List Char) :=
  match p.pieces with
  | [] :: next :: rest => (.root, next :: rest)
  | ['.'] :: rest => (.here, rest)
  | all => (.plain, all)

/-- The path with a start and pieces. -/
def spell (lead : Lead) (body : List (List Char)) : Path :=
  let tail := List.intercalate ['/'] body
  match lead with
  | .plain => ⟨String.ofList tail⟩
  | .root => ⟨String.ofList ('/' :: tail)⟩
  | .here => if body.isEmpty then ⟨"."⟩ else ⟨String.ofList ('.' :: '/' :: tail)⟩

/-- The paths above a path with a start and pieces, nearest first; the pieces
    are given in reverse. Above `.` is the empty path, and nothing is above
    that or above the root. -/
def above (lead : Lead) (reversed : List (List Char)) : List Path :=
  match h : reversed.dropWhile isIdle with
  | [] => if lead = .here then [⟨""⟩] else []
  | _ :: rest =>
    have : (rest.dropWhile isIdle).length < reversed.length := by
      have h₁ : (rest.dropWhile isIdle).length ≤ rest.length :=
        (List.dropWhile_suffix isIdle).length_le
      have h₂ : (reversed.dropWhile isIdle).length ≤ reversed.length :=
        (List.dropWhile_suffix isIdle).length_le
      rw [h, List.length_cons] at h₂
      omega
    spell lead (rest.dropWhile isIdle).reverse :: above lead (rest.dropWhile isIdle)
termination_by reversed.length

/-- The paths above a path, nearest first. -/
def parents (p : Path) : List Path := above p.split.1 p.split.2.reverse

/-- The path one level up. -/
def parent? (p : Path) : Option Path := p.parents.head?

/-- The path starts at the root. -/
def isAbsolute (p : Path) : Bool := p.text.toList.head? == some '/'

/-- `p`, seen from `base`. -/
def join (base p : Path) : Path :=
  if p.isAbsolute then p
  else if base.text.isEmpty || base.text.toList.getLast? == some '/' then ⟨base.text ++ p.text⟩
  else ⟨base.text ++ "/" ++ p.text⟩

end Path
end LockDiscipline
