import LockDiscipline.Text.Blank

/- Lines, marks and pieces of a text. -/
namespace LockDiscipline.Text

/-- A carriage return right before the end of a line belongs to the line end.
    The line is given in reverse. -/
def dropReturn : List Char → List Char
  | '\r' :: rest => rest
  | line => line

/-- The lines of a text, `line` being the current one in reverse. A line feed
    ends a line, and a last line without one counts if it is not empty. -/
def linesFrom (line : List Char) : List Char → List (List Char)
  | [] => if line.isEmpty then [] else [line.reverse]
  | '\n' :: rest => (dropReturn line).reverse :: linesFrom [] rest
  | c :: rest => linesFrom (c :: line) rest

/-- The lines of a text without their line ends. -/
def lines (cs : List Char) : List (List Char) := linesFrom [] cs

/-- The text behind `mark`, if the text starts with it. -/
def after? (mark : String) (cs : List Char) : Option (List Char) :=
  mark.toList.isPrefixOf? cs

/-- The text before `mark`, if the text ends with it. -/
def before? (mark : String) (cs : List Char) : Option (List Char) :=
  mark.toList.isSuffixOf? cs

/-- `word` stands somewhere in the text. -/
def occurs (word : List Char) : List Char → Bool
  | [] => word.isEmpty
  | c :: rest => word.isPrefixOf (c :: rest) || occurs word rest

/-- The text without the copies of `c` at both ends. -/
def stripBoth (c : Char) (cs : List Char) : List Char :=
  ((cs.dropWhile (· == c)).reverse.dropWhile (· == c)).reverse

/-- Elements in order, each at its first occurrence only. -/
def distinct {α : Type} [BEq α] (xs : List α) : List α :=
  xs.foldl (fun kept x => if kept.contains x then kept else kept ++ [x]) []

end LockDiscipline.Text
