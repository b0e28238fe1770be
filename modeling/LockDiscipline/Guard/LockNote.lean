import LockDiscipline.Text.Lines

/- Annotations. The comment on the line of a lock's declaration names the
   locations that the lock protects. Comment marks and blanks do not count, so
   `// a, b` and `/* a,b */` say the same. -/
namespace LockDiscipline

/-- What the comment of a lock says. -/
inductive LockNote where
  /-- It names nothing. -/
  | missing
  /-- It takes the lock out of the check. -/
  | optOut
  | names (list : List String)
deriving Repr, DecidableEq

namespace LockNote

/-- A line of a comment without its marks. -/
def stripMarks (line : List Char) : List Char :=
  let line := Text.trim line
  match Text.after? "//" line with
  | some rest => rest
  | none =>
    match Text.after? "/*" line with
    | some rest => (Text.before? "*/" rest).getD rest
    | none => (Text.before? "*/" line).getD line

/-- The characters of a comment that count. -/
def essence (comment : List Char) : List Char :=
  ((Text.lines comment).flatMap stripMarks).filter (!Text.isBlank ·)

/-- The parts between the commas that are not empty. -/
def parts (text : List Char) : List (List Char) :=
  (text.splitOn ',').filter (!·.isEmpty)

/-- The annotation that the essence of a comment says. -/
def ofEssence (text : List Char) : LockNote :=
  if text.isEmpty then .missing
  else if Text.occurs "nolint".toList text && Text.occurs "mutex_check".toList text then .optOut
  else
    match parts text with
    | [] => .missing
    | list => .names (list.map String.ofList)

/-- The annotation in a comment. -/
def parse (comment : String) : LockNote := ofEssence (essence comment.toList)

end LockNote
end LockDiscipline
