/- White space and trimming. A character is blank when it has the Unicode
   property White_Space; there are 25 such characters. Texts are lists of
   characters, so that every cut is a statement about lists. -/
namespace LockDiscipline.Text

/-- First and last code points of the runs of the property White_Space. -/
def blankRuns : List (Nat × Nat) :=
  [(0x09, 0x0d), (0x20, 0x20), (0x85, 0x85), (0xa0, 0xa0), (0x1680, 0x1680),
   (0x2000, 0x200a), (0x2028, 0x2029), (0x202f, 0x202f), (0x205f, 0x205f),
   (0x3000, 0x3000)]

/-- A blank character. -/
def isBlank (c : Char) : Bool :=
  blankRuns.any fun run => run.1 ≤ c.toNat && c.toNat ≤ run.2

/-- What is left after the leading blanks. -/
def trimStart (cs : List Char) : List Char := cs.dropWhile isBlank

/-- What is left before the trailing blanks. -/
def trimEnd (cs : List Char) : List Char := (cs.reverse.dropWhile isBlank).reverse

/-- The text without its leading and trailing blanks. -/
def trim (cs : List Char) : List Char := trimEnd (trimStart cs)

end LockDiscipline.Text
