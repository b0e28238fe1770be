import LockDiscipline.Json.Numeral

/- JSON trees. A tree keeps what a text says: members stand in writing order,
   repeated keys included, and a number is the numeral that was written. A
   quoted string may name half of a surrogate pair, which is no text; such a
   string is kept as `unpaired`, because a reader that skips a value does not
   look into its strings. -/
namespace LockDiscipline

namespace Json

/-- The contents of a quoted string. -/
inductive Quoted where
  | text (contents : String)
  | unpaired
deriving Repr, DecidableEq

end Json

/-- A JSON tree. -/
inductive Json where
  | null
  | bool (value : Bool)
  | num (numeral : Json.Numeral)
  | str (string : Json.Quoted)
  | arr (items : List Json)
  | obj (members : List (Json.Quoted × Json))
deriving Repr

namespace Json

/-- The string tree of a text. -/
def ofText (s : String) : Json := .str (.text s)

/-- The number tree of a natural number. -/
def ofNat (n : Nat) : Json := .num (.ofNat n)

/-- An object whose keys are texts. -/
def object (members : List (String × Json)) : Json :=
  .obj (members.map fun m => (.text m.1, m.2))

/-- The text of a string tree. -/
def toText? : Json → Option String
  | .str (.text s) => some s
  | _ => none

/-- The id, line or column of a number tree. -/
def toWord? : Json → Option Nat
  | .num n => n.toWord?
  | _ => none

/-- The truth value of a tree. -/
def toBool? : Json → Option Bool
  | .bool b => some b
  | _ => none

end Json
end LockDiscipline
