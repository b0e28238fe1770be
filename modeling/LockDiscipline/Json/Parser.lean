import LockDiscipline.Json.Token

/- Reading a JSON text. The reader keeps the open containers on a stack of its
   own, innermost first, so nesting is bounded by the text alone; limits on it
   are the business of whoever decodes the tree. -/
namespace LockDiscipline.Json

/-- An open container: the items so far in reverse, or the members so far in
    reverse and the key whose value comes next. -/
inductive Frame where
  | items (done : List Json)
  | members (done : List (Quoted × Json)) (key : Quoted)

/-- Reads on with the open containers `stack`. `ready` is the value just
    completed; when there is none, a value comes next. -/
def parseTokens? (ready : Option Json) (stack : List Frame) : List Token → Option Json
  | [] =>
    match ready, stack with
    | some value, [] => some value
    | _, _ => none
  | token :: rest =>
    match ready, stack, token, rest with
    | none, _, .null, rest => parseTokens? (some .null) stack rest
    | none, _, .bool b, rest => parseTokens? (some (.bool b)) stack rest
    | none, _, .num n, rest => parseTokens? (some (.num n)) stack rest
    | none, _, .str s, rest => parseTokens? (some (.str s)) stack rest
    | none, _, .bracketOpen, .bracketClose :: rest => parseTokens? (some (.arr [])) stack rest
    | none, _, .bracketOpen, rest => parseTokens? none (.items [] :: stack) rest
    | none, _, .braceOpen, .braceClose :: rest => parseTokens? (some (.obj [])) stack rest
    | none, _, .braceOpen, .str key :: .colon :: rest =>
      parseTokens? none (.members [] key :: stack) rest
    | some value, .items done :: outer, .comma, rest =>
      parseTokens? none (.items (value :: done) :: outer) rest
    | some value, .items done :: outer, .bracketClose, rest =>
      parseTokens? (some (.arr (value :: done).reverse)) outer rest
    | some value, .members done key :: outer, .comma, .str next :: .colon :: rest =>
      parseTokens? none (.members ((key, value) :: done) next :: outer) rest
    | some value, .members done key :: outer, .braceClose, rest =>
      parseTokens? (some (.obj ((key, value) :: done).reverse)) outer rest
    | _, _, _, _ => none

/-- The tree of a JSON text: one value with spaces around it and nothing else. -/
def parse? (text : String) : Option Json := do
  parseTokens? none [] (← Token.scan? text.toList)

end LockDiscipline.Json
