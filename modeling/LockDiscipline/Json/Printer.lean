import LockDiscipline.Json.Basic

/- Writing a JSON tree as text, without spaces. -/
namespace LockDiscipline.Json

/-- The lower-case hexadecimal digit of a number below 16. -/
def hexChar (n : Nat) : Char := Nat.digitChar n

/-- A character inside quotes. The quote, the backslash and the control
    characters are escaped, five of the latter by a letter. -/
def escape (c : Char) : List Char :=
  if c == '"' then ['\\', '"']
  else if c == '\\' then ['\\', '\\']
  else if c == '\x08' then ['\\', 'b']
  else if c == '\t' then ['\\', 't']
  else if c == '\n' then ['\\', 'n']
  else if c == '\x0c' then ['\\', 'f']
  else if c == '\r' then ['\\', 'r']
  else if c.toNat < 0x20 then
    ['\\', 'u', '0', '0', hexChar (c.toNat / 16), hexChar (c.toNat % 16)]
  else [c]

/-- A text in quotes. -/
def quote (s : String) : List Char := '"' :: s.toList.flatMap escape ++ ['"']

/-- A string in quotes; one that is no text is written as half of a pair. -/
def Quoted.write : Quoted → List Char
  | .text s => quote s
  | .unpaired => "\"\\ud800\"".toList

/-- The sign, digits, point and exponent of a numeral. -/
def Numeral.write (n : Numeral) : List Char :=
  (if n.negative then ['-'] else [])
    ++ Nat.toDigits 10 n.whole
    ++ (if n.fraction.isEmpty then [] else '.' :: n.fraction)
    ++ match n.exponent with
      | none => []
      | some (.ofNat power) => 'e' :: Nat.toDigits 10 power
      | some (.negSucc power) => 'e' :: '-' :: Nat.toDigits 10 (power + 1)

mutual

/-- The characters of a tree's text. -/
def write : Json → List Char
  | .null => "null".toList
  | .bool true => "true".toList
  | .bool false => "false".toList
  | .num n => n.write
  | .str s => s.write
  | .arr [] => "[]".toList
  | .arr (item :: items) => '[' :: write item ++ writeItems items
  | .obj [] => ['\x7b', '\x7d']
  | .obj ((key, value) :: members) =>
    '\x7b' :: key.write ++ ':' :: write value ++ writeMembers members

/-- The later items of an array and its closing bracket. -/
def writeItems : List Json → List Char
  | [] => [']']
  | item :: items => ',' :: write item ++ writeItems items

/-- The later members of an object and its closing brace. -/
def writeMembers : List (Quoted × Json) → List Char
  | [] => ['\x7d']
  | (key, value) :: members => ',' :: key.write ++ ':' :: write value ++ writeMembers members

end

/-- The text of a tree. -/
def render (j : Json) : String := String.ofList j.write

end LockDiscipline.Json
