import LockDiscipline.Text.Hex

/- The four kinds of TOML strings. Each function reads behind the opening
   quotes and returns the contents and what follows the closing quotes. -/
namespace LockDiscipline.Toml

/-- A character that may stand in a comment or, quotes and backslashes apart,
    in a string: a tab, or anything but a control character. -/
def isPlain (c : Char) : Bool := c == '\t' || (0x20 ≤ c.toNat && c.toNat != 0x7f)

/-- The rest behind a line end. -/
def afterNewline? : List Char → Option (List Char)
  | '\n' :: rest => some rest
  | '\r' :: '\n' :: rest => some rest
  | _ => none

/-- The character with a code point; halves of surrogate pairs have none. -/
def scalarChar? (n : Nat) : Option Char := if h : n.isValidChar then some (Char.ofNatAux n h) else none

/-- The character that an escape denotes, read behind the backslash. -/
def escape? : List Char → Option (Char × List Char)
  | 'b' :: rest => some ('\x08', rest)
  | 't' :: rest => some ('\t', rest)
  | 'n' :: rest => some ('\n', rest)
  | 'f' :: rest => some ('\x0c', rest)
  | 'r' :: rest => some ('\r', rest)
  | '"' :: rest => some ('"', rest)
  | '\\' :: rest => some ('\\', rest)
  | 'u' :: a :: b :: c :: d :: rest => do
    return (← scalarChar? (← Text.hexValue? 0 [a, b, c, d]), rest)
  | 'U' :: a :: b :: c :: d :: e :: f :: g :: h :: rest => do
    return (← scalarChar? (← Text.hexValue? 0 [a, b, c, d, e, f, g, h]), rest)
  | _ => none

/-- A string in single quotes, without escapes. -/
def literal? (done : List Char) : List Char → Option (String × List Char)
  | [] => none
  | '\'' :: rest => some (String.ofList done.reverse, rest)
  | c :: rest => if isPlain c then literal? (c :: done) rest else none

/-- A string in three single quotes. Up to two more may stand before the
    closing ones. -/
def longLiteral? (done : List Char) : List Char → Option (String × List Char)
  | [] => none
  | '\'' :: '\'' :: '\'' :: '\'' :: '\'' :: rest =>
    some (String.ofList ('\'' :: '\'' :: done).reverse, rest)
  | '\'' :: '\'' :: '\'' :: '\'' :: rest => some (String.ofList ('\'' :: done).reverse, rest)
  | '\'' :: '\'' :: '\'' :: rest => some (String.ofList done.reverse, rest)
  | '\n' :: rest => longLiteral? ('\n' :: done) rest
  | '\r' :: '\n' :: rest => longLiteral? ('\n' :: done) rest
  | c :: rest => if isPlain c then longLiteral? (c :: done) rest else none

/-- A string in double quotes. `fuel` bounds the number of characters. -/
def basic? (fuel : Nat) (done cs : List Char) : Option (String × List Char) :=
  match fuel, cs with
  | _, '"' :: rest => some (String.ofList done.reverse, rest)
  | fuel + 1, '\\' :: rest => do
    let (c, rest) ← escape? rest
    basic? fuel (c :: done) rest
  | fuel + 1, c :: rest => if isPlain c then basic? fuel (c :: done) rest else none
  | _, _ => none

/-- The rest behind a line end that a backslash takes out, with all blanks and
    line ends that follow it. -/
def afterJoin? (cs : List Char) : Option (List Char) :=
  match cs.dropWhile fun c => c == ' ' || c == '\t' with
  | '\n' :: rest => some (dropGap rest)
  | '\r' :: '\n' :: rest => some (dropGap rest)
  | _ => none
where
  /-- Drops blanks and line ends. -/
  dropGap : List Char → List Char
    | ' ' :: rest => dropGap rest
    | '\t' :: rest => dropGap rest
    | '\n' :: rest => dropGap rest
    | '\r' :: '\n' :: rest => dropGap rest
    | rest => rest

/-- A string in three double quotes. Up to two more may stand before the
    closing ones, and a backslash at the end of a line joins it with the next. -/
def longBasic? (fuel : Nat) (done cs : List Char) : Option (String × List Char) :=
  match fuel, cs with
  | _, '"' :: '"' :: '"' :: '"' :: '"' :: rest =>
    some (String.ofList ('"' :: '"' :: done).reverse, rest)
  | _, '"' :: '"' :: '"' :: '"' :: rest => some (String.ofList ('"' :: done).reverse, rest)
  | _, '"' :: '"' :: '"' :: rest => some (String.ofList done.reverse, rest)
  | fuel + 1, '\\' :: rest =>
    match afterJoin? rest with
    | some rest => longBasic? fuel done rest
    | none => do
      let (c, rest) ← escape? rest
      longBasic? fuel (c :: done) rest
  | fuel + 1, '\n' :: rest => longBasic? fuel ('\n' :: done) rest
  | fuel + 1, '\r' :: '\n' :: rest => longBasic? fuel ('\n' :: done) rest
  | fuel + 1, c :: rest => if isPlain c then longBasic? fuel (c :: done) rest else none
  | _, _ => none

/-- Drops a line end right behind the opening quotes. -/
def skipFirstNewline (cs : List Char) : List Char := (afterNewline? cs).getD cs

/-- The string at the start of a text. -/
def string? : List Char → Option (String × List Char)
  | '"' :: '"' :: '"' :: rest => longBasic? rest.length [] (skipFirstNewline rest)
  | '"' :: rest => basic? rest.length [] rest
  | '\'' :: '\'' :: '\'' :: rest => longLiteral? [] (skipFirstNewline rest)
  | '\'' :: rest => literal? [] rest
  | _ => none

end LockDiscipline.Toml
