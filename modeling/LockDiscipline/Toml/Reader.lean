import LockDiscipline.Toml.Basic
import LockDiscipline.Toml.Quoted
import LockDiscipline.Toml.Scalar

/- Reading a TOML document. The readers take what is left of the text and
   return what is left behind the part that they read; `fuel` bounds the number
   of parts, and the length of the text is enough. -/
namespace LockDiscipline.Toml

/-- Containers may nest this deep, and a key may have this many parts. -/
def nestingLimit : Nat := 79

/-- Drops blanks. -/
def skipBlanks (cs : List Char) : List Char := cs.dropWhile fun c => c == ' ' || c == '\t'

/-- Drops a comment, but not the end of its line. -/
def skipComment : List Char → List Char
  | '#' :: rest => rest.dropWhile isPlain
  | cs => cs

/-- The rest behind the end of a line, which may have a comment. -/
def afterLine? (cs : List Char) : Option (List Char) :=
  match skipComment (skipBlanks cs) with
  | [] => some []
  | rest => afterNewline? rest

/-- Drops blanks, line ends and comments, as between the items of an array. -/
def skipFiller (inComment : Bool) : List Char → List Char
  | [] => []
  | '\n' :: rest => skipFiller false rest
  | '\r' :: '\n' :: rest => skipFiller false rest
  | c :: rest =>
    if inComment then if isPlain c then skipFiller true rest else c :: rest
    else if c == ' ' || c == '\t' then skipFiller false rest
    else if c == '#' then skipFiller true rest
    else c :: rest

/-- A character of a key without quotes. -/
def isKeyChar (c : Char) : Bool := c.isAlphanum || c == '_' || c == '-'

/-- One part of a key: in quotes, or made of key characters. -/
def keyPart? (cs : List Char) : Option (String × List Char) :=
  match cs with
  | '"' :: rest => basic? rest.length [] rest
  | '\'' :: rest => literal? [] rest
  | cs =>
    match cs.takeWhile isKeyChar with
    | [] => none
    | word => some (String.ofList word, cs.dropWhile isKeyChar)

/-- A key of at most `room` parts: all but the last, and the last. Points stand
    between parts, and blanks around them. -/
def keyWithin? : Nat → List Char → Option ((List String × String) × List Char)
  | 0, _ => none
  | room + 1, cs => do
    let (part, rest) ← keyPart? (skipBlanks cs)
    match skipBlanks rest with
    | '.' :: rest =>
      let ((path, last), rest) ← keyWithin? room rest
      return ((part :: path, last), rest)
    | rest => return (([], part), rest)

/-- The key at the start of a text. Its parts nest like containers. -/
def key? (cs : List Char) : Option ((List String × String) × List Char) :=
  keyWithin? nestingLimit cs

mutual

/-- The value at the start of a text; `room` more containers may be opened. -/
def value? (room : Nat) : Nat → List Char → Option (Toml × List Char)
  | 0, _ => none
  | fuel + 1, cs =>
    match cs with
    | '[' :: rest =>
      match room with
      | 0 => none
      | inner + 1 => (items? inner fuel [] rest).map fun (items, rest) => (.array items, rest)
    | '\x7b' :: rest =>
      match room with
      | 0 => none
      | inner + 1 =>
        match skipBlanks rest with
        | '\x7d' :: rest => some (.table .braced [], rest)
        | rest => (pairs? inner fuel [] rest).map fun (t, rest) => (.table .braced t, rest)
    | 't' :: 'r' :: 'u' :: 'e' :: rest => some (.bool true, rest)
    | 'f' :: 'a' :: 'l' :: 's' :: 'e' :: rest => some (.bool false, rest)
    | '"' :: _ => (string? cs).map fun (s, rest) => (.text s, rest)
    | '\'' :: _ => (string? cs).map fun (s, rest) => (.text s, rest)
    | cs => (afterScalar? cs).map (.scalar, ·)

/-- The items of an array behind those in `done`, which are in reverse. -/
def items? (room : Nat) : Nat → List Toml → List Char → Option (List Toml × List Char)
  | 0, _, _ => none
  | fuel + 1, done, cs =>
    match skipFiller false cs with
    | ']' :: rest => some (done.reverse, rest)
    | cs => do
      let (item, rest) ← value? room fuel cs
      match skipFiller false rest with
      | ',' :: rest => items? room fuel (item :: done) rest
      | ']' :: rest => return ((item :: done).reverse, rest)
      | _ => none

/-- The keys and values in braces behind those in `done`, at least one. -/
def pairs? (room : Nat) : Nat → Entries → List Char → Option (Entries × List Char)
  | 0, _, _ => none
  | fuel + 1, done, cs => do
    let ((path, last), rest) ← key? cs
    match rest with
    | '=' :: rest =>
      let (value, rest) ← value? room fuel (skipBlanks rest)
      let done ← addDotted path last value done
      match skipBlanks rest with
      | ',' :: rest => pairs? room fuel done rest
      | '\x7d' :: rest => return (done, rest)
      | _ => none
    | _ => none

end

/-- Reads on line by line. `header` is the path of the open table. -/
def document? : Nat → List String → Entries → List Char → Option Entries
  | 0, _, root, cs => if cs.isEmpty then some root else none
  | fuel + 1, header, root, cs =>
    match skipBlanks cs with
    | [] => some root
    | '\n' :: rest => document? fuel header root rest
    | '\r' :: '\n' :: rest => document? fuel header root rest
    | '#' :: rest => do document? fuel header root (← afterLine? ('#' :: rest))
    | '[' :: '[' :: rest => do
      let ((path, last), rest) ← key? rest
      match rest with
      | ']' :: ']' :: rest =>
        document? fuel (path ++ [last]) (← openElement path last root) (← afterLine? rest)
      | _ => none
    | '[' :: rest => do
      let ((path, last), rest) ← key? rest
      match rest with
      | ']' :: rest =>
        document? fuel (path ++ [last]) (← openTable path last root) (← afterLine? rest)
      | _ => none
    | cs => do
      let ((path, last), rest) ← key? cs
      match rest with
      | '=' :: rest =>
        let (value, rest) ← value? nestingLimit fuel (skipBlanks rest)
        document? fuel header (← addUnder header path last value root) (← afterLine? rest)
      | _ => none

/-- The text behind a byte order mark. -/
def skipMark : List Char → List Char
  | '\ufeff' :: rest => rest
  | cs => cs

/-- The entries of a TOML document. -/
def parse? (text : String) : Option Entries :=
  let cs := skipMark text.toList
  document? (2 * cs.length + 2) [] [] cs

end LockDiscipline.Toml
