/- TOML documents as trees, and how headers and dotted keys grow them. A table
   remembers how it came about, because that decides who may add to it: a
   header may complete a table that was only implied by a longer header, and a
   dotted key may only add to tables made by dotted keys. -/
namespace LockDiscipline

namespace Toml

/-- How a table came about. -/
inductive Origin where
  /-- It has a header of its own. -/
  | header
  /-- It lies on the way to a table with a header. -/
  | implied
  /-- It lies on the way to a dotted key. -/
  | dotted
  /-- It is written in braces. -/
  | braced
deriving Repr, DecidableEq

end Toml

/-- A TOML value. Numbers and dates are recognised, but what they say is not
    kept. -/
inductive Toml where
  | text (contents : String)
  | bool (value : Bool)
  | scalar
  | array (items : List Toml)
  | table (origin : Toml.Origin) (entries : List (String × Toml))
  /-- An array of tables with headers. -/
  | tables (items : List Toml)
deriving Repr

namespace Toml

/-- The entries of a table. -/
abbrev Entries := List (String × Toml)

/-- Gives a key a value, in the place of its old one or at the end. -/
def setEntry (key : String) (value : Toml) : Entries → Entries
  | [] => [(key, value)]
  | (other, old) :: rest =>
    if other == key then (other, value) :: rest else (other, old) :: setEntry key value rest

/-- Changes the table that `path` leads to. Tables that are missing on the way
    are made with the origin `made`; the last table of an array stands for the
    array. `f` is told the origin of the table that it changes. -/
def changeAt (made : Origin) (f : Origin → Entries → Option Entries) (origin : Origin) :
    List String → Entries → Option Entries
  | [], entries => f origin entries
  | key :: path, entries =>
    match entries.lookup key with
    | none => do
      let inner ← changeAt made f made path []
      return setEntry key (.table made inner) entries
    | some (.table found inner) =>
      if found == .braced || (made == .dotted && found == .header) then none
      else do
        let inner ← changeAt made f found path inner
        return setEntry key (.table found inner) entries
    | some (.tables items) =>
      match items.getLast? with
      | some (.table found inner) => do
        let inner ← changeAt made f found path inner
        return setEntry key (.tables (items.dropLast ++ [.table found inner])) entries
      | _ => none
    | some _ => none

/-- Adds a new key. -/
def addKey (key : String) (value : Toml) (entries : Entries) : Option Entries :=
  if (entries.lookup key).isSome then none else some (entries ++ [(key, value)])

/-- Adds a dotted key: the tables `path` on the way, and `key` in the last. -/
def addDotted (path : List String) (key : String) (value : Toml) (entries : Entries) :
    Option Entries :=
  changeAt .dotted (fun origin entries =>
    if path.isEmpty || origin == .dotted then addKey key value entries else none)
    .header path entries

/-- Opens the table of a header. -/
def openTable (path : List String) (key : String) (root : Entries) : Option Entries :=
  changeAt .implied (fun _ entries =>
    match entries.lookup key with
    | none => some (entries ++ [(key, .table .header [])])
    | some (.table .implied inner) => some (setEntry key (.table .header inner) entries)
    | some _ => none) .header path root

/-- Opens a further table of an array of tables. -/
def openElement (path : List String) (key : String) (root : Entries) : Option Entries :=
  changeAt .implied (fun _ entries =>
    match entries.lookup key with
    | none => some (entries ++ [(key, .tables [.table .header []])])
    | some (.tables items) =>
      some (setEntry key (.tables (items ++ [.table .header []])) entries)
    | some _ => none) .header path root

/-- Adds a dotted key to the table whose header is `header`. -/
def addUnder (header path : List String) (key : String) (value : Toml) (root : Entries) :
    Option Entries :=
  changeAt .implied (fun _ entries => addDotted path key value entries) .header header root

end Toml
end LockDiscipline
