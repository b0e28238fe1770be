import LockDiscipline.Json.Basic

/- Decoding records out of JSON trees. A record is written as an object with
   its field names as keys, or as an array with its fields in declaration
   order. An object may have further keys, which are skipped; a field given
   twice, or an array with too many items, is refused.

   Decoders take the number of container levels that may still be opened, the
   *room*. Text that is skipped outright is not counted; text that has to be
   held until a tag is known is, and must `fit`. -/
namespace LockDiscipline.Json

/-- A snapshot may nest this many containers. -/
def nestingLimit : Nat := 127

/-! ## Values that can be held -/

mutual

/-- The tree opens at most `room` levels, its strings are texts and its numbers
    are in the range of double precision. -/
def fits (room : Nat) : Json → Bool
  | .null => true
  | .bool _ => true
  | .num n => !n.overflows
  | .str (.text _) => true
  | .str .unpaired => false
  | .arr items =>
    match room with
    | 0 => false
    | inner + 1 => itemsFit inner items
  | .obj members =>
    match room with
    | 0 => false
    | inner + 1 => membersFit inner members

/-- All items fit. -/
def itemsFit (room : Nat) : List Json → Bool
  | [] => true
  | item :: items => fits room item && itemsFit room items

/-- All keys are texts and all values fit. -/
def membersFit (room : Nat) : List (Quoted × Json) → Bool
  | [] => true
  | (.text _, value) :: members => fits room value && membersFit room members
  | (.unpaired, _) :: _ => false

end

/-! ## Records -/

/-- The fields of a record that were written, by name. -/
abbrev Fields := List (String × Json)

/-- The members of an object whose keys are among `names`. All keys have to be
    texts, and none of `names` may stand twice. -/
def knownMembers? (names : List String) : List (Quoted × Json) → Option Fields
  | [] => some []
  | (.unpaired, _) :: _ => none
  | (.text key, value) :: members => do
    let later ← knownMembers? names members
    if names.contains key then
      if (later.lookup key).isSome then none else some ((key, value) :: later)
    else some later

/-- The fields of a record with the field names `names`. -/
def fields? (names : List String) : Json → Option Fields
  | .arr items => if items.length ≤ names.length then some (names.zip items) else none
  | .obj members => knownMembers? names members
  | _ => none

/-- Opens a record: its fields, and the room left for their values. -/
def record? (room : Nat) (names : List String) (j : Json) : Option (Nat × Fields) :=
  match room with
  | 0 => none
  | inner + 1 => (j.fields? names).map (inner, ·)

namespace Fields

/-- A field that has to be there. -/
def required? {α : Type} (fields : Fields) (name : String) (decode : Json → Option α) :
    Option α :=
  (fields.lookup name).bind decode

/-- A field that takes `value` when it is not there. -/
def withDefault? {α : Type} (fields : Fields) (name : String) (value : α)
    (decode : Json → Option α) : Option α :=
  match fields.lookup name with
  | none => some value
  | some j => decode j

/-- A field that may be missing or null. -/
def optional? {α : Type} (fields : Fields) (name : String) (decode : Json → Option α) :
    Option (Option α) :=
  match fields.lookup name with
  | none => some none
  | some .null => some none
  | some j => (decode j).map some

end Fields

/-- The items of an array, each decoded with the room left inside it. -/
def list? {α : Type} (room : Nat) (decode : Nat → Json → Option α) : Json → Option (List α)
  | .arr items =>
    match room with
    | 0 => none
    | inner + 1 => items.mapM (decode inner)
  | _ => none

/-- The items of an array of texts. -/
def texts? (room : Nat) (j : Json) : Option (List String) :=
  j.list? room fun _ => toText?

end LockDiscipline.Json
