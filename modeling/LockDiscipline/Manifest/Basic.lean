import LockDiscipline.Guard.Discipline
import LockDiscipline.Storage.Path
import LockDiscipline.Text.Lines
import LockDiscipline.Toml.Reader

/- The manifest: a TOML document whose only table, `analysis`, holds settings.
   What it leaves open stays open, so that the command line and the defaults
   can fill it in. -/
namespace LockDiscipline

/-- The settings of a manifest. -/
structure Settings where
  /-- The snapshot file, as written. -/
  snapshot : Option String
  modulePath : Option String
  disciplines : Option (List Discipline)
  parallel : Option Bool
  buildFlags : List String
deriving Repr, DecidableEq

namespace Settings

/-- Nothing is set. -/
def unset : Settings := ⟨none, none, none, none, []⟩

/-- The keys of the table, in their order. -/
def keys : List String := ["snapshot", "module", "variants", "parallel", "build_flags"]

end Settings

namespace Toml

/-- The contents of a text. -/
def toText? : Toml → Option String
  | .text contents => some contents
  | _ => none

/-- The value of a truth value. -/
def toBool? : Toml → Option Bool
  | .bool value => some value
  | _ => none

/-- The items of an array. -/
def toItems? : Toml → Option (List Toml)
  | .array items => some items
  | .tables items => some items
  | _ => none

/-- A container without contents. -/
def isEmptyContainer : Toml → Bool
  | .array [] => true
  | .table _ [] => true
  | _ => false

/-- A discipline: its name, or a table whose only key is the name and holds
    an empty container. -/
def toDiscipline? : Toml → Option Discipline
  | .text name => Discipline.ofName? name
  | .table _ [(name, value)] => if value.isEmptyContainer then Discipline.ofName? name else none
  | _ => none

/-- The decoded value of a key, if the key is there. -/
def optional? {α : Type} (decode : Toml → Option α) (key : String) (entries : Entries) :
    Option (Option α) :=
  match entries.lookup key with
  | none => some none
  | some value => (decode value).map some

/-- The items of an array, each decoded. -/
def listOf? {α : Type} (decode : Toml → Option α) (t : Toml) : Option (List α) :=
  t.toItems?.bind (·.mapM decode)

end Toml

namespace Settings

/-- The settings in a table. Unknown keys are refused, a blank module counts as
    none, and a repeated discipline counts once. -/
def ofEntries? (entries : Toml.Entries) : Option Settings :=
  if entries.all fun entry => keys.contains entry.1 then do
    let snapshot ← Toml.optional? Toml.toText? "snapshot" entries
    let modulePath ← Toml.optional? Toml.toText? "module" entries
    let disciplines ← Toml.optional? (Toml.listOf? Toml.toDiscipline?) "variants" entries
    let parallel ← Toml.optional? Toml.toBool? "parallel" entries
    let buildFlags ← Toml.optional? (Toml.listOf? Toml.toText?) "build_flags" entries
    return {
      snapshot
      modulePath := modulePath.filter fun name => !(Text.trim name.toList).isEmpty
      disciplines := disciplines.map Text.distinct
      parallel
      buildFlags := buildFlags.getD [] }
  else none

/-- The settings in a value: a table, or an array with the values of the keys
    in order, of which further items are ignored. -/
def ofToml? : Toml → Option Settings
  | .table _ entries => ofEntries? entries
  | .array items => ofEntries? (keys.zip items)
  | _ => none

/-- The settings in the text of a manifest. -/
def ofText? (text : String) : Option Settings := do
  let entries ← Toml.parse? text
  if entries.all fun entry => entry.1 == "analysis" then
    return (← Toml.optional? ofToml? "analysis" entries).getD unset
  else none

end Settings

/-- Why a manifest cannot be used. -/
inductive ManifestError where
  | unreadable (path : Path)
  | malformed (path : Path)
  /-- The list of disciplines is empty. -/
  | noDiscipline (path : Path)
deriving Repr, DecidableEq

namespace ManifestError

def message : ManifestError → String
  | .unreadable path => "manifest error: failed to read " ++ path.text
  | .malformed path => "manifest error: failed to parse " ++ path.text
  | .noDiscipline path =>
    "manifest error: " ++ path.text ++ ": `analysis.variants` must not be empty"

/-- The diagnostic code of an error. -/
def code : String := "mutex_check::manifest"

end ManifestError

/-- A manifest: where it stands and what it sets. -/
structure Manifest where
  path : Path
  settings : Settings
deriving Repr, DecidableEq

namespace Manifest

/-- The snapshot file; the manifest names it as seen from its own folder. -/
def snapshot? (f : Manifest) : Option Path :=
  f.settings.snapshot.map fun text => (f.path.parent?.getD ⟨""⟩).join ⟨text⟩

/-- The manifest with a text. It has to name a discipline if it lists them. -/
def ofText (path : Path) (text : String) : Except ManifestError Manifest :=
  match Settings.ofText? text with
  | none => .error (.malformed path)
  | some settings =>
    if settings.disciplines == some [] then .error (.noDiscipline path)
    else .ok ⟨path, settings⟩

end Manifest
end LockDiscipline
