import LockDiscipline.Program.Basic

/- Shared locations and the locks that guard them. A lock is addressed like the
   locations that it protects. -/
namespace LockDiscipline

/-- A package-level variable or a struct field. -/
inductive Location where
  | global (id : Nat)
  | field (ref : FieldRef)
deriving Repr, DecidableEq

namespace Location

/-- Variables come before fields, and each kind is in the order of its ids. -/
def before : Location → Location → Bool
  | .global a, .global b => a < b
  | .global _, .field _ => true
  | .field _, .global _ => false
  | .field a, .field b => a.owner < b.owner || (a.owner == b.owner && a.index < b.index)

/-- The operand as which the location stands in instructions. -/
def operand : Location → Operand
  | .global id => .global id
  | .field ref => .field ref

/-- The package that the location belongs to. -/
def package? (p : Program) : Location → Option Nat
  | .global id => p.snapshot.globals[id]?.map Global.package
  | .field ref => p.snapshot.structs[ref.owner]?.map StructType.package

/-- The name of a variable, or of a struct and its field. -/
def name? (p : Program) : Location → Option String
  | .global id => p.snapshot.globals[id]?.map Global.name
  | .field ref => do
    let owner ← p.snapshot.structs[ref.owner]?
    let field ← owner.fields[ref.index]?
    return owner.name ++ "." ++ field.name

/-- Locations are worked on in the order of package path and name. A field that
    is missing counts as one without a name. -/
def sortKey? (p : Program) (l : Location) : Option String := do
  let package ← p.snapshot.packages[← l.package? p]?
  return package.path ++ "_" ++ (l.name? p).getD ""

theorem before_irrefl (l : Location) : l.before l = false := by
  cases l <;> simp [before]

theorem before_trans {a b c : Location} (h₁ : a.before b = true) (h₂ : b.before c = true) :
    a.before c = true := by
  cases a <;> cases b <;> cases c <;> simp_all [before] <;> omega

theorem before_of_not_before {a b : Location} (h : a.before b = false) (hne : a ≠ b) :
    b.before a = true := by
  cases a with
  | global a =>
    cases b with
    | global b => simp_all [before]; omega
    | field b => simp [before] at h
  | field a =>
    cases b with
    | global b => rfl
    | field b =>
      obtain ⟨ao, ai⟩ := a
      obtain ⟨bo, bi⟩ := b
      simp_all [before]
      omega

end Location

/-- A lock and where it is declared. -/
structure Guard where
  location : Location
  kind : LockKind
  pos : Position
deriving Repr, DecidableEq

end LockDiscipline
