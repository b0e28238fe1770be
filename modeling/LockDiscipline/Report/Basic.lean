import LockDiscipline.Guard.Resolution
import LockDiscipline.Walk.Program

/- Reports. A violation is known by its discipline and by its signature, the
   rendered call path: recorded again, it only adds its positions. A report
   keeps an index of its violations by what they are known by, and finds the
   violation to add to there. Escapes and warnings are kept as they come. -/
namespace LockDiscipline

/-- An unprotected chain with all the uses that led to it. -/
structure Violation where
  discipline : Discipline
  location : Location
  path : CallPath
  signature : String
  positions : List Position
deriving Repr, DecidableEq

namespace Violation

/-- What a violation is known by. -/
def key (v : Violation) : Discipline × String := (v.discipline, v.signature)

/-- The first known position. -/
def primary? (v : Violation) : Option Position := v.positions.find? Position.isKnown

/-- Appends the positions that are not listed yet. -/
def addPositions (v : Violation) (more : List Position) : Violation :=
  { v with
    positions := more.foldl (fun kept pos => if kept.contains pos then kept else kept ++ [pos])
      v.positions }

end Violation

/-- A return that hands out a protected location or its lock. -/
structure Escape where
  location : Location
  node : Nat
  pos : Position
deriving Repr, DecidableEq

/-- What a check found. The index has the place of every violation in
    `violations`, under its key. -/
structure Report where
  warnings : List Warning
  violations : List Violation
  index : List ((Discipline × String) × Nat)
  index_eq : index = (violations.map Violation.key).zipIdx
  escapes : List Escape
deriving Repr, DecidableEq

namespace Report

/-- Nothing was found. -/
def empty : Report := ⟨[], [], [], rfl, []⟩

/-- The place of the violation with a discipline and a signature. -/
def indexOf? (r : Report) (d : Discipline) (signature : String) : Option Nat :=
  r.index.lookup (d, signature)

theorem map_key_modify (vs : List Violation) (place : Nat) (more : List Position) :
    (vs.modify place (·.addPositions more)).map Violation.key = vs.map Violation.key := by
  induction vs generalizing place with
  | nil => cases place <;> rfl
  | cons v vs ih =>
    cases place with
    | zero => rfl
    | succ place => rw [List.modify_succ_cons, List.map_cons, List.map_cons, ih]

/-- Adds positions to the violation at a place. -/
def extend (r : Report) (place : Nat) (more : List Position) : Report :=
  { r with
    violations := r.violations.modify place (·.addPositions more)
    index_eq := by rw [map_key_modify, r.index_eq] }

/-- Adds a violation of a new key at the end. -/
def push (r : Report) (v : Violation) : Report :=
  { r with
    violations := r.violations ++ [v]
    index := r.index ++ [(v.key, r.violations.length)]
    index_eq := by
      rw [r.index_eq, List.map_append, List.zipIdx_append, List.length_map, Nat.zero_add]
      rfl }

/-- Adds a violation: its positions to the one of the same key, or all of it. -/
def insert (r : Report) (v : Violation) : Report :=
  match r.indexOf? v.discipline v.signature with
  | some place => r.extend place v.positions
  | none => r.push v

@[simp]
theorem warnings_insert (r : Report) (v : Violation) : (r.insert v).warnings = r.warnings := by
  unfold insert
  cases r.indexOf? v.discipline v.signature <;> rfl

@[simp]
theorem escapes_insert (r : Report) (v : Violation) : (r.insert v).escapes = r.escapes := by
  unfold insert
  cases r.indexOf? v.discipline v.signature <;> rfl

/-- Adds a failing chain of a program. -/
def recordViolation (p : Program) (r : Report) (d : Discipline) (l : Location) (path : CallPath)
    (positions : List Position) : Report :=
  r.insert ⟨d, l, path, path.render p, positions⟩

/-- Adds an escape. -/
def recordEscape (r : Report) (e : Escape) : Report := { r with escapes := r.escapes ++ [e] }

/-- Adds a warning. -/
def recordWarning (r : Report) (w : Warning) : Report := { r with warnings := r.warnings ++ [w] }

/-- Adds all that another report holds. -/
def merge (r other : Report) : Report :=
  { other.violations.foldl insert r with
    warnings := r.warnings ++ other.warnings
    escapes := r.escapes ++ other.escapes }

/-- Neither violations nor escapes were found. -/
def isClean (r : Report) : Bool := r.violations.isEmpty && r.escapes.isEmpty

end Report
end LockDiscipline
