import LockDiscipline.Guard.Interval
import LockDiscipline.Guard.Location
import LockDiscipline.Program.Derivation

/- The two disciplines: package-level variables guarded by a package-level
   lock, and struct fields guarded by a lock in the same struct. They differ in
   what counts as a use of a location, in what counts as an event of a lock,
   and in when a caller is trusted to hold the lock across a call. -/
namespace LockDiscipline

inductive Discipline where
  | globals
  | fields
deriving Repr, DecidableEq

namespace Discipline

/-- Both disciplines, in the order in which they are checked. -/
def all : List Discipline := [.globals, .fields]

def name : Discipline → String
  | .globals => "globals"
  | .fields => "fields"

/-- The discipline that a name stands for; each has a second, longer name. -/
def ofName? : String → Option Discipline
  | "globals" | "global_variable" => some .globals
  | "fields" | "struct_field" => some .fields
  | _ => none

/-- What a call on a lock does. -/
def callEvent (site : CallSite) : LockEventKind :=
  match site.externalName? with
  | some "Lock" | some "RLock" => .acquire
  | some "Unlock" | some "RUnlock" => .release
  | _ => .other

/-- What a deferred call on a lock does. -/
def deferEvent (site : CallSite) : LockEventKind :=
  match site.externalName? with
  | some "Unlock" | some "RUnlock" => .deferredRelease
  | _ => .other

/-- The instruction reads, writes or takes the address of the location. -/
def uses (d : Discipline) (i : Instruction) (l : Location) : Bool :=
  match d, l with
  | .globals, .global id => i.refersTo id
  | .fields, .field ref =>
    match i.action with
    | .fieldAddr _ field => field == ref
    | _ => false
  | _, _ => false

/-- What the instruction does to the lock, if it mentions it. -/
def event? (d : Discipline) (i : Instruction) (lock : Location) : Option LockEventKind :=
  match d, lock with
  | .globals, .global id =>
    if i.refersTo id then
      match i.action with
      | .call site => some (callEvent site)
      | .defer site => some (deferEvent site)
      | _ => some .other
    else none
  | .fields, .field ref =>
    match i.action with
    | .call site => if site.receiver? = some (.field ref) then some (callEvent site) else none
    | .defer site => if site.receiver? = some (.field ref) then some (deferEvent site) else none
    | .fieldAddr _ field => if field = ref then some .other else none
    | _ => none
  | _, _ => none

/-- The events of the lock at known positions, in body order. -/
def events (d : Discipline) (body : List Instruction) (lock : Location) : List LockEvent :=
  (body.filter (·.pos.isKnown)).filterMap fun i =>
    (d.event? i lock).map fun kind => ⟨i.pos, kind⟩

/-- The intervals of the lock in a body. -/
def intervals (d : Discipline) (body : List Instruction) (lock : Location) : List HeldInterval :=
  HeldInterval.ofEvents (d.events body lock)

/-- The body mentions the lock, be it at an unknown position. -/
def mentions (d : Discipline) (body : List Instruction) (lock : Location) : Bool :=
  body.any fun i => (d.event? i lock).isSome

/-- The instruction calls `callee` on the spot. -/
def callsNode (callee : Nat) (i : Instruction) : Bool :=
  i.call?.bind CallSite.target? == some callee

/-- The calls of `callee` in a body that mentions the lock are taken to happen
    under the lock. For variables the mention is enough; for fields every call
    at a known position has to be inside an interval. -/
def callsHeld (d : Discipline) (body : List Instruction) (callee : Nat) (lock : Location) :
    Bool :=
  match d with
  | .globals => true
  | .fields =>
    let held := d.intervals body lock
    (body.filter fun i => i.pos.isKnown && callsNode callee i).all fun i =>
      HeldInterval.anyCovers held i.pos.line

/-- The positions, if known, where a body uses the location outside the
    intervals of the lock. -/
def unprotected (d : Discipline) (body : List Instruction) (lock l : Location) :
    List Position :=
  let held := d.intervals body lock
  ((body.filter fun i => i.pos.isKnown && d.uses i l).map Instruction.pos).filter
    fun pos => !HeldInterval.anyCovers held pos.line

end Discipline

/-- The instruction hands the location or its lock back to the caller, directly
    or as a value derived from it. -/
def Instruction.releases (body : List Instruction) (i : Instruction) (l lock : Location) : Bool :=
  match i.action with
  | .ret results =>
    (results.flatMap (Derivation.roots body)).any fun root =>
      root == l.operand || root == lock.operand
  | _ => false

end LockDiscipline
