import LockDiscipline.Program.Position

/- Lock intervals of a function body. What a body does to a lock is a list of
   events in body order; an acquire opens an interval and the next release, if
   it comes before the next acquire, ends it. Positions are compared by line,
   and the lines of the acquire and of the release are outside. -/
namespace LockDiscipline

/-- What an instruction does to a lock. -/
inductive LockEventKind where
  | acquire
  | release
  /-- A release put off until the function returns. -/
  | deferredRelease
  /-- Any other mention of the lock. -/
  | other
deriving Repr, DecidableEq

/-- What happens to a lock, and where. -/
structure LockEvent where
  pos : Position
  kind : LockEventKind
deriving Repr, DecidableEq

/-- Lines on which a lock is held: those after `start` and, if there is an
    `stop`, before it. -/
structure HeldInterval where
  start : Nat
  stop : Option Nat
deriving Repr, DecidableEq

namespace HeldInterval

/-- The lock is held on `line`. -/
def covers (i : HeldInterval) (line : Nat) : Bool :=
  i.start < line &&
    match i.stop with
    | none => true
    | some stop => line < stop

/-- The line of the first release before the next acquire. -/
def releaseLine? (later : List LockEvent) : Option Nat :=
  ((later.takeWhile (·.kind != .acquire)).find? (·.kind == .release)).map (·.pos.line)

/-- Every acquire paired with its release. -/
def paired : List LockEvent → List HeldInterval
  | [] => []
  | e :: later =>
    if e.kind == .acquire then ⟨e.pos.line, releaseLine? later⟩ :: paired later
    else paired later

/-- Every acquire held to the end of the function. -/
def unending (events : List LockEvent) : List HeldInterval :=
  (events.filter (·.kind == .acquire)).map fun e => ⟨e.pos.line, none⟩

/-- The intervals of a list of events. With a deferred release anywhere, every
    acquire is held to the end of the function. -/
def ofEvents (events : List LockEvent) : List HeldInterval :=
  if events.any (·.kind == .deferredRelease) then unending events else paired events

/-- Some interval covers `line`. -/
def anyCovers (intervals : List HeldInterval) (line : Nat) : Bool :=
  intervals.any (·.covers line)

end HeldInterval
end LockDiscipline
