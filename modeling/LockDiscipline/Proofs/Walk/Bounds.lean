import LockDiscipline.Proofs.Program.Graph
import LockDiscipline.Proofs.Program.Ranges
import LockDiscipline.Proofs.Walk.Search
import LockDiscipline.Walk.Program

/- A walk on a program stays among the functions of the program: it starts at
   one of them, and callers come from edges. What a walk is told about the lock
   does not matter to this, so that `Program.terrain` leaves it open. -/
namespace LockDiscipline

/-- Callers are below `size`. -/
def Terrain.Closed (t : Terrain) (size : Nat) : Prop := ∀ n, ∀ m ∈ t.callers n, m < size

/-- The terrain of a program for a location, with any answers to the questions
    about its lock: whether a caller mentions it, and whether the calls that a
    caller makes of a callee are held to happen under it. -/
def Program.terrain (p : Program) (l : Location) (mentions : Nat → Bool)
    (held : Nat → Nat → Bool) : Terrain where
  callers := p.graph.callersOf
  exposed node := p.nodePackage? node != l.package? p || p.graph.isSpawned node
  shields caller callee := mentions caller && held caller callee

/-- A discipline has its own answers. -/
theorem Discipline.terrain_eq (d : Discipline) (p : Program) (l lock : Location) :
    d.terrain p l lock = p.terrain l (fun caller => d.mentions (p.body caller) lock)
      fun caller callee => d.callsHeld (p.body caller) callee lock := rfl

theorem Program.terrain_bounded (p : Program) (l : Location) (mentions : Nat → Bool)
    (held : Nat → Nat → Bool) : (p.terrain l mentions held).Bounded p.snapshot.functions.size := by
  intro n hn
  change p.graph.callersOf n = []
  rw [p.graph_eq]
  exact (CallGraph.ofSnapshot_hasSize p.snapshot).callersOf_eq_nil hn

theorem Discipline.terrain_bounded (d : Discipline) (p : Program) (l lock : Location) :
    (d.terrain p l lock).Bounded p.snapshot.functions.size := by
  rw [terrain_eq]
  exact p.terrain_bounded l _ _

theorem Discipline.terrain_closed (d : Discipline) (p : Program) (l lock : Location) :
    (d.terrain p l lock).Closed p.snapshot.functions.size := by
  intro n m hm
  have hm : m ∈ p.graph.callersOf n := hm
  rw [p.graph_eq, CallGraph.mem_callersOf_ofSnapshot] at hm
  obtain ⟨-, e, he, rfl, -⟩ := hm
  exact (p.inRange.edges e he).1

namespace Walk

variable {t : Terrain} {size : Nat}

/-- All nodes that the walk is still to look at, with their chains, are below
    `size`. -/
def Within (size : Nat) (w : Walk) : Prop := ∀ e ∈ w.stack, e.1 < size ∧ ∀ n ∈ e.2, n < size

theorem within_ofStart {start : Nat} (h : start < size) : (ofStart start).Within size := by
  simpa [Within, ofStart] using h

theorem Visit.within (ht : t.Closed size) {w : Walk} {node : Nat} {chain : List Nat}
    {result : CallPath ⊕ Walk} (h : Visit t w node chain result) (hw : w.Within size)
    (hnode : node < size) (hchain : ∀ n ∈ chain, n < size) :
    result.elim (fun path => ∀ n ∈ path.nodes, n < size) (Within size) := by
  have hnodes : ∀ n ∈ node :: chain, n < size := List.forall_mem_cons.mpr ⟨hnode, hchain⟩
  cases h with
  | skipped _ _ => exact hw
  | turnedAway _ _ => exact hw
  | complete _ _ =>
    intro n hn
    rw [List.mem_reverse] at hn
    exact hnodes n hn
  | opened _ _ _ _ =>
    intro e he
    rcases List.mem_append.mp he with he | he
    · obtain ⟨m, hm, rfl⟩ := List.mem_map.mp he
      exact ⟨ht node m hm, hnodes⟩
    · exact hw e he

theorem lt_of_run_eq_found (ht : t.Closed size) {fuel : Nat} {w : Walk} (hw : w.Within size)
    {path : CallPath} (h : run t fuel w = .found path) : ∀ n ∈ path.nodes, n < size := by
  refine (run_of_invariant (I := Within size) (P := fun path => ∀ n ∈ path.nodes, n < size) ?_
    hw).1 path h
  intro seen node chain stack hw
  obtain ⟨⟨hnode, hchain⟩, hstack⟩ := List.forall_mem_cons.mp hw
  exact (visit_spec t ⟨seen, stack⟩ node chain).within ht hstack hnode hchain

end Walk

theorem Discipline.lt_of_mem_unprotectedPath? {d : Discipline} {p : Program} {l lock : Location}
    {start : Nat} (hstart : start < p.snapshot.functions.size) {path : CallPath}
    (h : d.unprotectedPath? p l lock start = some path) :
    ∀ n ∈ path.nodes, n < p.snapshot.functions.size :=
  Walk.lt_of_run_eq_found (d.terrain_closed p l lock) (Walk.within_ofStart hstart)
    (Walk.run_of_find?_eq_some h)

end LockDiscipline
