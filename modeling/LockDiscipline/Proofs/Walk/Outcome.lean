import LockDiscipline.Proofs.Walk.Verdict

/- What a walk on a program comes to, whatever it is told about the lock. It
   ends: each function is opened at most once, so that the entries it ever puts
   on its stack are the start and at most one for each place in a caller list. And
   a path that it reports is a chain of callers that fails at its last function
   and nowhere before.

   For the second, the chain that an entry carries is looked at when the entry
   is still waiting (`Climbs`): the calls of the chain go unshielded and nothing
   on it has failed, however long ago the entry was put there. -/
namespace LockDiscipline

namespace Walk

variable {t : Terrain} {start node : Nat} {chain : List Nat}

/-! ## How often the stack is popped -/

/-- More fuel changes nothing once the walk has ended. -/
theorem run_of_le {fuel more : Nat} (hle : fuel ≤ more) (w : Walk)
    (h : run t fuel w ≠ .unfinished) : run t more w = run t fuel w := by
  induction fuel generalizing more w with
  | zero =>
    obtain ⟨seen, stack⟩ := w
    cases stack with
    | nil => rw [run_nil, run_nil]
    | cons e stack => exact absurd rfl h
  | succ fuel ih =>
    obtain ⟨more, rfl⟩ : ∃ m, more = m + 1 := ⟨more - 1, by omega⟩
    obtain ⟨seen, stack⟩ := w
    cases stack with
    | nil => rw [run_nil, run_nil]
    | cons e stack =>
      obtain ⟨node, chain⟩ := e
      rw [run_cons] at h
      rw [run_cons, run_cons]
      cases hvisit : visit t ⟨seen, stack⟩ node chain with
      | inl path => rfl
      | inr w =>
        rw [hvisit] at h
        exact ih (by omega) w h

/-- The walk from `w` ends with `result` when it has popped its stack `pops`
    times, and not before. -/
def EndsAfter (t : Terrain) (w : Walk) (pops : Nat) (result : WalkResult) : Prop :=
  result ≠ .unfinished ∧
    ∀ fuel, run t fuel w = if pops ≤ fuel then result else .unfinished

/-- A walk that ends within a bound ends after some number of pops. -/
theorem exists_endsAfter {bound : Nat} {w : Walk} (h : run t bound w ≠ .unfinished) :
    ∃ pops ≤ bound, EndsAfter t w pops (run t bound w) := by
  -- the number of pops is the least fuel with which the walk ends
  have hex : ∃ n, run t n w ≠ .unfinished := ⟨bound, h⟩
  have hspec := Nat.find_spec hex
  have hmin : Nat.find hex ≤ bound := Nat.find_min' hex h
  refine ⟨Nat.find hex, hmin, h, ?_⟩
  intro fuel
  by_cases hfuel : Nat.find hex ≤ fuel
  · rw [if_pos hfuel, run_of_le hfuel w hspec, run_of_le hmin w hspec]
  · rw [if_neg hfuel]
    exact not_not.mp (Nat.find_min hex (Nat.lt_of_not_le hfuel))

theorem popBound_eq_sum (t : Terrain) (size : Nat) :
    popBound t size = 1 + ∑ n ∈ Finset.range size, (t.callers n).length := by
  rw [popBound_eq, Nat.add_comm]
  simp [latent]

/-! ## The chains that wait on the stack -/

/-- An entry on the way up from `start`: `node` calls the nearest function of
    `chain`, which leads down to `start` over calls that nobody shields and on
    which nothing has failed. -/
structure Climbs (t : Terrain) (start node : Nat) (chain : List Nat) : Prop where
  base : (node :: chain).getLast? = some start
  calls : ∀ callee ∈ chain.head?, node ∈ t.callers callee
  passes : chain.IsChain fun caller callee => t.Passes callee caller
  unfailed : t.Unfailed chain

namespace Climbs

theorem init (t : Terrain) (start : Nat) : Climbs t start start [] :=
  ⟨rfl, by simp, List.isChain_nil, List.nodup_nil, by simp⟩

variable (h : Climbs t start node chain) (unshielded : isShielded t node chain = false)
include h unshielded

/-- The node itself goes on top of the chain. -/
theorem passes_cons : (node :: chain).IsChain fun caller callee => t.Passes callee caller := by
  cases chain with
  | nil => exact List.isChain_singleton node
  | cons callee below =>
    have hcalls : node ∈ t.callers callee := h.calls callee rfl
    exact List.isChain_cons_cons.mpr ⟨⟨hcalls, unshielded⟩, h.passes⟩

/-- A node at which nothing fails leads on to its callers. -/
theorem push (goesOn : ¬ (t.Ends node ∨ node ∈ chain)) {caller : Nat}
    (hcaller : caller ∈ t.callers node) : Climbs t start caller (node :: chain) := by
  refine ⟨?_, ?_, h.passes_cons unshielded, h.unfailed.cons goesOn⟩
  · rw [List.getLast?_cons_cons]
    exact h.base
  · intro callee hcallee
    cases hcallee
    exact hcaller

/-- A node at which the chain fails completes it. -/
theorem failsAtLast (fails : t.Ends node ∨ node ∈ chain) :
    t.FailsAtLast start (node :: chain).reverse := by
  have hinit : (node :: chain).reverse.dropLast = chain.reverse := by
    rw [List.reverse_cons, List.dropLast_concat]
  refine ⟨⟨?_, ?_, ?_, ?_⟩, ?_⟩
  · rw [List.head?_reverse]
    exact h.base
  · exact List.isChain_reverse.mpr (h.passes_cons unshielded)
  · rw [hinit]
    exact List.nodup_reverse.mpr h.unfailed.1
  · intro n hn
    rw [List.getLast?_reverse] at hn
    cases hn
    rw [hinit, List.mem_reverse]
    exact fails
  · intro n hn
    rw [hinit, List.mem_reverse] at hn
    exact h.unfailed.2 n hn

end Climbs

/-- What a walk finds fails at its last node, and is marked if it comes back. -/
theorem failsAtLast_of_run_eq_found {fuel : Nat} {path : CallPath}
    (h : run t fuel (ofStart start) = .found path) :
    t.FailsAtLast start path.nodes ∧ (path.looped = true ↔ path.ComesBack) := by
  refine (run_of_invariant (I := fun w => ∀ e ∈ w.stack, Climbs t start e.1 e.2)
    (P := fun path => t.FailsAtLast start path.nodes ∧ (path.looped = true ↔ path.ComesBack))
    ?_ ?_).1 path h
  · intro seen node chain stack hstack
    obtain ⟨hentry, hrest⟩ := List.forall_mem_cons.mp hstack
    have hv := visit_spec t ⟨seen, stack⟩ node chain
    generalize visit t ⟨seen, stack⟩ node chain = result at hv
    -- only an opened node adds entries, and those stand on its own chain
    cases hv with
    | skipped _ _ => exact hrest
    | turnedAway _ _ => exact hrest
    | complete unshielded ends =>
      exact ⟨hentry.failsAtLast unshielded ends, by simp [CallPath.ComesBack]⟩
    | opened _ fresh unshielded goesOn =>
      intro e he
      rcases List.mem_append.mp he with he | he
      · obtain ⟨caller, hcaller, rfl⟩ := List.mem_map.mp he
        exact hentry.push unshielded (not_or.mpr ⟨goesOn, fresh⟩) hcaller
      · exact hrest e he
  · intro e he
    cases List.mem_singleton.mp he
    exact .init t start

end Walk

/-! ## On a program -/

namespace Program

/-- A path that fails for the location, by what is said about its lock: it goes
    up from `start` over callers that do not mention the lock or do not hold it
    across the call. All functions but the last are distinct, lie in the package
    of the location, are not started as goroutines and have callers. -/
structure FailingPath (p : Program) (l : Location) (mentions : Nat → Bool)
    (held : Nat → Nat → Bool) (start : Nat) (path : CallPath) : Prop where
  head : path.nodes.head? = some start
  calls : path.nodes.IsChain fun callee caller => caller ∈ p.graph.callersOf callee
  bare : path.nodes.IsChain fun callee caller => mentions caller = false ∨ held caller callee = false
  distinct : path.nodes.dropLast.Nodup
  inner : ∀ n ∈ path.nodes.dropLast,
    p.nodePackage? n = l.package? p ∧ p.graph.isSpawned n = false ∧ p.graph.callersOf n ≠ []
  looped : path.looped = true ↔ path.ComesBack
  last : ∀ n ∈ path.nodes.getLast?, p.EndsWay l n ∨ path.looped = true

variable (p : Program) (l : Location) (mentions : Nat → Bool) (held : Nat → Nat → Bool) (start : Nat)

theorem terrain_passes_eq :
    (p.terrain l mentions held).Passes = fun callee caller =>
      caller ∈ p.graph.callersOf callee ∧ (mentions caller = false ∨ held caller callee = false) := by
  funext callee caller
  simp only [Terrain.Passes, terrain, Bool.and_eq_false_iff]

theorem failingPath_of_failsAtLast {path : CallPath}
    (h : (p.terrain l mentions held).FailsAtLast start path.nodes)
    (looped : path.looped = true ↔ path.ComesBack) : p.FailingPath l mentions held start path := by
  have hpasses := h.passes
  rw [terrain_passes_eq, isChain_and] at hpasses
  refine ⟨h.head, hpasses.1, hpasses.2, h.distinct, ?_, looped, ?_⟩
  · intro n hn
    have hgoesOn := h.inner n hn
    rw [terrain_ends] at hgoesOn
    simpa [EndsWay] using hgoesOn
  · intro n hn
    have hlast := h.last n hn
    rw [terrain_ends] at hlast
    exact hlast.imp_right fun hm => looped.mpr ⟨n, hn, hm⟩

/-- Whatever is said about the lock, the walk from any function ends. It pops its
    stack at most once for the start and once for each place in a caller list;
    what it has come to by then is what it answers. -/
theorem walk_ends_within_callers :
    ∃ pops result,
      pops ≤ 1 + ∑ n ∈ Finset.range p.snapshot.functions.size, (p.graph.callersOf n).length ∧
      Walk.EndsAfter (p.terrain l mentions held) (.ofStart start) pops result ∧
      Walk.find? (p.terrain l mentions held) p.snapshot.functions.size start = result.path? := by
  have hends := Walk.run_ofStart_ne_unfinished (p.terrain_bounded l mentions held) start
  obtain ⟨pops, hpops, hafter⟩ := Walk.exists_endsAfter hends
  rw [Walk.popBound_eq_sum] at hpops
  exact ⟨pops, _, hpops, hafter, Walk.find?_eq _ _ _⟩

/-- Whatever is said about the lock, a path that the walk reports fails. What
    the two disciplines say is one case of this (`Discipline.terrain_eq`). -/
theorem found_path_fails {path : CallPath}
    (h : Walk.find? (p.terrain l mentions held) p.snapshot.functions.size start = some path) :
    p.FailingPath l mentions held start path := by
  obtain ⟨hfails, hlooped⟩ := Walk.failsAtLast_of_run_eq_found (Walk.run_of_find?_eq_some h)
  exact p.failingPath_of_failsAtLast l mentions held start hfails hlooped

end Program

/-- `use` touches the variable and is called by `ping`; `ping` and `pong` call
    each other, and `pong` locks and unlocks before its call. -/
def rallySnapshot : Snapshot where
  modulePath := none
  buildFlags := []
  packages := #[⟨"example.com/app", []⟩]
  files := #[⟨"app/rally.go", 0, []⟩]
  globals := #[⟨"hits", 0, .ofLine 0 1⟩, ⟨"mu", 0, .ofLine 0 2⟩]
  structs := #[]
  functions := #[
    ⟨"use", 0, false, [⟨.ofLine 0 5, none, .other [.global 0]⟩]⟩,
    ⟨"ping", 0, false,
      [⟨.ofLine 0 8, none, .call ⟨.function 0, false, []⟩⟩,
       ⟨.ofLine 0 9, none, .call ⟨.function 2, false, []⟩⟩]⟩,
    ⟨"pong", 0, false,
      [⟨.ofLine 0 12, none, .call ⟨.external "Lock", true, [.global 1]⟩⟩,
       ⟨.ofLine 0 13, none, .call ⟨.external "Unlock", true, [.global 1]⟩⟩,
       ⟨.ofLine 0 14, none, .call ⟨.function 1, false, []⟩⟩]⟩]
  edges := [⟨1, 0⟩, ⟨1, 2⟩, ⟨2, 1⟩]
  comments := [⟨.ofLine 0 2, "// hits"⟩]

def rally : Program :=
  ⟨rallySnapshot, by decide, CallGraph.ofSnapshot rallySnapshot, rfl, none⟩

/-- If no call is held to happen under the lock, the walk reports a path that
    comes back to `ping`, past a function that mentions the lock. -/
theorem rally_path_fails :
    Walk.find? (rally.terrain (.global 0)
      (fun caller => Discipline.globals.mentions (rally.body caller) (.global 1))
      fun _ _ => false) 3 0 = some ⟨[0, 1, 2, 1], true⟩ ∧
    rally.FailingPath (.global 0)
      (fun caller => Discipline.globals.mentions (rally.body caller) (.global 1))
      (fun _ _ => false) 0 ⟨[0, 1, 2, 1], true⟩ :=
  ⟨by decide, rally.found_path_fails _ _ _ _ (by decide)⟩

end LockDiscipline
