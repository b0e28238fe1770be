import LockDiscipline.Analysis
import LockDiscipline.Proofs.Program.Graph
import LockDiscipline.Proofs.Program.Growth

/- What a program takes from its edges. All edges of an accepted program have both
   ends in range, so each of them is listed from either end, and the two tables of
   the call graph say the same (`lists_callers`, `lists_callees`). Nothing but the
   call graph is made from the edges. So edges that are repeated leave a program that
   is accepted with the same graph and checked with the same report
   (`call_graph_consistent`). -/
namespace LockDiscipline

namespace Program

variable (p : Program)

/-! ## Neighbours -/

theorem lists_callers (b : Nat) :
    CallGraph.Lists p.snapshot.edges (⟨·, b⟩) (p.graph.callersOf b) := by
  rw [p.graph_eq]
  by_cases hb : b < p.snapshot.functions.size
  · exact (CallGraph.ofSnapshot_reflects p.snapshot).callers b hb
  · rw [(CallGraph.ofSnapshot_hasSize _).callersOf_eq_nil (Nat.le_of_not_lt hb)]
    apply CallGraph.Lists.nil
    intro a he
    exact hb (p.inRange.edges _ he).2

theorem lists_callees (a : Nat) :
    CallGraph.Lists p.snapshot.edges (⟨a, ·⟩) (p.graph.calleesOf a) := by
  rw [p.graph_eq]
  by_cases ha : a < p.snapshot.functions.size
  · exact (CallGraph.ofSnapshot_reflects p.snapshot).callees a ha
  · rw [(CallGraph.ofSnapshot_hasSize _).calleesOf_eq_nil (Nat.le_of_not_lt ha)]
    apply CallGraph.Lists.nil
    intro b he
    exact ha (p.inRange.edges _ he).1

theorem isSpawned_iff (b : Nat) :
    p.graph.isSpawned b = true ↔ ∃ f ∈ p.snapshot.functions.toList, ∃ i ∈ f.body, ∃ site,
      i.action = .spawn site ∧ site.callee = .function b := by
  rw [p.graph_eq, CallGraph.isSpawned_ofSnapshot, CallGraph.mem_spawnTargets]
  refine and_iff_right_of_imp ?_
  intro h
  obtain ⟨f, hf, i, hi, site, haction, hcallee⟩ := h
  have hnamed := ((p.inRange.functions f hf).2 i hi).action
  rw [haction] at hnamed
  exact hnamed b (by simp [CallSite.target?, hcallee])

/-! ## Repeated edges -/

variable {p} {longer : List Edge}

/-- A snapshot stays consistent when edges are repeated. -/
theorem sound_of_repeated (h : CallGraph.Repeated p.snapshot.edges longer) :
    Snapshot.fault? { p.snapshot with edges := longer } = none := by
  have hsound := Snapshot.fault?_eq_none_iff.mp p.sound
  have hwithin : p.snapshot.Within { p.snapshot with edges := longer } :=
    hsound.inRange.within { Snapshot.Grows.refl p.snapshot with }
  refine Snapshot.fault?_eq_none_iff.mpr { hsound with inRange := ?_ }
  refine Snapshot.within_self_iff.mp { hwithin with edges := ?_ }
  intro e he
  exact hsound.inRange.edges e (h.mem_iff.mp he)

theorem graph_of_repeated (h : CallGraph.Repeated p.snapshot.edges longer) :
    CallGraph.ofSnapshot { p.snapshot with edges := longer } = p.graph := by
  have hgraph := h.foldl_addEdge p.inRange.edges
  rw [p.graph_eq, CallGraph.ofSnapshot, CallGraph.ofSnapshot]
  exact congrArg (List.foldl CallGraph.markSpawned · (CallGraph.spawnTargets p.snapshot)) hgraph

/-- A check looks at the call graph and not at the edges. -/
theorem check_of_same_graph {q : Program}
    (hsnapshot : q.snapshot = { p.snapshot with edges := longer }) (hgraph : q.graph = p.graph)
    (hscope : q.scope = p.scope) (ds : List Discipline) : q.check ds = p.check ds := by
  obtain ⟨s, sound, graph, graph_eq, scope⟩ := q
  subst hsnapshot hgraph hscope
  rfl

end Program

/-- In the call graph of an accepted program, a node is among the callers of another
    exactly when the other is among its callees, and that is when there is an edge from
    the one to the other. No list has a node twice, and the nodes stand in the order of
    the first edges to them. The nodes that are marked are those that some instruction
    starts as goroutines. If edges are repeated further on, the program is accepted with
    the same graph, and every check of it gives the same report. -/
theorem call_graph_consistent (p : Program) :
    (∀ a b, (a ∈ p.graph.callersOf b ↔ b ∈ p.graph.calleesOf a) ∧
      (b ∈ p.graph.calleesOf a ↔ ⟨a, b⟩ ∈ p.snapshot.edges)) ∧
    (∀ b, (p.graph.callersOf b).Nodup ∧ (p.graph.callersOf b).Pairwise fun a a' =>
      p.snapshot.edges.idxOf ⟨a, b⟩ < p.snapshot.edges.idxOf ⟨a', b⟩) ∧
    (∀ a, (p.graph.calleesOf a).Nodup ∧ (p.graph.calleesOf a).Pairwise fun b b' =>
      p.snapshot.edges.idxOf ⟨a, b⟩ < p.snapshot.edges.idxOf ⟨a, b'⟩) ∧
    (∀ b, p.graph.isSpawned b = true ↔
      ∃ f ∈ p.snapshot.functions.toList, ∃ i ∈ f.body, ∃ site,
        i.action = .spawn site ∧ site.callee = .function b) ∧
    ∀ longer, CallGraph.Repeated p.snapshot.edges longer →
      ∃ q, Program.ofSnapshot { p.snapshot with edges := longer } = .ok q ∧ q.graph = p.graph ∧
        ∀ ds, Program.check { q with scope := p.scope } ds = p.check ds := by
  refine ⟨?_, ?_, ?_, p.isSpawned_iff, ?_⟩
  · intro a b
    have hcallees := (p.lists_callees a).mem b
    exact ⟨((p.lists_callers b).mem a).trans hcallees.symm, hcallees⟩
  · intro b
    exact ⟨(p.lists_callers b).nodup, (p.lists_callers b).order⟩
  · intro a
    exact ⟨(p.lists_callees a).nodup, (p.lists_callees a).order⟩
  · intro longer h
    have hsound := Program.sound_of_repeated h
    obtain ⟨q, hq⟩ := Program.exists_ofSnapshot_eq_ok_iff.mpr hsound
    have hsnapshot := (Program.ofSnapshot_eq_ok hq).1
    have hgraph : q.graph = p.graph := by
      rw [q.graph_eq, hsnapshot, Program.graph_of_repeated h]
    exact ⟨q, hq, hgraph, Program.check_of_same_graph hsnapshot hgraph rfl⟩

/-- `main` starts `serve` and calls `log`, and `serve` calls `log`. -/
def serverSnapshot : Snapshot where
  modulePath := none
  buildFlags := []
  packages := #[⟨"example.com/app", []⟩]
  files := #[⟨"app/server.go", 0, []⟩]
  globals := #[]
  structs := #[]
  functions := #[
    ⟨"main", 0, false,
      [⟨.ofLine 0 3, none, .spawn ⟨.function 1, false, []⟩⟩,
       ⟨.ofLine 0 4, none, .call ⟨.function 2, false, []⟩⟩]⟩,
    ⟨"serve", 0, false, [⟨.ofLine 0 8, none, .call ⟨.function 2, false, []⟩⟩]⟩,
    ⟨"log", 0, false, []⟩]
  edges := [⟨0, 1⟩, ⟨1, 2⟩, ⟨0, 2⟩]
  comments := []

def server : Program :=
  ⟨serverSnapshot, by decide, CallGraph.ofSnapshot serverSnapshot, rfl, none⟩

/-- The edges of `server`, two of them repeated. -/
def serverEdges : List Edge := [⟨0, 1⟩, ⟨1, 2⟩, ⟨0, 1⟩, ⟨0, 2⟩, ⟨1, 2⟩]

theorem server_repeated_edges :
    CallGraph.Repeated server.snapshot.edges serverEdges ∧
    (∃ q, Program.ofSnapshot { server.snapshot with edges := serverEdges } = .ok q ∧
      q.graph = server.graph) ∧
    server.graph.callersOf 2 = [1, 0] := by
  have honce : CallGraph.Repeated server.snapshot.edges ([⟨0, 1⟩, ⟨1, 2⟩] ++ ⟨0, 1⟩ :: [⟨0, 2⟩]) :=
    .again .same (by decide)
  have htwice : CallGraph.Repeated server.snapshot.edges
      ([⟨0, 1⟩, ⟨1, 2⟩, ⟨0, 1⟩, ⟨0, 2⟩] ++ ⟨1, 2⟩ :: []) :=
    .again honce (by decide)
  obtain ⟨q, hq, hgraph, -⟩ := (call_graph_consistent server).2.2.2.2 serverEdges htwice
  exact ⟨htwice, ⟨q, hq, hgraph⟩, by decide⟩

end LockDiscipline
