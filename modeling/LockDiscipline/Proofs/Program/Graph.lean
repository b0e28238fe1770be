import LockDiscipline.Program.Basic
import Mathlib.Data.List.Basic
import Mathlib.Data.List.Induction

/- The call graph of a snapshot. Its tables have one entry for each function, and
   an entry lists the nodes at the other ends of the edges of its node, each once
   and in the order of the first edge to it (`ofSnapshot_reflects`). An edge that
   is there already is listed at both of its ends, so to repeat it further on
   changes nothing (`Repeated.foldl_addEdge`). A node is marked when some
   instruction starts it (`isSpawned_ofSnapshot`). -/
namespace LockDiscipline.CallGraph

/-! ## Sizes -/

/-- All tables have `n` entries. -/
structure HasSize (g : CallGraph) (n : Nat) : Prop where
  callers : g.callers.size = n
  callees : g.callees.size = n
  spawned : g.spawned.size = n

theorem ofSize_hasSize (n : Nat) : (ofSize n).HasSize n :=
  ⟨Array.size_replicate, Array.size_replicate, Array.size_replicate⟩

theorem HasSize.foldl_addEdge {n : Nat} (edges : List Edge) {g : CallGraph} (h : g.HasSize n) :
    (edges.foldl addEdge g).HasSize n := by
  induction edges generalizing g with
  | nil => exact h
  | cons e edges ih =>
    apply ih
    exact ⟨by simp [addEdge, h.callers], by simp [addEdge, h.callees], h.spawned⟩

theorem HasSize.foldl_markSpawned {n : Nat} (targets : List Nat) {g : CallGraph}
    (h : g.HasSize n) : (targets.foldl markSpawned g).HasSize n := by
  induction targets generalizing g with
  | nil => exact h
  | cons target targets ih =>
    apply ih
    exact ⟨h.callers, h.callees, by simp [markSpawned, h.spawned]⟩

theorem ofSnapshot_hasSize (s : Snapshot) : (ofSnapshot s).HasSize s.functions.size :=
  ((ofSize_hasSize _).foldl_addEdge s.edges).foldl_markSpawned _

/-- Nodes that the graph does not have are called by nobody. -/
theorem HasSize.callersOf_eq_nil {n m : Nat} {g : CallGraph} (h : g.HasSize n) (hm : n ≤ m) :
    g.callersOf m = [] := by
  simp [callersOf, h.callers, hm]

/-- Nodes that the graph does not have call nobody. -/
theorem HasSize.calleesOf_eq_nil {n m : Nat} {g : CallGraph} (h : g.HasSize n) (hm : n ≤ m) :
    g.calleesOf m = [] := by
  simp [calleesOf, h.callees, hm]

/-! ## One list of nodes -/

theorem addNode_of_mem {nodes : List Nat} {n : Nat} (h : n ∈ nodes) : addNode nodes n = nodes := by
  simp [addNode, h]

theorem addNode_of_not_mem {nodes : List Nat} {n : Nat} (h : n ∉ nodes) :
    addNode nodes n = nodes ++ [n] := by
  simp [addNode, h]

/-- The nodes are those to which the edges go, `edgeTo` being the edge to a node, in the
    order of the first edge to each. -/
structure Lists (edges : List Edge) (edgeTo : Nat → Edge) (nodes : List Nat) : Prop where
  mem : ∀ n, n ∈ nodes ↔ edgeTo n ∈ edges
  order : nodes.Pairwise fun m n => edges.idxOf (edgeTo m) < edges.idxOf (edgeTo n)

namespace Lists

variable {edges : List Edge} {edgeTo : Nat → Edge} {nodes : List Nat}

theorem nil (h : ∀ n, edgeTo n ∉ edges) : Lists edges edgeTo [] := ⟨by simp [h], .nil⟩

theorem nodup (h : Lists edges edgeTo nodes) : nodes.Nodup := by
  refine h.order.imp ?_
  intro m n hlt heq
  rw [heq] at hlt
  exact Nat.lt_irrefl _ hlt

/-- The places of the first edges stay what they are when an edge is added. -/
theorem order_concat (h : Lists edges edgeTo nodes) (e : Edge) :
    nodes.Pairwise fun m n =>
      (edges ++ [e]).idxOf (edgeTo m) < (edges ++ [e]).idxOf (edgeTo n) := by
  refine h.order.imp_of_mem ?_
  intro m n hm hn hlt
  rw [List.idxOf_append_of_mem ((h.mem m).mp hm), List.idxOf_append_of_mem ((h.mem n).mp hn)]
  exact hlt

theorem skip (h : Lists edges edgeTo nodes) {e : Edge} (he : ∀ n, edgeTo n ≠ e) :
    Lists (edges ++ [e]) edgeTo nodes := by
  refine ⟨?_, h.order_concat e⟩
  intro n
  simp [h.mem n, he n]

theorem enter (h : Lists edges edgeTo nodes) (hinj : ∀ m n, edgeTo m = edgeTo n → m = n)
    (n : Nat) : Lists (edges ++ [edgeTo n]) edgeTo (addNode nodes n) := by
  by_cases hn : n ∈ nodes
  · rw [addNode_of_mem hn]
    refine ⟨?_, h.order_concat _⟩
    intro m
    rw [List.mem_append, List.mem_singleton, ← h.mem m]
    refine ⟨.inl, ?_⟩
    intro hm
    rcases hm with hm | hm
    · exact hm
    · rw [hinj m n hm]
      exact hn
  · rw [addNode_of_not_mem hn]
    refine ⟨?_, ?_⟩
    · intro m
      rw [List.mem_append, List.mem_append, h.mem m, List.mem_singleton, List.mem_singleton]
      exact or_congr_right ⟨congrArg edgeTo, hinj m n⟩
    · -- the new edge comes behind all edges to the nodes listed so far
      rw [List.pairwise_append]
      refine ⟨h.order_concat _, List.pairwise_singleton _ _, ?_⟩
      intro m hm k hk
      have hnew : edgeTo n ∉ edges := fun he => hn ((h.mem n).mpr he)
      have hold : edgeTo m ∈ edges := (h.mem m).mp hm
      rw [List.mem_singleton.mp hk, List.idxOf_append_of_mem hold, List.idxOf_append_of_notMem hnew]
      exact Nat.lt_of_lt_of_le (List.idxOf_lt_length_of_mem hold) (Nat.le_add_right _ _)

end Lists

/-! ## Both tables -/

theorem getD_modify (table : Array (List Nat)) (change : List Nat → List Nat) (i j : Nat) :
    (table.modify i change).getD j [] =
      if i = j ∧ j < table.size then change (table.getD j []) else table.getD j [] := by
  rw [Array.getD_eq_getD_getElem?, Array.getD_eq_getD_getElem?, Array.getElem?_modify]
  by_cases hi : i = j
  · by_cases hj : j < table.size <;> simp [hi, hj]
  · simp [hi]

theorem callersOf_addEdge (g : CallGraph) (e : Edge) (b : Nat) :
    (addEdge g e).callersOf b =
      if e.callee = b ∧ b < g.callers.size then addNode (g.callersOf b) e.caller
      else g.callersOf b :=
  getD_modify g.callers _ e.callee b

theorem calleesOf_addEdge (g : CallGraph) (e : Edge) (a : Nat) :
    (addEdge g e).calleesOf a =
      if e.caller = a ∧ a < g.callees.size then addNode (g.calleesOf a) e.callee
      else g.calleesOf a :=
  getD_modify g.callees _ e.caller a

/-- Every node below `n` has the ends of its edges listed. -/
structure Reflects (g : CallGraph) (n : Nat) (edges : List Edge) : Prop where
  callers : ∀ b < n, Lists edges (⟨·, b⟩) (g.callersOf b)
  callees : ∀ a < n, Lists edges (⟨a, ·⟩) (g.calleesOf a)

variable {g : CallGraph} {n : Nat} {edges : List Edge}

theorem ofSize_reflects (n : Nat) : (ofSize n).Reflects n [] := by
  refine ⟨?_, ?_⟩
  · intro b hb
    simpa [callersOf, ofSize, hb] using Lists.nil (by simp)
  · intro a ha
    simpa [calleesOf, ofSize, ha] using Lists.nil (by simp)

theorem Reflects.addEdge (h : g.Reflects n edges) (hsize : g.HasSize n) (e : Edge) :
    (addEdge g e).Reflects n (edges ++ [e]) := by
  refine ⟨?_, ?_⟩
  · intro b hb
    rw [callersOf_addEdge, hsize.callers]
    by_cases he : e.callee = b
    · subst he
      rw [if_pos ⟨rfl, hb⟩]
      exact (h.callers _ hb).enter (fun _ _ heq => (Edge.mk.inj heq).1) e.caller
    · rw [if_neg fun hand => he hand.1]
      exact (h.callers b hb).skip fun _ heq => he (congrArg Edge.callee heq).symm
  · intro a ha
    rw [calleesOf_addEdge, hsize.callees]
    by_cases he : e.caller = a
    · subst he
      rw [if_pos ⟨rfl, ha⟩]
      exact (h.callees _ ha).enter (fun _ _ heq => (Edge.mk.inj heq).2) e.callee
    · rw [if_neg fun hand => he hand.1]
      exact (h.callees a ha).skip fun _ heq => he (congrArg Edge.caller heq).symm

theorem foldl_addEdge_reflects (n : Nat) (edges : List Edge) :
    (edges.foldl CallGraph.addEdge (ofSize n)).Reflects n edges := by
  -- from the right: the first edge to a node has its place among all edges before it
  induction edges using List.reverseRecOn with
  | nil => exact ofSize_reflects n
  | append_singleton edges e ih =>
    rw [List.foldl_append]
    exact ih.addEdge ((ofSize_hasSize n).foldl_addEdge edges) e

/-- Marks leave the tables of edges alone. -/
theorem foldl_markSpawned_tables (targets : List Nat) (g : CallGraph) :
    (targets.foldl markSpawned g).callers = g.callers ∧
      (targets.foldl markSpawned g).callees = g.callees := by
  induction targets generalizing g with
  | nil => exact ⟨rfl, rfl⟩
  | cons target targets ih => exact ih (markSpawned g target)

theorem ofSnapshot_reflects (s : Snapshot) :
    (ofSnapshot s).Reflects s.functions.size s.edges := by
  have h := foldl_addEdge_reflects s.functions.size s.edges
  obtain ⟨hcallers, hcallees⟩ := foldl_markSpawned_tables (spawnTargets s)
    (s.edges.foldl CallGraph.addEdge (ofSize s.functions.size))
  refine ⟨?_, ?_⟩
  · intro b hb
    rw [ofSnapshot, callersOf, hcallers]
    exact h.callers b hb
  · intro a ha
    rw [ofSnapshot, calleesOf, hcallees]
    exact h.callees a ha

/-- The callers of a node are those that the edges name. -/
theorem mem_callersOf_ofSnapshot {s : Snapshot} {a b : Nat} :
    a ∈ (ofSnapshot s).callersOf b ↔
      b < s.functions.size ∧ ∃ e ∈ s.edges, e.caller = a ∧ e.callee = b := by
  by_cases hb : b < s.functions.size
  · rw [((ofSnapshot_reflects s).callers b hb).mem a]
    refine ⟨?_, ?_⟩
    · intro he
      exact ⟨hb, _, he, rfl, rfl⟩
    · intro he
      obtain ⟨-, e, he, rfl, rfl⟩ := he
      exact he
  · rw [(ofSnapshot_hasSize s).callersOf_eq_nil (Nat.le_of_not_lt hb)]
    simp [hb]

/-! ## Repeated edges -/

/-- The edges with some of them repeated further on. -/
inductive Repeated (edges : List Edge) : List Edge → Prop
  | same : Repeated edges edges
  | again {before after : List Edge} {e : Edge} (h : Repeated edges (before ++ after))
      (he : e ∈ before) : Repeated edges (before ++ e :: after)

theorem Repeated.mem_iff {longer : List Edge} (h : Repeated edges longer) {e : Edge} :
    e ∈ longer ↔ e ∈ edges := by
  induction h with
  | same => rfl
  | again _ he ih =>
    rw [← ih, List.mem_append, List.mem_append, List.mem_cons]
    refine or_congr_right' ?_
    intro hbefore
    exact or_iff_right fun heq => hbefore (heq ▸ he)

theorem modify_eq_self {table : Array (List Nat)} {change : List Nat → List Nat} {i : Nat}
    (h : change (table.getD i []) = table.getD i []) : table.modify i change = table := by
  refine Array.ext_getElem? ?_
  intro j
  rw [Array.getElem?_modify]
  by_cases hi : i = j
  · subst hi
    by_cases hlt : i < table.size
    · simpa [hlt] using h
    · simp [hlt]
  · rw [if_neg hi]

/-- An edge that is listed at both of its ends is not entered again. -/
theorem addEdge_of_listed {e : Edge} (hcaller : e.caller ∈ g.callersOf e.callee)
    (hcallee : e.callee ∈ g.calleesOf e.caller) : addEdge g e = g := by
  have hcallers : g.callers.modify e.callee (addNode · e.caller) = g.callers :=
    modify_eq_self (addNode_of_mem hcaller)
  have hcallees : g.callees.modify e.caller (addNode · e.callee) = g.callees :=
    modify_eq_self (addNode_of_mem hcallee)
  rw [CallGraph.addEdge, hcallers, hcallees]

theorem foldl_addEdge_again {before after : List Edge} {e : Edge} (he : e ∈ before)
    (hcaller : e.caller < n) (hcallee : e.callee < n) :
    (before ++ e :: after).foldl CallGraph.addEdge (ofSize n) =
      (before ++ after).foldl CallGraph.addEdge (ofSize n) := by
  have h := foldl_addEdge_reflects n before
  rw [List.foldl_append, List.foldl_cons, List.foldl_append,
    addEdge_of_listed (((h.callers _ hcallee).mem _).mpr he) (((h.callees _ hcaller).mem _).mpr he)]

/-- Edges that are repeated further on change no table. -/
theorem Repeated.foldl_addEdge {longer : List Edge} (h : Repeated edges longer)
    (hrange : ∀ e ∈ edges, e.caller < n ∧ e.callee < n) :
    longer.foldl CallGraph.addEdge (ofSize n) = edges.foldl CallGraph.addEdge (ofSize n) := by
  induction h with
  | same => rfl
  | again h he ih =>
    obtain ⟨hcaller, hcallee⟩ := hrange _ (h.mem_iff.mp (List.mem_append_left _ he))
    rw [foldl_addEdge_again he hcaller hcallee, ih]

/-! ## Goroutines -/

theorem isSpawned_markSpawned {target m : Nat} :
    (markSpawned g target).isSpawned m = true ↔
      g.isSpawned m = true ∨ m < g.spawned.size ∧ m = target := by
  simp only [isSpawned, markSpawned, Array.getD_eq_getD_getElem?, Array.getElem?_setIfInBounds]
  by_cases htarget : target = m
  · subst htarget
    by_cases hlt : target < g.spawned.size <;> simp [hlt]
  · simp [htarget, Ne.symm htarget]

theorem isSpawned_foldl_markSpawned {targets : List Nat} {m : Nat} :
    (targets.foldl markSpawned g).isSpawned m = true ↔
      g.isSpawned m = true ∨ m < g.spawned.size ∧ m ∈ targets := by
  induction targets generalizing g with
  | nil => simp
  | cons target targets ih =>
    have hsize : (markSpawned g target).spawned.size = g.spawned.size := by simp [markSpawned]
    rw [List.foldl_cons, ih, isSpawned_markSpawned, hsize, List.mem_cons, or_assoc, ← and_or_left]

theorem foldl_addEdge_spawned (edges : List Edge) (g : CallGraph) :
    (edges.foldl CallGraph.addEdge g).spawned = g.spawned := by
  induction edges generalizing g with
  | nil => rfl
  | cons e edges ih => exact ih (CallGraph.addEdge g e)

/-- A node is marked when it is one of the functions that are started. -/
theorem isSpawned_ofSnapshot {s : Snapshot} {m : Nat} :
    (ofSnapshot s).isSpawned m = true ↔ m < s.functions.size ∧ m ∈ spawnTargets s := by
  have hnone : (s.edges.foldl CallGraph.addEdge (ofSize s.functions.size)).isSpawned m = false := by
    rw [isSpawned, foldl_addEdge_spawned]
    by_cases hm : m < s.functions.size <;> simp [ofSize, hm]
  rw [ofSnapshot, isSpawned_foldl_markSpawned, hnone,
    ((ofSize_hasSize _).foldl_addEdge s.edges).spawned]
  simp

theorem mem_spawnTargets {s : Snapshot} {m : Nat} :
    m ∈ spawnTargets s ↔ ∃ f ∈ s.functions.toList, ∃ i ∈ f.body, ∃ site,
      i.action = .spawn site ∧ site.callee = .function m := by
  have htarget : ∀ i : Instruction, spawnTarget? i = some m ↔
      ∃ site, i.action = .spawn site ∧ site.callee = .function m := by
    intro i
    unfold spawnTarget?
    cases i.action with
    | spawn site =>
      simp only [Action.spawn.injEq, exists_eq_left']
      unfold CallSite.target?
      cases site.callee <;> simp
    | _ => simp
  simp only [spawnTargets, List.mem_flatMap, List.mem_filterMap, htarget]

end LockDiscipline.CallGraph
