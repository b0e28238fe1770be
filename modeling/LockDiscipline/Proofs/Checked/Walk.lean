import LockDiscipline.Proofs.Checked.Lookup
import LockDiscipline.Proofs.Walk.Bounds

/- The walk with checked lookups, and the rendering of its chain. The walk has to
   end by itself: to run out of steps is a fault too. -/
namespace LockDiscipline.Checked

variable (d : Discipline) (p : Program) (home : Nat) (lock : Location)

def isShielded (node : Nat) : List Nat → Checked Bool
  | [] => return false
  | callee :: _ => do
    let caller ← function p node
    if d.mentions caller.body lock then
      -- the calls of the callee are looked for in a body that is fetched anew
      let caller ← function p node
      return d.callsHeld caller.body callee lock
    else return false

def visit (w : Walk) (node : Nat) (chain : List Nat) : Checked (CallPath ⊕ Walk) := do
  let looped := chain.contains node
  if w.seen.contains node && !looped then return .inr w
  else
    let w := { w with seen := if w.seen.contains node then w.seen else node :: w.seen }
    if ← isShielded d p lock node chain then return .inr w
    else
      let f ← function p node
      let spawned ← isSpawned p node
      let callers ← callers p node
      if f.package != home || spawned || callers.isEmpty || looped then
        return .inl ⟨(node :: chain).reverse, looped⟩
      else return .inr { w with stack := callers.map (·, node :: chain) ++ w.stack }

def run : Nat → Walk → Checked WalkResult
  | fuel, w =>
    match w.stack with
    | [] => return .exhausted
    | (node, chain) :: stack =>
      match fuel with
      -- running out of steps is a fault, so that no lookup is left unmade
      | 0 => .error .unfinished
      | fuel + 1 => do
        match ← visit d p home lock { w with stack := stack } node chain with
        | .inl path => return .found path
        | .inr w => run fuel w

def unprotectedPath? (l : Location) (start : Nat) : Checked (Option CallPath) := do
  let home ← locationPackage p l
  let result ← run d p home lock (Walk.popBound (d.terrain p l lock) p.snapshot.functions.size)
    (.ofStart start)
  return result.path?

def renderPath (path : CallPath) : Checked String := do
  let names ← path.nodes.mapM fun n => do return (← function p n).name
  return String.intercalate " --> " names ++ if path.looped then " [LOOP]" else ""

variable {d p home lock} {l : Location}

theorem isShielded_ok {node : Nat} (hnode : node < p.snapshot.functions.size) (chain : List Nat) :
    isShielded d p lock node chain = .ok (Walk.isShielded (d.terrain p l lock) node chain) := by
  cases chain with
  | nil => rfl
  | cons callee chain =>
    obtain ⟨f, hf, hbody, -⟩ := function_ok hnode
    rw [isShielded, hf, ok_bind, Walk.isShielded, Discipline.terrain]
    simp only [hbody, ok_bind, pure_eq_ok]
    cases d.mentions f.body lock <;> rfl

theorem visit_ok (hhome : l.package? p = some home) {w : Walk} {node : Nat}
    (hnode : node < p.snapshot.functions.size) (chain : List Nat) :
    visit d p home lock w node chain = .ok (Walk.visit (d.terrain p l lock) w node chain) := by
  obtain ⟨f, hf, -, -, hpackage, -⟩ := function_ok hnode
  have hexposed : (d.terrain p l lock).exposed node =
      (f.package != home || p.graph.isSpawned node) := by
    change (p.nodePackage? node != l.package? p || p.graph.isSpawned node) = _
    rw [hpackage, hhome]
    rfl
  have hcallers : (d.terrain p l lock).callers node = p.graph.callersOf node := rfl
  simp only [visit, Walk.visit, isShielded_ok (l := l) hnode, hf, isSpawned_ok hnode,
    callers_ok hnode, hexposed, hcallers, ok_bind, pure_eq_ok]
  split
  · rfl
  · split
    · rfl
    · split <;> rfl

theorem run_ok (hhome : l.package? p = some home) {fuel : Nat} {w : Walk}
    (hw : w.Within p.snapshot.functions.size)
    (hends : Walk.run (d.terrain p l lock) fuel w ≠ .unfinished) :
    run d p home lock fuel w = .ok (Walk.run (d.terrain p l lock) fuel w) := by
  induction fuel generalizing w with
  | zero =>
    obtain ⟨seen, _ | ⟨_, _⟩⟩ := w
    · rfl
    · exact absurd rfl hends
  | succ fuel ih =>
    obtain ⟨seen, _ | ⟨⟨node, chain⟩, stack⟩⟩ := w
    · rfl
    · obtain ⟨⟨hnode, hchain⟩, hstack⟩ := List.forall_mem_cons.mp hw
      have hnext := (Walk.visit_spec (d.terrain p l lock) ⟨seen, stack⟩ node chain).within
        (d.terrain_closed p l lock) hstack hnode hchain
      rw [Walk.run_cons] at hends
      rw [run, Walk.run_cons]
      simp only [visit_ok hhome hnode, ok_bind]
      cases hvisit : Walk.visit (d.terrain p l lock) ⟨seen, stack⟩ node chain with
      | inl path => rfl
      | inr w' =>
        rw [hvisit] at hnext hends
        exact ih hnext hends

theorem unprotectedPath?_ok (hl : p.HasOwner l) {start : Nat}
    (hstart : start < p.snapshot.functions.size) :
    unprotectedPath? d p lock l start = .ok (d.unprotectedPath? p l lock start) := by
  obtain ⟨home, hhome, -⟩ := Location.exists_package hl
  have hrun := run_ok hhome (Walk.within_ofStart hstart)
    (Walk.run_ofStart_ne_unfinished (d.terrain_bounded p l lock) start)
  rw [unprotectedPath?, locationPackage_ok hhome, ok_bind, hrun, ok_bind, pure_eq_ok,
    Discipline.unprotectedPath?, Walk.find?_eq]

theorem renderPath_ok {path : CallPath} (h : ∀ n ∈ path.nodes, n < p.snapshot.functions.size) :
    renderPath p path = .ok (path.render p) := by
  have hnames : path.nodes.mapM (fun n => do return (← function p n).name) =
      .ok (path.nodes.map p.nodeName) := by
    refine mapM_ok ?_
    intro n hn
    obtain ⟨f, hf, -, hname, -⟩ := function_ok (h n hn)
    rw [hf, hname, ok_bind, pure_eq_ok]
  rw [renderPath, hnames, ok_bind, pure_eq_ok, CallPath.render]

end LockDiscipline.Checked
