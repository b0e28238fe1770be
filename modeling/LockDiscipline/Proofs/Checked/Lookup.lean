import LockDiscipline.Proofs.Guard.Declared
import LockDiscipline.Proofs.Program.Graph

/- Lookups that are checked. A lookup outside its table, and an index that grows
   beyond 32 bits, break the computation off. This module has the lookups
   themselves and what is read with them about positions, locations and the
   call graph; each agrees with its unchecked counterpart where the checks on a
   snapshot say that the entry exists. -/
namespace LockDiscipline

/-- The tables of a program. -/
inductive Table where
  | packages | analyzed | files | globals | structs
  | fields (owner : Nat)
  | functions | callers | callees | spawned
deriving Repr, DecidableEq

/-- Why a computation breaks off. -/
inductive Fault where
  | missing (table : Table) (index : Nat)
  | overflow (index offset : Nat)
  /-- A walk has not come to its end. -/
  | unfinished
deriving Repr, DecidableEq

/-- A computation that breaks off at the first fault. -/
abbrev Checked := Except Fault

namespace Checked

@[simp]
theorem ok_bind {α β : Type} (a : α) (f : α → Checked β) : ((.ok a : Checked α) >>= f) = f a := rfl

@[simp]
theorem pure_eq_ok {α : Type} (a : α) : (pure a : Checked α) = .ok a := rfl

/-! ## Lists -/

section Lists

variable {α β : Type} {xs : List α}

theorem mapM_ok {f : α → Checked β} {g : α → β} (h : ∀ x ∈ xs, f x = .ok (g x)) :
    xs.mapM f = .ok (xs.map g) := by
  induction xs with
  | nil => rfl
  | cons x xs ih =>
    obtain ⟨hx, hxs⟩ := List.forall_mem_cons.mp h
    rw [List.mapM_cons, hx, ih hxs]
    rfl

theorem filterMapM_ok {f : α → Checked (Option β)} {g : α → Option β}
    (h : ∀ x ∈ xs, f x = .ok (g x)) : xs.filterMapM f = .ok (xs.filterMap g) := by
  induction xs with
  | nil => rfl
  | cons x xs ih =>
    obtain ⟨hx, hxs⟩ := List.forall_mem_cons.mp h
    rw [List.filterMapM_cons, hx, ok_bind, ih hxs]
    cases hg : g x with
    | none => rw [List.filterMap_cons_none hg]
    | some b =>
      rw [List.filterMap_cons_some hg]
      rfl

theorem flatMapM_ok {f : α → Checked (List β)} {g : α → List β} (h : ∀ x ∈ xs, f x = .ok (g x)) :
    xs.flatMapM f = .ok (xs.flatMap g) := by
  induction xs with
  | nil => rfl
  | cons x xs ih =>
    obtain ⟨hx, hxs⟩ := List.forall_mem_cons.mp h
    rw [List.flatMapM_cons, hx, ih hxs]
    rfl

theorem findSomeM?_ok {f : α → Checked (Option β)} {g : α → Option β}
    (h : ∀ x ∈ xs, f x = .ok (g x)) : xs.findSomeM? f = .ok (xs.findSome? g) := by
  induction xs with
  | nil => rfl
  | cons x xs ih =>
    obtain ⟨hx, hxs⟩ := List.forall_mem_cons.mp h
    rw [List.findSomeM?_cons, hx, ok_bind, List.findSome?_cons]
    cases g x with
    | none => exact ih hxs
    | some b => rfl

theorem foldlM_ok_of_invariant {f : β → α → Checked β} {g : β → α → β} (I : β → Prop)
    (h : ∀ b, I b → ∀ x ∈ xs, f b x = .ok (g b x) ∧ I (g b x)) {b : β} (hb : I b) :
    xs.foldlM f b = .ok (xs.foldl g b) := by
  induction xs generalizing b with
  | nil => rfl
  | cons x xs ih =>
    obtain ⟨hx, hnext⟩ := h b hb x List.mem_cons_self
    rw [List.foldlM_cons, hx, ok_bind, List.foldl_cons]
    exact ih (fun b hb y hy => h b hb y (List.mem_cons_of_mem x hy)) hnext

theorem foldlM_ok {f : β → α → Checked β} {g : β → α → β} (h : ∀ b, ∀ x ∈ xs, f b x = .ok (g b x))
    (b : β) : xs.foldlM f b = .ok (xs.foldl g b) :=
  foldlM_ok_of_invariant (fun _ => True) (fun b _ x hx => ⟨h b x hx, trivial⟩) trivial

end Lists

/-! ## Entries -/

/-- The entry `index` of a table. -/
def require {α : Type} (table : Table) (index : Nat) : Option α → Checked α
  | some a => .ok a
  | none => .error (.missing table index)

@[simp]
theorem require_some {α : Type} (table : Table) (index : Nat) (a : α) :
    require table index (some a) = .ok a := rfl

variable (p : Program)

def package (id : Nat) : Checked Package := require .packages id p.snapshot.packages[id]?

def file (id : Nat) : Checked SourceFile := require .files id p.snapshot.files[id]?

def global (id : Nat) : Checked Global := require .globals id p.snapshot.globals[id]?

def structType (id : Nat) : Checked StructType := require .structs id p.snapshot.structs[id]?

def field (ref : FieldRef) : Checked FieldInfo := do
  let owner ← structType p ref.owner
  require (.fields ref.owner) ref.index owner.fields[ref.index]?

def function (n : Nat) : Checked Function := require .functions n p.snapshot.functions[n]?

def callers (n : Nat) : Checked (List Nat) := require .callers n p.graph.callers[n]?

def isSpawned (n : Nat) : Checked Bool := require .spawned n p.graph.spawned[n]?

/-- For every package, whether it is scanned for annotations. -/
def analyzed : Array Bool :=
  p.snapshot.packages.map fun package =>
    match p.scope with
    | none => true
    | some modulePath => modulePath.toList.isPrefixOf package.path.toList

def isAnalyzed (id : Nat) : Checked Bool := require .analyzed id (analyzed p)[id]?

variable {p}

/-- A function of the program, and what is asked about it. -/
theorem function_ok {n : Nat} (h : n < p.snapshot.functions.size) :
    ∃ f, function p n = .ok f ∧ p.body n = f.body ∧ p.nodeName n = f.name ∧
      p.nodePackage? n = some f.package ∧ p.isInit n = f.isInit := by
  have hf : p.snapshot.functions[n]? = some p.snapshot.functions[n] := Array.getElem?_eq_getElem h
  refine ⟨p.snapshot.functions[n], ?_, ?_, ?_, ?_, ?_⟩
  · rw [function, hf, require_some]
  · rw [Program.body, hf]
  · rw [Program.nodeName, hf]
  · rw [Program.nodePackage?, hf, Option.map_some]
  · rw [Program.isInit, hf]

theorem callers_ok {n : Nat} (h : n < p.snapshot.functions.size) :
    callers p n = .ok (p.graph.callersOf n) := by
  have hsize : n < p.graph.callers.size := by
    rw [p.graph_eq, (CallGraph.ofSnapshot_hasSize _).callers]
    exact h
  simp [callers, CallGraph.callersOf, hsize]

theorem isSpawned_ok {n : Nat} (h : n < p.snapshot.functions.size) :
    isSpawned p n = .ok (p.graph.isSpawned n) := by
  have hsize : n < p.graph.spawned.size := by
    rw [p.graph_eq, (CallGraph.ofSnapshot_hasSize _).spawned]
    exact h
  simp [isSpawned, CallGraph.isSpawned, hsize]

theorem isAnalyzed_ok {id : Nat} (h : id < p.snapshot.packages.size) :
    isAnalyzed p id = .ok (p.inScope id) := by
  cases hscope : p.scope with
  | none => simp [isAnalyzed, analyzed, Program.inScope, hscope, h]
  | some modulePath => simp [isAnalyzed, analyzed, Program.inScope, hscope, h]

/-! ## Positions and locations -/

variable (p)

def showPosition (pos : Position) : Checked String := do
  let f ← file p pos.file
  return f.path ++ ":" ++ Nat.repr pos.line

def locationPackage : Location → Checked Nat
  | .global id => do return (← global p id).package
  | .field ref => do return (← structType p ref.owner).package

def locationName : Location → Checked String
  | .global id => do return (← global p id).name
  | .field ref => do
    let owner ← structType p ref.owner
    let field ← field p ref
    return owner.name ++ "." ++ field.name

def sortKey (l : Location) : Checked String := do
  let package ← package p (← locationPackage p l)
  return package.path ++ "_" ++ (← locationName p l)

variable {p}

theorem showPosition_ok {pos : Position} (h : p.snapshot.HasPosition pos) :
    showPosition p pos = .ok (p.showPosition pos) := by
  have hf : p.snapshot.files[pos.file]? = some p.snapshot.files[pos.file] :=
    Array.getElem?_eq_getElem h
  simp only [showPosition, file, Program.showPosition, Program.filePath, hf, require_some, ok_bind,
    pure_eq_ok]

theorem locationPackage_ok {l : Location} {id : Nat} (h : l.package? p = some id) :
    locationPackage p l = .ok id := by
  cases l with
  | global g =>
    obtain ⟨entry, hentry, rfl⟩ := Option.map_eq_some_iff.mp h
    simp [locationPackage, global, hentry]
  | field ref =>
    obtain ⟨owner, howner, rfl⟩ := Option.map_eq_some_iff.mp h
    simp [locationPackage, structType, howner]

theorem locationName_ok {l : Location} {name : String} (h : l.name? p = some name) :
    locationName p l = .ok name := by
  cases l with
  | global g =>
    obtain ⟨entry, hentry, rfl⟩ := Option.map_eq_some_iff.mp h
    simp [locationName, global, hentry]
  | field ref =>
    simp only [Location.name?, Option.bind_eq_bind, Option.bind_eq_some_iff, Option.pure_def,
      Option.some.injEq] at h
    obtain ⟨owner, howner, entry, hentry, rfl⟩ := h
    simp [locationName, field, structType, howner, hentry]

theorem sortKey_ok {l : Location} {name key : String} (hname : l.name? p = some name)
    (h : l.sortKey? p = some key) : sortKey p l = .ok key := by
  simp only [Location.sortKey?, hname, Option.getD_some, Option.bind_eq_bind,
    Option.bind_eq_some_iff, Option.pure_def, Option.some.injEq] at h
  obtain ⟨id, hid, entry, hentry, rfl⟩ := h
  simp [sortKey, package, locationPackage_ok hid, hentry, locationName_ok hname]

/-! ## The call graph -/

def addEdge (g : CallGraph) (e : Edge) : Checked CallGraph := do
  let callers ← require .callers e.callee g.callers[e.callee]?
  let callees ← require .callees e.caller g.callees[e.caller]?
  return { g with
    callers := g.callers.setIfInBounds e.callee (CallGraph.addNode callers e.caller)
    callees := g.callees.setIfInBounds e.caller (CallGraph.addNode callees e.callee) }

def markSpawned (g : CallGraph) (n : Nat) : Checked CallGraph := do
  let _ ← require .spawned n g.spawned[n]?
  return { g with spawned := g.spawned.setIfInBounds n true }

def graph (s : Snapshot) : Checked CallGraph := do
  let g ← s.edges.foldlM addEdge (.ofSize s.functions.size)
  (CallGraph.spawnTargets s).foldlM markSpawned g

theorem setIfInBounds_eq_modify {α : Type} {entries : Array α} {i : Nat} {a : α}
    (h : entries[i]? = some a) (f : α → α) :
    entries.setIfInBounds i (f a) = entries.modify i f := by
  refine Array.ext_getElem? ?_
  intro j
  rw [Array.getElem?_setIfInBounds, Array.getElem?_modify]
  by_cases hij : i = j
  · subst hij
    obtain ⟨hlt, rfl⟩ := Array.getElem?_eq_some_iff.mp h
    simp [hlt]
  · simp [hij]

theorem addEdge_ok {n : Nat} {g : CallGraph} (hg : g.HasSize n) {e : Edge} (hcaller : e.caller < n)
    (hcallee : e.callee < n) : addEdge g e = .ok (g.addEdge e) := by
  obtain ⟨callers, hcallers⟩ : ∃ callers, g.callers[e.callee]? = some callers :=
    ⟨_, Array.getElem?_eq_getElem (hg.callers.symm ▸ hcallee)⟩
  obtain ⟨callees, hcallees⟩ : ∃ callees, g.callees[e.caller]? = some callees :=
    ⟨_, Array.getElem?_eq_getElem (hg.callees.symm ▸ hcaller)⟩
  rw [addEdge, hcallers, hcallees]
  simp only [require_some, ok_bind, pure_eq_ok, CallGraph.addEdge,
    setIfInBounds_eq_modify hcallers (CallGraph.addNode · e.caller),
    setIfInBounds_eq_modify hcallees (CallGraph.addNode · e.callee)]

theorem markSpawned_ok {n : Nat} {g : CallGraph} (hg : g.HasSize n) {target : Nat}
    (h : target < n) : markSpawned g target = .ok (g.markSpawned target) := by
  have hsize : target < g.spawned.size := hg.spawned.symm ▸ h
  simp [markSpawned, CallGraph.markSpawned, hsize]

/-- Only functions of the program are started as goroutines. -/
theorem lt_of_mem_spawnTargets {target : Nat}
    (h : target ∈ CallGraph.spawnTargets p.snapshot) : target < p.snapshot.functions.size := by
  obtain ⟨f, hf, h⟩ := List.mem_flatMap.mp h
  obtain ⟨i, hi, htarget⟩ := List.mem_filterMap.mp h
  have haction := ((p.inRange.functions f hf).2 i hi).action
  unfold CallGraph.spawnTarget? at htarget
  split at htarget
  · next site hsite =>
    rw [hsite] at haction
    exact haction target htarget
  · cases htarget

/-- The call graph of a program is built without a fault. -/
theorem graph_ok (p : Program) : graph p.snapshot = .ok p.graph := by
  have hsize := CallGraph.ofSize_hasSize p.snapshot.functions.size
  have hedges := foldlM_ok_of_invariant (f := addEdge) (g := CallGraph.addEdge)
    (CallGraph.HasSize · p.snapshot.functions.size)
    (fun g hg e he =>
      ⟨addEdge_ok hg (p.inRange.edges e he).1 (p.inRange.edges e he).2, hg.foldl_addEdge [e]⟩)
    hsize
  have hspawns := foldlM_ok_of_invariant (f := markSpawned) (g := CallGraph.markSpawned)
    (CallGraph.HasSize · p.snapshot.functions.size)
    (fun g hg target h =>
      ⟨markSpawned_ok hg (lt_of_mem_spawnTargets h), hg.foldl_markSpawned [target]⟩)
    (hsize.foldl_addEdge p.snapshot.edges)
  rw [graph, hedges, ok_bind, hspawns, p.graph_eq, CallGraph.ofSnapshot]

/-- An edge that names a missing function does break it off. -/
example : graph { Snapshot.empty with edges := [⟨0, 1⟩] } = .error (.missing .callers 1) := rfl

end Checked
end LockDiscipline
