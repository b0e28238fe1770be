import LockDiscipline.Proofs.Analysis.Escapes
import LockDiscipline.Proofs.Guard.Binding
import LockDiscipline.Proofs.Guard.Interval
import LockDiscipline.Proofs.Program.Growth
import LockDiscipline.Proofs.Report.Merge
import LockDiscipline.Proofs.Walk.Verdict

/- A program in which some function takes a lock once more. The new instruction
   covers more lines of its function, and it makes the function one that
   mentions the lock, so that fewer chains of callers fail. Both can only remove
   breaches (`Breach.Occurs.of_lockCall`). What is guarded, the warnings and the
   escapes stay as they are. -/
namespace LockDiscipline

/-! ## One more instruction -/

namespace Snapshot

/-- The snapshot with `i` put in at a place of the body of a function; a place
    past the end stands for the end. -/
def putIn (s : Snapshot) (node place : Nat) (i : Instruction) : Snapshot :=
  { s with
    functions := s.functions.modify node fun f =>
      { f with body := f.body.take place ++ i :: f.body.drop place } }

variable (s : Snapshot) (node place : Nat) (i : Instruction)

theorem size_putIn : (s.putIn node place i).functions.size = s.functions.size := Array.size_modify

variable {s node place i}

theorem InRange.putIn (h : s.InRange) (hi : s.HasInstruction i) :
    (s.putIn node place i).InRange := by
  refine h.editBody node (fun body => body.take place ++ i :: body.drop place) ?_
  intro body j hj
  simp only [List.mem_append, List.mem_cons] at hj
  rcases hj with hj | rfl | hj
  · exact .inl (List.mem_of_mem_take hj)
  · exact .inr hi
  · exact .inl (List.mem_of_mem_drop hj)

/-- A snapshot stays sound when all that the new instruction names exists. -/
theorem fault?_putIn (h : s.fault? = none) (hi : s.HasInstruction i) :
    (s.putIn node place i).fault? = none := by
  have hsound := fault?_eq_none_iff.mp h
  exact fault?_eq_none_iff.mpr { hsound with inRange := hsound.inRange.putIn hi }

end Snapshot

namespace Program

/-- The program with `i` put in at a place of the body of a function. -/
def putIn (p : Program) (node place : Nat) (i : Instruction) (hi : p.snapshot.HasInstruction i) :
    Program where
  snapshot := p.snapshot.putIn node place i
  sound := Snapshot.fault?_putIn p.sound hi
  graph := CallGraph.ofSnapshot (p.snapshot.putIn node place i)
  graph_eq := rfl
  scope := p.scope

variable (p : Program) (node place : Nat) {i : Instruction} (hi : p.snapshot.HasInstruction i)

theorem getElem?_putIn (n : Nat) :
    (p.putIn node place i hi).snapshot.functions[n]? =
      if node = n then p.snapshot.functions[n]?.map fun f =>
        { f with body := f.body.take place ++ i :: f.body.drop place }
      else p.snapshot.functions[n]? := Array.getElem?_modify

/-- Each body is as it was, or has the instruction put in somewhere. -/
theorem body_putIn (n : Nat) :
    (p.putIn node place i hi).body n = p.body n ∨
      ∃ before after, p.body n = before ++ after ∧
        (p.putIn node place i hi).body n = before ++ i :: after := by
  unfold body
  rw [getElem?_putIn]
  cases hf : p.snapshot.functions[n]? with
  | none => simp
  | some f =>
    by_cases hn : node = n
    · right
      exact ⟨f.body.take place, f.body.drop place, (List.take_append_drop _ _).symm, by simp [hn]⟩
    · simp [hn]

theorem isInit_putIn (n : Nat) : (p.putIn node place i hi).isInit n = p.isInit n := by
  unfold isInit
  rw [getElem?_putIn]
  cases p.snapshot.functions[n]? <;> by_cases hn : node = n <;> simp [hn]

theorem nodePackage?_putIn (n : Nat) :
    (p.putIn node place i hi).nodePackage? n = p.nodePackage? n := by
  unfold nodePackage?
  rw [getElem?_putIn]
  cases p.snapshot.functions[n]? <;> by_cases hn : node = n <;> simp [hn]

theorem checkedNodes_putIn : (p.putIn node place i hi).checkedNodes = p.checkedNodes := by
  have hsize : (p.putIn node place i hi).snapshot.functions.size = p.snapshot.functions.size :=
    Snapshot.size_putIn ..
  unfold checkedNodes nodes
  rw [hsize]
  exact List.filter_congr fun n _ => by rw [isInit_putIn]

theorem mem_body_putIn {n : Nat} {j : Instruction} (hj : j ∈ p.body n) :
    j ∈ (p.putIn node place i hi).body n := by
  rcases p.body_putIn node place hi n with h | ⟨before, after, hp, hq⟩
  · rwa [h]
  · rw [hp] at hj
    rw [hq]
    simp only [List.mem_append, List.mem_cons] at hj ⊢
    exact hj.imp_right .inr

end Program

theorem CallGraph.spawnTargets_putIn {s : Snapshot} {node place : Nat} {i : Instruction}
    (hi : spawnTarget? i = none) : spawnTargets (s.putIn node place i) = spawnTargets s := by
  have hbody : ∀ f : Function, (f.body.take place ++ i :: f.body.drop place).filterMap spawnTarget? =
      f.body.filterMap spawnTarget? := by
    intro f
    rw [List.filterMap_append, List.filterMap_cons_none hi, ← List.filterMap_append,
      List.take_append_drop]
  rw [spawnTargets, spawnTargets, List.flatMap_def, List.flatMap_def]
  congr 1
  refine List.ext_getElem? ?_
  intro n
  rw [Snapshot.putIn, Array.toList_modify, List.getElem?_map, List.getElem?_map,
    List.getElem?_modify]
  cases s.functions.toList[n]? with
  | none => rfl
  | some f => by_cases hn : node = n <;> simp [hn, hbody]

/-- An instruction that starts nothing leaves the call graph as it is. -/
theorem Program.graph_putIn (p : Program) (node place : Nat) {i : Instruction}
    (hi : p.snapshot.HasInstruction i) (hspawn : CallGraph.spawnTarget? i = none) :
    (p.putIn node place i hi).graph = p.graph := by
  rw [p.graph_eq]
  show CallGraph.ofSnapshot (p.snapshot.putIn node place i) = _
  unfold CallGraph.ofSnapshot
  rw [CallGraph.spawnTargets_putIn hspawn, Snapshot.size_putIn]
  rfl

/-! ## One more lock -/

/-- The instruction calls the method `name` of the variable `g`. -/
def lockCall (pos : Position) (name : String) (g : Nat) : Instruction :=
  ⟨pos, none, .call ⟨.external name, true, [.global g]⟩⟩

theorem refersTo_lockCall {pos : Position} {name : String} {g x : Nat} :
    (lockCall pos name g).refersTo x = true ↔ x = g := by
  simp [Instruction.refersTo, Instruction.operands, Action.operands, lockCall]

theorem hasInstruction_lockCall {s : Snapshot} {pos : Position} {name : String} {g : Nat}
    (hpos : s.HasPosition pos) (hg : g < s.globals.size) :
    s.HasInstruction (lockCall pos name g) := by
  refine ⟨hpos, ?_, ?_⟩
  · intro op hop
    rw [List.mem_singleton.mp hop]
    exact hg
  · intro node hnode
    cases hnode

/-- Taking a lock never releases one. -/
theorem event?_lockCall_ne_release {pos : Position} {name : String} {g : Nat} (lock : Location)
    (hname : name = "Lock" ∨ name = "RLock") :
    Discipline.globals.event? (lockCall pos name g) lock ≠ some .release := by
  intro hevent
  cases lock with
  | field ref => cases hevent
  | global x =>
    rw [Discipline.event?] at hevent
    split at hevent
    · rcases hname with rfl | rfl <;> cases hevent
    · cases hevent

/-- For variables, what is guarded is a variable and so is its lock. -/
theorem Discipline.globals_guards {p : Program} {l : Location} {guard : Guard}
    (h : (l, guard) ∈ (Discipline.globals.resolve p).guards.entries) :
    ∃ x lock, l = .global x ∧ guard.location = .global lock := by
  obtain ⟨site, decl, hdecl, hguard, name, hname⟩ := exists_declares .globals p h
  cases hdecl with
  | var _ _ _ _ _ _ names =>
    obtain ⟨x, -, hx⟩ := (names name l).mp hname
    exact ⟨x, _, hx, congrArg Guard.location hguard.symm⟩

namespace Program

variable {p : Program} {node place : Nat} {i : Instruction} {hi : p.snapshot.HasInstruction i}

/-- A chain that still fails has failed before. -/
theorem BareChain.of_putIn {x lock start : Nat} {nodes : List Nat}
    (hspawn : CallGraph.spawnTarget? i = none)
    (h : (p.putIn node place i hi).BareChain x lock start nodes) :
    p.BareChain x lock start nodes := by
  have hgraph := p.graph_putIn node place hi hspawn
  have hends : ∀ n, (p.putIn node place i hi).EndsWay (.global x) n ↔ p.EndsWay (.global x) n := by
    intro n
    unfold EndsWay
    rw [nodePackage?_putIn, hgraph]
    rfl
  refine ⟨h.head, ?_, ?_, h.distinct, ?_, ?_⟩
  · rw [← hgraph]
    exact h.calls
  · intro n hn j hj
    exact h.bare n hn j (p.mem_body_putIn node place hi hj)
  · intro n hn
    rw [← hends]
    exact h.inner n hn
  · intro n hn
    rw [← hends]
    exact h.last n hn

theorem unprotectedPath?_of_putIn {x lock start : Nat} {path : CallPath}
    (hspawn : CallGraph.spawnTarget? i = none)
    (h : Discipline.globals.unprotectedPath? (p.putIn node place i hi) (.global x) (.global lock)
      start = some path) :
    ∃ path', Discipline.globals.unprotectedPath? p (.global x) (.global lock) start =
      some path' := by
  rw [← Option.isSome_iff_exists, Option.isSome_iff_ne_none]
  intro hnone
  have hchain := (bareChain_of_eq_some _ x lock start h).1
  exact not_bareChain_of_eq_none p x lock start hnone _ (hchain.of_putIn hspawn)

/-- An instruction that neither uses the location nor releases its lock leaves no
    new use of the location outside the lock. -/
theorem unprotected_putIn (p : Program) (node place : Nat) {i : Instruction}
    (hi : p.snapshot.HasInstruction i) {d : Discipline} {l lock : Location}
    (huses : d.uses i l = false) (hevent : d.event? i lock ≠ some .release) (n : Nat) :
    (d.unprotected ((p.putIn node place i hi).body n) lock l).Sublist
      (d.unprotected (p.body n) lock l) := by
  rcases p.body_putIn node place hi n with h | ⟨before, after, hp, hq⟩
  · rw [h]
  · rw [hp, hq]
    exact d.unprotected_insert lock l huses hevent

/-- What guards what, and what is returned, stays as it is. -/
theorem sameFlow_putIn (d : Discipline) (hcarries : i.carries = false) :
    d.SameFlow (p.putIn node place i hi) p where
  guards := rfl
  keys _ _ := rfl
  nodes := p.checkedNodes_putIn node place hi
  flow n := by
    rcases p.body_putIn node place hi n with h | ⟨before, after, hp, hq⟩
    · rw [h]
    · rw [hp, hq, List.filter_append, List.filter_append,
        List.filter_cons_of_neg (by rw [hcarries]; exact Bool.false_ne_true)]

end Program

/-- A breach of the program with one more lock was a breach before, on a chain
    that may be another one. -/
theorem Breach.Occurs.of_lockCall {p : Program} {g node place : Nat} {pos : Position}
    {name : String} {hi : p.snapshot.HasInstruction (lockCall pos name g)} {b : Breach}
    (hname : name = "Lock" ∨ name = "RLock")
    (hfree : (Discipline.globals.resolve p).guards.contains (.global g) = false)
    (h : b.Occurs .globals (p.putIn node place (lockCall pos name g) hi)) :
    ∃ b' : Breach, b'.Occurs .globals p ∧
      b.positions .globals (p.putIn node place (lockCall pos name g) hi) ⊆
        b'.positions .globals p := by
  have hguarded : (b.location, b.guard) ∈ (Discipline.globals.resolve p).guards.entries := h.guarded
  obtain ⟨x, lock, hx, hlock⟩ := Discipline.globals_guards hguarded
  -- the variable that is locked is not the one that is guarded
  have hne : x ≠ g := by
    rintro rfl
    rw [GuardMap.contains, ← hx, GuardMap.mem_entries_iff.mp hguarded] at hfree
    cases hfree
  have huses : Discipline.globals.uses (lockCall pos name g) b.location = false := by
    have hrefers : (lockCall pos name g).refersTo x = false := by
      rw [← Bool.not_eq_true, refersTo_lockCall]
      exact hne
    rw [hx]
    exact hrefers
  have hsub := p.unprotected_putIn node place hi huses
    (event?_lockCall_ne_release b.guard.location hname) b.node
  have hpath := h.unheld
  rw [hx, hlock] at hpath
  obtain ⟨path, hpath⟩ := Program.unprotectedPath?_of_putIn rfl hpath
  refine ⟨⟨b.location, b.guard, b.node, path⟩, ⟨hguarded, ?_, ?_, ?_, ?_⟩, hsub.subset⟩
  · exact Snapshot.size_putIn p.snapshot node place _ ▸ h.node_lt
  · exact p.isInit_putIn node place hi b.node ▸ h.checked
  · intro hnil
    apply h.used
    exact List.sublist_nil.mp (hnil ▸ hsub)
  · rw [hx, hlock]
    exact hpath

/-- Taking a lock once more, anywhere in a function, adds no finding: a position
    that a violation of the variables holds was held before, and the warnings
    and the escapes are the same. The lock must not itself be guarded. -/
theorem added_lock_adds_no_finding (p : Program) (g node place : Nat) (pos : Position)
    (name : String) (hname : name = "Lock" ∨ name = "RLock")
    (hg : g < p.snapshot.globals.size)
    (hfree : (Discipline.globals.resolve p).guards.contains (.global g) = false)
    (hpos : p.snapshot.HasPosition pos) :
    ∃ q : Program, q.snapshot = p.snapshot.putIn node place (lockCall pos name g) ∧
      q.scope = p.scope ∧ ∀ ds,
        (q.check ds).warnings = (p.check ds).warnings ∧
        (q.check ds).escapes = (p.check ds).escapes ∧
        ∀ held, (q.check ds).Holds .globals held → (p.check ds).Holds .globals held := by
  refine ⟨p.putIn node place (lockCall pos name g) (hasInstruction_lockCall hpos hg), rfl, rfl, ?_⟩
  intro ds
  refine ⟨?_, ?_, ?_⟩
  · rw [Program.check_warnings, Program.check_warnings]
    refine List.flatMap_congr ?_
    intro d _
    rw [Discipline.warnings_check, Discipline.warnings_check]
    rfl
  · rw [Program.check_escapes, Program.check_escapes]
    refine List.flatMap_congr ?_
    intro d _
    exact (Program.sameFlow_putIn d rfl).check_escapes_congr
  · intro held hheld
    rw [Program.check_holds] at hheld ⊢
    obtain ⟨hd, b, hb, hmem⟩ := hheld
    obtain ⟨b', hb', hsub⟩ := hb.of_lockCall hname hfree
    exact ⟨hd, b', hb', hsub hmem⟩

/-- `bump` adds to `hits` on line 7, between taking `mu` on line 6 and giving it
    back on line 8, and again on line 9. -/
def counterSnapshot : Snapshot where
  modulePath := none
  buildFlags := []
  packages := #[⟨"example.com/app", []⟩]
  files := #[⟨"app/hits.go", 0,
    [.var ⟨"mu", 0, some (.named (some "sync") "Mutex"), .ofLine 0 2⟩,
     .var ⟨"hits", 1, some (.named none "int"), .ofLine 0 3⟩]⟩]
  globals := #[⟨"mu", 0, .ofLine 0 2⟩, ⟨"hits", 0, .ofLine 0 3⟩]
  structs := #[]
  functions := #[⟨"bump", 0, false,
    [⟨.ofLine 0 6, none, .call ⟨.external "Lock", true, [.global 0]⟩⟩,
     ⟨.ofLine 0 7, none, .other [.global 1]⟩,
     ⟨.ofLine 0 8, none, .call ⟨.external "Unlock", true, [.global 0]⟩⟩,
     ⟨.ofLine 0 9, none, .other [.global 1]⟩]⟩]
  edges := []
  comments := [⟨.ofLine 0 2, "// hits"⟩]

def counter : Program :=
  ⟨counterSnapshot, by decide, CallGraph.ofSnapshot counterSnapshot, rfl, none⟩

/-- Line 9 is reported, and taking `mu` again on line 8, after the release, adds
    nothing to that. -/
theorem counter_added_lock :
    (counter.check Discipline.all).Holds .globals (.ofLine 0 9) ∧
    ∃ q : Program,
      q.snapshot = counter.snapshot.putIn 0 3 (lockCall (.ofLine 0 8) "Lock" 0) ∧
      q.scope = counter.scope ∧ ∀ ds,
        (q.check ds).warnings = (counter.check ds).warnings ∧
        (q.check ds).escapes = (counter.check ds).escapes ∧
        ∀ held, (q.check ds).Holds .globals held → (counter.check ds).Holds .globals held := by
  refine ⟨?_, added_lock_adds_no_finding counter 0 0 3 (.ofLine 0 8) "Lock" (.inl rfl) (by decide)
    (by decide) Nat.zero_lt_one⟩
  decide +kernel

end LockDiscipline
