import LockDiscipline.Proofs.Analysis.Violations
import LockDiscipline.Proofs.Checked.Resolve
import LockDiscipline.Proofs.Checked.Walk

/- The check with checked lookups: users of locations, sort keys, failures,
   escapes and the names in signatures. Its locations are those of a resolution
   and its functions come from the node list or from a walk, so none of its
   lookups fails (`check_ok`). -/
namespace LockDiscipline.Checked

variable (d : Discipline) (p : Program)

def usages (guards : GuardMap) : Checked UsageMap :=
  p.nodes.foldlM (fun usages n => do
    let f ← function p n
    return if f.isInit then usages else f.body.foldl (d.noteUses guards.locations n) usages) .empty

def failure? (l lock : Location) (node : Nat) : Checked (Option (CallPath × List Position)) := do
  let f ← function p node
  match d.unprotected f.body lock l with
  | [] => return none
  | positions => return (← unprotectedPath? d p lock l node).map (·, positions)

def escapes (l lock : Location) : Checked (List Escape) :=
  p.nodes.flatMapM fun n => do
    let f ← function p n
    return if f.isInit then [] else
      (f.body.filter fun i => i.pos.isKnown && i.releases f.body l lock).map fun i => ⟨l, n, i.pos⟩

def agenda (guards : GuardMap) : Checked (List (Location × Guard)) := do
  -- all keys are looked up before anything is verified
  let keyed ← guards.entries.mapM fun e => do return (← sortKey p e.1, e)
  let sorted := keyed.mergeSort fun a b =>
    decide (a.1 < b.1) || (a.1 == b.1 && !b.2.1.before a.2.1)
  return sorted.map Prod.snd

def recordViolation (l : Location) (r : Report) (failure : CallPath × List Position) :
    Checked Report := do
  let signature ← renderPath p failure.1
  return r.insert ⟨d, l, failure.1, signature, failure.2⟩

def recordLocation (usages : UsageMap) (r : Report) (e : Location × Guard) : Checked Report := do
  let failures ← (usages.usersOf e.1).filterMapM (failure? d p e.1 e.2.location)
  let escapes ← escapes p e.1 e.2.location
  -- for the log
  let _ ← locationName p e.1
  let r ← failures.foldlM (recordViolation d p e.1) r
  return escapes.foldl Report.recordEscape r

def checkOne : Checked Report := do
  let resolution ← resolve p d
  let usages ← usages d p resolution.guards
  let agenda ← agenda p resolution.guards
  agenda.foldlM (recordLocation d p usages) { Report.empty with warnings := resolution.warnings }

def check (ds : List Discipline) : Checked Report :=
  ds.foldlM (fun r d => do return r.merge (← checkOne d p)) .empty

variable {d p} {l lock : Location}

theorem usages_ok (d : Discipline) (p : Program) :
    usages d p (d.resolve p).guards = .ok (d.usages p) := by
  have hmodel : d.usages p = p.nodes.foldl (fun usages n => if p.isInit n then usages else
      (p.body n).foldl (d.noteUses (d.resolve p).guards.locations n) usages) .empty := by
    rw [Discipline.usages, Discipline.usagesOf, Program.checkedNodes, List.foldl_filter]
    congr 1
    funext usages n
    cases p.isInit n <;> rfl
  rw [hmodel]
  refine foldlM_ok ?_ _
  intro usages n hn
  obtain ⟨f, hf, hbody, -, -, hinit⟩ := function_ok (List.mem_range.mp hn)
  rw [hf, hbody, hinit, ok_bind, pure_eq_ok]

theorem failure?_ok (hl : p.HasOwner l) {node : Nat} (hnode : node < p.snapshot.functions.size) :
    failure? d p l lock node = .ok (d.failure? p l lock node) := by
  obtain ⟨f, hf, hbody, -⟩ := function_ok hnode
  rw [failure?, hf, ok_bind, Discipline.failure?, hbody]
  cases d.unprotected f.body lock l with
  | nil => rfl
  | cons pos positions => simp only [unprotectedPath?_ok hl hnode, ok_bind, pure_eq_ok]

theorem escapes_ok (p : Program) (l lock : Location) :
    escapes p l lock = .ok (p.escapes l lock) := by
  have hmodel : p.escapes l lock = p.nodes.flatMap fun n =>
      if p.isInit n then [] else p.escapesOf l lock n := by
    rw [Program.escapes, Program.checkedNodes]
    induction p.nodes with
    | nil => rfl
    | cons n nodes ih =>
      rw [List.filter_cons, List.flatMap_cons, ← ih]
      cases p.isInit n <;> simp
  rw [hmodel]
  refine flatMapM_ok ?_
  intro n hn
  obtain ⟨f, hf, hbody, -, -, hinit⟩ := function_ok (List.mem_range.mp hn)
  rw [hf, hinit, Program.escapesOf, hbody, ok_bind, pure_eq_ok]

theorem agenda_ok (hnames : p.snapshot.NamesFit) (d : Discipline) :
    agenda p (d.resolve p).guards = .ok (d.agenda p) := by
  have hkeys : (d.resolve p).guards.entries.mapM (fun e => do return (← sortKey p e.1, e)) =
      .ok ((d.resolve p).guards.entries.map fun e => ((e.1.sortKey? p).getD "", e)) := by
    refine mapM_ok ?_
    intro e he
    have hl := (d.resolve_declared (Program.covers_hasLocation hnames)).location e he
    obtain ⟨name, hname⟩ := Location.exists_name hl
    obtain ⟨key, hkey⟩ := Location.exists_sortKey hl.hasOwner
    rw [sortKey_ok hname hkey, hkey, ok_bind, pure_eq_ok, Option.getD_some]
  rw [agenda, hkeys, ok_bind, pure_eq_ok, Discipline.agenda]
  congr 1
  rw [List.map_mergeSort (s := Location.verifiedBefore p), List.map_map]
  · change (List.map id _).mergeSort _ = _
    rw [List.map_id]
  · intro a ha b hb
    obtain ⟨x, -, rfl⟩ := List.mem_map.mp ha
    obtain ⟨y, -, rfl⟩ := List.mem_map.mp hb
    rfl

/-- Failures are about functions of the program only. -/
theorem lt_of_mem_failures {nodes : List Nat} (hnodes : ∀ n ∈ nodes, n < p.snapshot.functions.size)
    {failure : CallPath × List Position} (h : failure ∈ d.failures p l lock nodes) :
    ∀ n ∈ failure.1.nodes, n < p.snapshot.functions.size := by
  obtain ⟨node, hnode, hfailure⟩ := List.mem_filterMap.mp h
  obtain ⟨-, -, hpath⟩ := Discipline.failure?_eq_some.mp hfailure
  exact Discipline.lt_of_mem_unprotectedPath? (hnodes node hnode) hpath

theorem recordLocation_ok {e : Location × Guard} (he : e ∈ (d.resolve p).guards.entries)
    (hl : p.HasLocation e.1) (r : Report) :
    recordLocation d p (d.usages p) r e = .ok (r.recordLocation d p (d.usages p) e) := by
  have hnodes : ∀ n ∈ d.users p e.1, n < p.snapshot.functions.size :=
    fun n hn => ((Discipline.mem_users he).mp hn).1
  have hfailures : (d.users p e.1).filterMapM (failure? d p e.1 e.2.location) =
      .ok (d.failures p e.1 e.2.location (d.users p e.1)) := by
    refine filterMapM_ok ?_
    intro n hn
    exact failure?_ok hl.hasOwner (hnodes n hn)
  have hrecords : (d.failures p e.1 e.2.location (d.users p e.1)).foldlM
      (recordViolation d p e.1) r = .ok ((d.failures p e.1 e.2.location (d.users p e.1)).foldl
        (fun r failure => r.recordViolation p d e.1 failure.1 failure.2) r) := by
    refine foldlM_ok ?_ r
    intro r failure hfailure
    rw [recordViolation, renderPath_ok (lt_of_mem_failures hnodes hfailure), ok_bind, pure_eq_ok]
    rfl
  obtain ⟨name, hname⟩ := Location.exists_name hl
  rw [Discipline.users] at hfailures hrecords
  rw [recordLocation, hfailures, ok_bind, escapes_ok, ok_bind, locationName_ok hname, ok_bind,
    hrecords, ok_bind, pure_eq_ok]
  rfl

theorem checkOne_ok (hnames : p.snapshot.NamesFit) (d : Discipline) :
    checkOne d p = .ok (d.check p) := by
  rw [checkOne, resolve_ok hnames, ok_bind, usages_ok, ok_bind, agenda_ok hnames, ok_bind,
    Discipline.check]
  refine foldlM_ok ?_ _
  intro r e he
  have he := Discipline.mem_agenda.mp he
  exact recordLocation_ok he
    ((d.resolve_declared (Program.covers_hasLocation hnames)).location e he) r

/-- A check ends without a fault. -/
theorem check_ok (hnames : p.snapshot.NamesFit) (ds : List Discipline) :
    check p ds = .ok (p.check ds) := by
  refine foldlM_ok ?_ _
  intro r d _
  rw [checkOne_ok hnames, ok_bind, pure_eq_ok]

end LockDiscipline.Checked
