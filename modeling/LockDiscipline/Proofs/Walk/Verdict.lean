import LockDiscipline.Proofs.Walk.Bounds
import LockDiscipline.Proofs.Walk.Exhaustive

/- What the walk says about a program. For variables a caller that mentions the
   lock is trusted whatever it calls, and the walk is exact: it finds the first
   chain of callers on which nobody mentions the lock, or there is none.

   For fields a caller may hold the lock across one call and not across
   another, while the walk looks at each caller once. So it may find no chain
   although there is one, and this happens exactly when such a caller, turned
   away at a call under the lock, would have led on from another call
   (`MixedCaller`). -/
namespace LockDiscipline

namespace Program

/-- The function lies outside the package of the location, is started as a
    goroutine, or has no callers. -/
def EndsWay (p : Program) (l : Location) (n : Nat) : Prop :=
  p.nodePackage? n ≠ l.package? p ∨ p.graph.isSpawned n = true ∨ p.graph.callersOf n = []

/-- A chain of callers of `start` that fails for the variable `x` and its lock
    `g`: no caller refers to `g`, and the last function, but none before it,
    ends the way up or comes back to a function of the chain. -/
structure BareChain (p : Program) (x g start : Nat) (nodes : List Nat) : Prop where
  head : nodes.head? = some start
  calls : nodes.IsChain fun callee caller => caller ∈ p.graph.callersOf callee
  bare : ∀ n ∈ nodes.tail, ∀ i ∈ p.body n, i.refersTo g = false
  distinct : nodes.dropLast.Nodup
  inner : ∀ n ∈ nodes.dropLast, ¬ p.EndsWay (.global x) n
  last : ∀ n ∈ nodes.getLast?, p.EndsWay (.global x) n ∨ n ∈ nodes.dropLast

/-- The caller does not hold the lock field `g` across its calls of `callee`:
    it does not mention it, or some call is outside the intervals. -/
def CallsBare (p : Program) (g : FieldRef) (callee caller : Nat) : Prop :=
  Discipline.fields.mentions (p.body caller) (.field g) = false ∨
    Discipline.fields.callsHeld (p.body caller) callee (.field g) = false

/-- A chain of callers of `start` that fails for the field `f` and its lock
    `g`: no caller holds `g` across its calls of the function before, and the
    last function ends the way up or comes back to a function of the chain. -/
structure UnheldChain (p : Program) (f g : FieldRef) (start : Nat) (nodes : List Nat) : Prop where
  head : nodes.head? = some start
  calls : nodes.IsChain fun callee caller => caller ∈ p.graph.callersOf callee
  bare : nodes.IsChain (p.CallsBare g)
  distinct : nodes.dropLast.Nodup
  last : ∀ n ∈ nodes.getLast?, p.EndsWay (.field f) n ∨ n ∈ nodes.dropLast

/-- Callers that do not hold the lock lead from `start` up to `n`. -/
def LeadsUp (p : Program) (g : FieldRef) (start n : Nat) : Prop :=
  Relation.ReflTransGen
    (fun callee caller => caller ∈ p.graph.callersOf callee ∧ p.CallsBare g callee caller) start n

/-- On the way up from `start`, the caller `m` holds the lock across its calls
    of one function and not across those of another, and a failing chain starts
    at `m`. -/
def MixedCaller (p : Program) (f g : FieldRef) (start m : Nat) : Prop :=
  (∃ callee, p.LeadsUp g start callee ∧ m ∈ p.graph.callersOf callee ∧ ¬ p.CallsBare g callee m) ∧
  (∃ callee, p.LeadsUp g start callee ∧ m ∈ p.graph.callersOf callee ∧ p.CallsBare g callee m) ∧
  ∃ nodes, p.UnheldChain f g m nodes

end Program

theorem Program.terrain_ends {p : Program} {l : Location} {mentions : Nat → Bool}
    {held : Nat → Nat → Bool} {n : Nat} :
    (p.terrain l mentions held).Ends n ↔ p.EndsWay l n := by
  simp [Terrain.Ends, terrain, EndsWay, or_assoc]

namespace Discipline

variable (d : Discipline) (p : Program) (l lock : Location)

theorem terrain_ends {n : Nat} : (d.terrain p l lock).Ends n ↔ p.EndsWay l n := by
  rw [terrain_eq, Program.terrain_ends]

/-- A body mentions a lock variable when some instruction refers to it. -/
theorem mentions_globals_eq_false {body : List Instruction} {g : Nat} :
    Discipline.globals.mentions body (.global g) = false ↔ ∀ i ∈ body, i.refersTo g = false := by
  have hevent : ∀ i : Instruction,
      (Discipline.globals.event? i (.global g)).isSome = i.refersTo g := by
    intro i
    simp only [event?]
    cases i.refersTo g with
    | false => rfl
    | true =>
      rw [if_pos rfl]
      cases i.action <;> rfl
  simp [mentions, hevent]

theorem terrain_globals_passes {g callee caller : Nat} :
    (Discipline.globals.terrain p l (.global g)).Passes callee caller ↔
      caller ∈ p.graph.callersOf callee ∧ ∀ i ∈ p.body caller, i.refersTo g = false := by
  rw [← mentions_globals_eq_false]
  simp [Terrain.Passes, terrain, callsHeld]

theorem terrain_globals_uniform {g : Nat} :
    (Discipline.globals.terrain p l (.global g)).Uniform := fun _ _ _ => rfl

theorem terrain_fields_passes {g : FieldRef} {callee caller : Nat} :
    (Discipline.fields.terrain p l (.field g)).Passes callee caller ↔
      caller ∈ p.graph.callersOf callee ∧ p.CallsBare g callee caller := by
  have hsh : (Discipline.fields.terrain p l (.field g)).shields caller callee = false ↔
      p.CallsBare g callee caller := by
    simp only [terrain, Bool.and_eq_false_iff]
    rfl
  rw [← hsh]
  rfl

end Discipline

theorem isChain_and {α : Type} {R S : α → α → Prop} {l : List α} :
    l.IsChain (fun a b => R a b ∧ S a b) ↔ l.IsChain R ∧ l.IsChain S := by
  induction l with
  | nil => simp
  | cons a l ih =>
    cases l with
    | nil => simp
    | cons b l =>
      simp only [List.isChain_cons_cons, ih]
      tauto

/-- A condition on the later node of each step is one on all nodes but the
    first. -/
theorem isChain_iff_tail {α : Type} {P : α → Prop} {l : List α} :
    l.IsChain (fun _ b => P b) ↔ ∀ b ∈ l.tail, P b := by
  induction l with
  | nil => simp
  | cons a l ih =>
    cases l with
    | nil => simp
    | cons b l => simp only [List.isChain_cons_cons, ih, List.tail_cons, List.forall_mem_cons]

/-! ## Variables -/

section Globals
variable (p : Program) (x g start : Nat)

theorem bareChain_iff {nodes : List Nat} :
    p.BareChain x g start nodes ↔
      (Discipline.globals.terrain p (.global x) (.global g)).FailsAtLast start nodes := by
  have hpasses : (Discipline.globals.terrain p (.global x) (.global g)).Passes =
      fun callee caller => caller ∈ p.graph.callersOf callee ∧
        ∀ i ∈ p.body caller, i.refersTo g = false := by
    funext callee caller
    exact propext (Discipline.terrain_globals_passes p _)
  have hchain : nodes.IsChain (Discipline.globals.terrain p (.global x) (.global g)).Passes ↔
      nodes.IsChain (fun callee caller => caller ∈ p.graph.callersOf callee) ∧
        ∀ n ∈ nodes.tail, ∀ i ∈ p.body n, i.refersTo g = false := by
    rw [hpasses, isChain_and, isChain_iff_tail]
  constructor
  · intro h
    refine ⟨⟨h.head, hchain.mpr ⟨h.calls, h.bare⟩, h.distinct, ?_⟩, ?_⟩
    · intro n hn
      rw [Discipline.terrain_ends]
      exact h.last n hn
    · intro n hn
      rw [Discipline.terrain_ends]
      exact h.inner n hn
  · intro h
    obtain ⟨hcalls, hbare⟩ := hchain.mp h.passes
    refine ⟨h.head, hcalls, hbare, h.distinct, ?_, ?_⟩
    · intro n hn
      rw [← Discipline.terrain_ends Discipline.globals p _ (.global g)]
      exact h.inner n hn
    · intro n hn
      rw [← Discipline.terrain_ends Discipline.globals p _ (.global g)]
      exact h.last n hn

theorem unprotectedPath?_globals_eq_sweep {depth : Nat} (h : p.snapshot.functions.size < depth) :
    Discipline.globals.unprotectedPath? p (.global x) (.global g) start =
      Walk.sweep (Discipline.globals.terrain p (.global x) (.global g)) depth start [] :=
  Walk.find?_eq_sweep (Discipline.terrain_globals_uniform p _)
    (Discipline.terrain_bounded Discipline.globals p _ _) h start

theorem not_bareChain_of_eq_none
    (h : Discipline.globals.unprotectedPath? p (.global x) (.global g) start = none)
    (nodes : List Nat) : ¬ p.BareChain x g start nodes := by
  rw [unprotectedPath?_globals_eq_sweep p x g start (Nat.lt_succ_self _)] at h
  rw [bareChain_iff, Terrain.failsAtLast_iff]
  rintro ⟨above, -, hcont⟩
  refine Walk.sweep_eq_none (Discipline.terrain_bounded Discipline.globals p _ _) ?_ ?_ rfl h
    above hcont
  · simp
  · exact ⟨List.nodup_nil, by simp⟩

/-- What the walk finds is a failing chain that comes before all others. -/
theorem bareChain_of_eq_some {path : CallPath}
    (h : Discipline.globals.unprotectedPath? p (.global x) (.global g) start = some path) :
    p.BareChain x g start path.nodes ∧ (path.looped = true ↔ path.ComesBack) ∧
      ∀ nodes, p.BareChain x g start nodes → nodes ≠ path.nodes →
        callerPlaces p.graph.callersOf path.nodes < callerPlaces p.graph.callersOf nodes := by
  rw [unprotectedPath?_globals_eq_sweep p x g start (Nat.lt_succ_self _)] at h
  obtain ⟨above, hnodes, hloop, hcont, hfirst⟩ :=
    Walk.sweep_eq_some (Discipline.terrain_bounded Discipline.globals p _ _) (by simp)
      ⟨List.nodup_nil, by simp⟩ rfl h
  rw [List.reverse_nil, List.nil_append] at hnodes
  refine ⟨?_, hloop, ?_⟩
  · rw [bareChain_iff, Terrain.failsAtLast_iff]
    exact ⟨above, hnodes, hcont⟩
  · intro nodes hn hne
    rw [bareChain_iff, Terrain.failsAtLast_iff] at hn
    obtain ⟨other, rfl, hother⟩ := hn
    rw [hnodes]
    refine hfirst other hother ?_
    rintro rfl
    exact hne hnodes.symm

/-- For a variable and its lock the walk is exact. It finds nothing exactly when
    no chain fails; it finds the failing chain whose callers come first in
    their caller lists, marked if it comes back to itself; and a walk that
    remembers no node and goes deeper than the program has functions finds the
    same. -/
theorem globals_walk_exact :
    (Discipline.globals.unprotectedPath? p (.global x) (.global g) start = none ↔
      ∀ nodes, ¬ p.BareChain x g start nodes) ∧
    (∀ path, Discipline.globals.unprotectedPath? p (.global x) (.global g) start = some path ↔
      p.BareChain x g start path.nodes ∧ (path.looped = true ↔ path.ComesBack) ∧
        ∀ nodes, p.BareChain x g start nodes → nodes ≠ path.nodes →
          callerPlaces p.graph.callersOf path.nodes < callerPlaces p.graph.callersOf nodes) ∧
    ∀ depth, p.snapshot.functions.size < depth →
      Discipline.globals.unprotectedPath? p (.global x) (.global g) start =
        Walk.sweep (Discipline.globals.terrain p (.global x) (.global g)) depth start [] := by
  refine ⟨⟨not_bareChain_of_eq_none p x g start, ?_⟩, ?_, ?_⟩
  · intro h
    cases hw : Discipline.globals.unprotectedPath? p (.global x) (.global g) start with
    | none => rfl
    | some path => exact absurd (bareChain_of_eq_some p x g start hw).1 (h path.nodes)
  · intro path
    refine ⟨bareChain_of_eq_some p x g start, ?_⟩
    rintro ⟨hchain, hloop, hfirst⟩
    cases hw : Discipline.globals.unprotectedPath? p (.global x) (.global g) start with
    | none => exact absurd hchain (not_bareChain_of_eq_none p x g start hw path.nodes)
    | some found =>
      obtain ⟨hchain', hloop', hfirst'⟩ := bareChain_of_eq_some p x g start hw
      -- two first chains are one
      have hnodes : found.nodes = path.nodes := by
        by_contra hne
        exact lt_asymm (hfirst _ hchain' hne) (hfirst' _ hchain (Ne.symm hne))
      have hlooped : found.looped = path.looped := by
        rw [Bool.eq_iff_iff, hloop, hloop', CallPath.ComesBack, CallPath.ComesBack, hnodes]
      obtain ⟨nodes, looped⟩ := found
      simp only at hnodes hlooped
      rw [hnodes, hlooped]
  · intro depth h
    exact unprotectedPath?_globals_eq_sweep p x g start h

end Globals

/-! ## Fields -/

section Fields
variable (p : Program) (f g : FieldRef) (start : Nat)

theorem terrain_fields_passes_eq :
    (Discipline.fields.terrain p (.field f) (.field g)).Passes =
      fun callee caller => caller ∈ p.graph.callersOf callee ∧ p.CallsBare g callee caller := by
  funext callee caller
  exact propext (Discipline.terrain_fields_passes p _)

theorem unheldChain_iff {nodes : List Nat} :
    p.UnheldChain f g start nodes ↔
      (Discipline.fields.terrain p (.field f) (.field g)).Failing start nodes := by
  have hlast : ∀ n, (Discipline.fields.terrain p (.field f) (.field g)).Ends n ↔
      p.EndsWay (.field f) n := fun n => Discipline.terrain_ends _ p _ _
  constructor
  · intro h
    refine ⟨h.head, ?_, h.distinct, ?_⟩
    · rw [terrain_fields_passes_eq, isChain_and]
      exact ⟨h.calls, h.bare⟩
    · intro n hn
      rw [hlast]
      exact h.last n hn
  · intro h
    have hchain := h.passes
    rw [terrain_fields_passes_eq, isChain_and] at hchain
    refine ⟨h.head, hchain.1, hchain.2, h.distinct, ?_⟩
    intro n hn
    rw [← hlast]
    exact h.last n hn

theorem doomed_fields_iff {n : Nat} :
    (Discipline.fields.terrain p (.field f) (.field g)).Doomed n ↔
      ∃ nodes, p.UnheldChain f g n nodes := by
  simp only [Terrain.Doomed, unheldChain_iff]

theorem mixedCaller_iff {m : Nat} :
    p.MixedCaller f g start m ↔
      (Discipline.fields.terrain p (.field f) (.field g)).Shadowed start m ∧
      (∃ callee, (Discipline.fields.terrain p (.field f) (.field g)).Reaches start callee ∧
        (Discipline.fields.terrain p (.field f) (.field g)).Passes callee m) ∧
      (Discipline.fields.terrain p (.field f) (.field g)).Doomed m := by
  have hshields : ∀ callee,
      (Discipline.fields.terrain p (.field f) (.field g)).shields m callee = true ↔
        ¬ p.CallsBare g callee m := by
    intro callee
    simp [Discipline.terrain, Program.CallsBare]
  have hreaches : ∀ n, (Discipline.fields.terrain p (.field f) (.field g)).Reaches start n ↔
      p.LeadsUp g start n := by
    intro n
    rw [Terrain.Reaches, terrain_fields_passes_eq]
    rfl
  simp only [Program.MixedCaller, Terrain.Shadowed, hshields, hreaches, doomed_fields_iff,
    Discipline.terrain_fields_passes]
  rfl

/-- For a field and its lock, an answer of none is right exactly when there is no
    mixed caller. -/
theorem fields_walk_sound_iff :
    (Discipline.fields.unprotectedPath? p (.field f) (.field g) start = none →
      ∀ nodes, ¬ p.UnheldChain f g start nodes) ↔
    (Discipline.fields.unprotectedPath? p (.field f) (.field g) start = none →
      ∀ m, ¬ p.MixedCaller f g start m) := by
  refine imp_congr_right ?_
  intro h
  have hiff := Walk.doomed_iff_of_find?_eq_none
    (Discipline.terrain_bounded Discipline.fields p (.field f) (.field g)) h
  rw [doomed_fields_iff] at hiff
  simp only [← mixedCaller_iff] at hiff
  rw [← not_exists, ← not_exists, hiff]

end Fields

/-- `top` calls `left` under the lock and `right` outside it, and both call
    `use`, which takes the address of the field. -/
def diamondSnapshot : Snapshot where
  modulePath := none
  buildFlags := []
  packages := #[⟨"example.com/app", []⟩]
  files := #[⟨"app/cache.go", 0, [.struct ⟨"Cache", 0,
    [⟨["mu"], .named (some "sync") "Mutex", .ofLine 0 2, 0⟩,
     ⟨["items"], .named none "int", .ofLine 0 3, 1⟩]⟩]⟩]
  globals := #[]
  structs := #[⟨"Cache", 0, [⟨"mu", .ofLine 0 2⟩, ⟨"items", .ofLine 0 3⟩]⟩]
  functions := #[
    ⟨"use", 0, false, [⟨.ofLine 0 5, none, .fieldAddr (.value 0) ⟨0, 1⟩⟩]⟩,
    ⟨"left", 0, false, [⟨.ofLine 0 8, none, .call ⟨.function 0, false, []⟩⟩]⟩,
    ⟨"right", 0, false, [⟨.ofLine 0 11, none, .call ⟨.function 0, false, []⟩⟩]⟩,
    ⟨"top", 0, false,
      [⟨.ofLine 0 14, none, .call ⟨.external "Lock", true, [.field ⟨0, 0⟩]⟩⟩,
       ⟨.ofLine 0 15, none, .call ⟨.function 1, false, []⟩⟩,
       ⟨.ofLine 0 16, none, .call ⟨.external "Unlock", true, [.field ⟨0, 0⟩]⟩⟩,
       ⟨.ofLine 0 17, none, .call ⟨.function 2, false, []⟩⟩]⟩]
  edges := [⟨1, 0⟩, ⟨2, 0⟩, ⟨3, 1⟩, ⟨3, 2⟩]
  comments := [⟨.ofLine 0 2, "// items"⟩]

def diamond : Program :=
  ⟨diamondSnapshot, by decide, CallGraph.ofSnapshot diamondSnapshot, rfl, none⟩

/-- The walk comes to `top` from `left` first, turns it away, and does not look
    at it again from `right`. -/
theorem diamond_missed :
    Discipline.fields.unprotectedPath? diamond (.field ⟨0, 1⟩) (.field ⟨0, 0⟩) 0 = none ∧
      diamond.UnheldChain ⟨0, 1⟩ ⟨0, 0⟩ 0 [0, 2, 3] := by
  refine ⟨by decide, rfl, ?_, ?_, by decide, ?_⟩
  · simp only [List.isChain_cons_cons, List.isChain_singleton, and_true]
    decide
  · simp only [List.isChain_cons_cons, List.isChain_singleton, and_true]
    exact ⟨.inl (by decide), .inr (by decide)⟩
  · intro n hn
    cases hn
    exact .inl (.inr (.inr (by decide)))

end LockDiscipline
