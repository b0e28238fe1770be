import LockDiscipline.Proofs.Guard.Interval
import LockDiscipline.Proofs.Reformat.Program

/- What the check sees in a body, when the body moves within its file. The
   intervals of a lock move along, so the same calls and the same uses are
   inside them, and a walk over the callers finds the same chain. What is
   handed back does not depend on positions at all. -/
namespace LockDiscipline

variable {ρ : Relining} {file : Nat}

/-! ## Intervals -/

def LockEvent.MovedIn (ρ : Relining) (file : Nat) (e e' : LockEvent) : Prop :=
  e.kind = e'.kind ∧ ρ.Relines file e.pos.line e'.pos.line

def HeldInterval.MovedIn (ρ : Relining) (file : Nat) (i i' : HeldInterval) : Prop :=
  ρ.Relines file i.start i'.start ∧ Option.Rel (ρ.Relines file) i.stop i'.stop

namespace HeldInterval

variable {events events' : List LockEvent}

theorem covers_eq {i i' : HeldInterval} {line line' : Nat} (h : i.MovedIn ρ file i')
    (hline : ρ.Relines file line line') : i.covers line = i'.covers line' := by
  obtain ⟨start, stop⟩ := i
  obtain ⟨start', stop'⟩ := i'
  obtain ⟨hstart, hstop⟩ := h
  have hafter := hstart.lt_iff hline
  cases hstop with
  | none => simp only [covers, hafter]
  | some hstop =>
    have hbefore := hline.lt_iff hstop
    simp only [covers, hafter, hbefore]

theorem anyCovers_eq {is is' : List HeldInterval} {line line' : Nat}
    (h : List.Forall₂ (MovedIn ρ file) is is') (hline : ρ.Relines file line line') :
    anyCovers is line = anyCovers is' line' :=
  forall₂_any_eq h fun _ _ hi => covers_eq hi hline

theorem releaseLine?_rel (h : List.Forall₂ (LockEvent.MovedIn ρ file) events events') :
    Option.Rel (ρ.Relines file) (releaseLine? events) (releaseLine? events') := by
  induction h with
  | nil => exact .none
  | cons he _ ih =>
    rw [releaseLine?_cons, releaseLine?_cons, he.1]
    split
    · exact .none
    · split
      · exact .some he.2
      · exact ih

theorem paired_rel (h : List.Forall₂ (LockEvent.MovedIn ρ file) events events') :
    List.Forall₂ (MovedIn ρ file) (paired events) (paired events') := by
  induction h with
  | nil => exact .nil
  | cons he hlater ih =>
    rw [paired, paired, he.1]
    split
    · exact .cons ⟨he.2, releaseLine?_rel hlater⟩ ih
    · exact ih

theorem unending_rel (h : List.Forall₂ (LockEvent.MovedIn ρ file) events events') :
    List.Forall₂ (MovedIn ρ file) (unending events) (unending events') := by
  have hfilter := forall₂_filter (f := (·.kind == .acquire)) (g := (·.kind == .acquire)) h
    fun e e' he => by rw [he.1]
  rw [unending, unending, List.forall₂_map_left_iff, List.forall₂_map_right_iff]
  exact hfilter.imp fun e e' he => ⟨he.2, .none⟩

theorem ofEvents_rel (h : List.Forall₂ (LockEvent.MovedIn ρ file) events events') :
    List.Forall₂ (MovedIn ρ file) (ofEvents events) (ofEvents events') := by
  have hdeferred : events.any (·.kind == .deferredRelease) =
      events'.any (·.kind == .deferredRelease) :=
    forall₂_any_eq h fun e e' he => by rw [he.1]
  rw [ofEvents, ofEvents, hdeferred]
  split
  · exact unending_rel h
  · exact paired_rel h

end HeldInterval

/-! ## Bodies -/

namespace Instruction

variable {i i' : Instruction}

theorem Moved.action_eq (h : i.Moved ρ i') : i.action = i'.action := by
  obtain ⟨_, -, rfl⟩ := h
  rfl

theorem Moved.moves (h : i.Moved ρ i') : ρ.Moves i.pos i'.pos := by
  obtain ⟨_, hpos, rfl⟩ := h
  exact hpos

theorem Moved.uses_eq (h : i.Moved ρ i') (d : Discipline) (l : Location) :
    d.uses i l = d.uses i' l := by
  obtain ⟨_, -, rfl⟩ := h
  rfl

theorem Moved.event?_eq (h : i.Moved ρ i') (d : Discipline) (lock : Location) :
    d.event? i lock = d.event? i' lock := by
  obtain ⟨_, -, rfl⟩ := h
  rfl

theorem Moved.sources_eq (h : i.Moved ρ i') (v : Nat) :
    Derivation.sources v i = Derivation.sources v i' := by
  obtain ⟨_, -, rfl⟩ := h
  rfl

theorem MovedIn.relines (h : i.MovedIn ρ file i') : ρ.Relines file i.pos.line i'.pos.line :=
  h.1 ▸ h.2.moves.2

end Instruction

section Body
variable {body body' : List Instruction}
  (h : List.Forall₂ (Instruction.MovedIn ρ file) body body') (d : Discipline)
include h

theorem Discipline.events_rel (lock : Location) :
    List.Forall₂ (LockEvent.MovedIn ρ file) (d.events body lock) (d.events body' lock) := by
  have hknown := forall₂_filter (f := (·.pos.isKnown)) (g := (·.pos.isKnown)) h
    fun i i' hi => hi.2.moves.isKnown_eq
  refine List.rel_filterMap ?_ hknown
  intro i i' hi
  show Option.Rel _ ((d.event? i lock).map _) ((d.event? i' lock).map _)
  rw [hi.2.event?_eq]
  cases d.event? i' lock with
  | none => exact .none
  | some kind => exact .some ⟨rfl, hi.relines⟩

theorem Discipline.intervals_rel (lock : Location) :
    List.Forall₂ (HeldInterval.MovedIn ρ file) (d.intervals body lock)
      (d.intervals body' lock) :=
  HeldInterval.ofEvents_rel (d.events_rel h lock)

theorem Discipline.mentions_eq (lock : Location) :
    d.mentions body lock = d.mentions body' lock :=
  forall₂_any_eq h fun i i' hi => by rw [hi.2.event?_eq]

theorem Discipline.callsHeld_eq (callee : Nat) (lock : Location) :
    d.callsHeld body callee lock = d.callsHeld body' callee lock := by
  cases d with
  | globals => rfl
  | fields =>
    have hcalls := forall₂_filter (f := fun i => i.pos.isKnown && callsNode callee i)
      (g := fun i => i.pos.isKnown && callsNode callee i) h
      fun i i' hi => by
        rw [hi.2.moves.isKnown_eq, callsNode, callsNode, Instruction.call?, Instruction.call?,
          hi.2.action_eq]
    simp only [callsHeld, List.all_eq_not_any_not]
    congr 1
    refine forall₂_any_eq hcalls ?_
    intro i i' hi
    rw [HeldInterval.anyCovers_eq (Discipline.fields.intervals_rel h lock) hi.relines]

/-- The unprotected uses move along. -/
theorem Discipline.unprotected_rel (lock l : Location) :
    List.Forall₂ ρ.Moves (d.unprotected body lock l) (d.unprotected body' lock l) := by
  have huses := forall₂_filter (f := fun i => i.pos.isKnown && d.uses i l)
    (g := fun i => i.pos.isKnown && d.uses i l) h
    fun i i' hi => by rw [hi.2.moves.isKnown_eq, hi.2.uses_eq]
  rw [unprotected, unprotected, List.filter_map, List.filter_map, List.forall₂_map_left_iff,
    List.forall₂_map_right_iff]
  refine List.Forall₂.imp (fun i i' hi => hi.2.moves) (forall₂_filter huses ?_)
  intro i i' hi
  simp only [Function.comp_apply,
    HeldInterval.anyCovers_eq (d.intervals_rel h lock) hi.relines]

theorem Derivation.visit_eq_of_moved : visit body = visit body' := by
  have hsources : ∀ v, body.flatMap (sources v) = body'.flatMap (sources v) :=
    fun v => forall₂_flatMap_eq h fun i i' hi => hi.2.sources_eq v
  funext s op
  cases op with
  | value v => rw [visit, visit, hsources]
  | _ => rfl

theorem Derivation.roots_eq (op : Operand) : roots body op = roots body' op := by
  have hrun : ∀ fuel s, run body fuel s = run body' fuel s := by
    intro fuel
    induction fuel with
    | zero => exact fun _ => rfl
    | succ fuel ih =>
      intro s
      simp only [run, visit_eq_of_moved h, ih]
  rw [roots, roots, hrun, stepBound, stepBound, h.length_eq]

theorem Instruction.releases_eq {i i' : Instruction} (hi : i.Moved ρ i') (l lock : Location) :
    i.releases body l lock = i'.releases body' l lock := by
  have hroots : Derivation.roots body = Derivation.roots body' :=
    funext fun op => Derivation.roots_eq h op
  rw [releases, releases, hi.action_eq, hroots]

end Body

/-! ## Chains of callers -/

namespace Program.Moved

variable {p q : Program} (h : p.Moved ρ q) (d : Discipline)
include h

theorem terrain_eq (l lock : Location) : d.terrain p l lock = d.terrain q l lock := by
  have hshields : ∀ caller callee,
      (d.mentions (p.body caller) lock && d.callsHeld (p.body caller) callee lock) =
        (d.mentions (q.body caller) lock && d.callsHeld (q.body caller) callee lock) := by
    intro caller callee
    obtain ⟨file, hbody⟩ := h.body caller
    rw [d.mentions_eq hbody, d.callsHeld_eq hbody]
  simp only [Discipline.terrain, h.graph_eq, h.nodePackage?_eq, h.package?_eq, hshields]

theorem unprotectedPath?_eq (l lock : Location) (start : Nat) :
    d.unprotectedPath? p l lock start = d.unprotectedPath? q l lock start := by
  rw [Discipline.unprotectedPath?, Discipline.unprotectedPath?, h.terrain_eq, h.size_eq]

theorem render_eq (path : CallPath) : path.render p = path.render q := by
  have hnames : path.nodes.map p.nodeName = path.nodes.map q.nodeName :=
    List.map_congr_left fun n _ => h.nodeName_eq n
  rw [CallPath.render, CallPath.render, hnames]

end Program.Moved
end LockDiscipline
