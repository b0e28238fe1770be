import LockDiscipline.Walk.Program

/- When the walk trusts a caller. For fields, a caller shields the chain below it
   when it mentions the lock and every call of the callee is inside an interval
   of the lock. Which calls are looked at decides what the trust is worth: those
   made on the spot are, those put off until the caller returns are not
   (`shields_fields_iff`). So a trusted caller has all its calls under the lock,
   the deferred ones included, unless it defers one outside all intervals
   (`fields_trust_sound_iff`), and there are programs where it does
   (`lateCall_trusted`). -/
namespace LockDiscipline

namespace Instruction

/-- The instruction calls `callee` on the spot. -/
def Calls (i : Instruction) (callee : Nat) : Prop :=
  ∃ site, i.action = .call site ∧ site.target? = some callee

/-- The instruction puts a call of `callee` off until the function returns. -/
def Defers (i : Instruction) (callee : Nat) : Prop :=
  ∃ site, i.action = .defer site ∧ site.target? = some callee

theorem callsNode_iff {i : Instruction} {callee : Nat} :
    Discipline.callsNode callee i = true ↔ i.Calls callee := by
  rw [Discipline.callsNode, beq_iff_eq, Option.bind_eq_some_iff]
  have hcall : ∀ site, i.call? = some site ↔ i.action = .call site := by
    intro site
    unfold call?
    cases i.action <;> simp
  simp only [hcall]
  rfl

end Instruction

namespace Program

variable (p : Program) (l : Location) (g : FieldRef) (caller callee : Nat)

/-- The instruction of `caller` is inside an interval of the lock field `g`. -/
def HeldAt (i : Instruction) : Prop :=
  HeldInterval.anyCovers (Discipline.fields.intervals (p.body caller) (.field g)) i.pos.line = true

/-- The caller mentions the lock field `g` and has it across all the calls of
    `callee` that it makes on the spot, but puts one off outside the lock. -/
structure DefersBare : Prop where
  mentions : ∃ i ∈ p.body caller, (Discipline.fields.event? i (.field g)).isSome = true
  held : ∀ i ∈ p.body caller, i.pos.isKnown = true → i.Calls callee → p.HeldAt g caller i
  deferred : ∃ i ∈ p.body caller, i.pos.isKnown = true ∧ i.Defers callee ∧ ¬ p.HeldAt g caller i

theorem shields_fields_iff :
    (Discipline.fields.terrain p l (.field g)).shields caller callee = true ↔
      (∃ i ∈ p.body caller, (Discipline.fields.event? i (.field g)).isSome = true) ∧
        ∀ i ∈ p.body caller, i.pos.isKnown = true → i.Calls callee → p.HeldAt g caller i := by
  have hcalls : Discipline.fields.callsHeld (p.body caller) callee (.field g) = true ↔
      ∀ i ∈ p.body caller, i.pos.isKnown = true → i.Calls callee → p.HeldAt g caller i := by
    simp only [Discipline.callsHeld, List.all_eq_true, List.mem_filter, Bool.and_eq_true,
      Instruction.callsNode_iff, and_imp]
    rfl
  rw [← hcalls, ← List.any_eq_true]
  exact Bool.and_eq_true_iff

/-- A caller that shields the chain from `callee` makes or defers all its calls of
    `callee` inside the lock intervals exactly when it does not defer one outside. -/
theorem fields_trust_sound_iff :
    ((Discipline.fields.terrain p l (.field g)).shields caller callee = true →
      ∀ i ∈ p.body caller, i.pos.isKnown = true → i.Calls callee ∨ i.Defers callee →
        p.HeldAt g caller i) ↔
    ¬ p.DefersBare g caller callee := by
  rw [shields_fields_iff]
  constructor
  · intro hsound hbare
    obtain ⟨i, hi, hknown, hdefers, hnot⟩ := hbare.deferred
    exact hnot (hsound ⟨hbare.mentions, hbare.held⟩ i hi hknown (.inr hdefers))
  · intro hbare hshields i hi hknown hcall
    rcases hcall with hcall | hcall
    · exact hshields.2 i hi hknown hcall
    · apply Classical.byContradiction
      intro hnot
      exact hbare ⟨hshields.1, hshields.2, i, hi, hknown, hcall, hnot⟩

end Program

/-- `outer` gives the lock back on line 9 and defers `use` on line 10. -/
def lateCallSnapshot : Snapshot where
  modulePath := none
  buildFlags := []
  packages := #[⟨"example.com/app", []⟩]
  files := #[⟨"app/cache.go", 0, [.struct ⟨"Cache", 0,
    [⟨["mu"], .named (some "sync") "Mutex", .ofLine 0 2, 0⟩,
     ⟨["items"], .named none "int", .ofLine 0 3, 1⟩]⟩]⟩]
  globals := #[]
  structs := #[⟨"Cache", 0, [⟨"mu", .ofLine 0 2⟩, ⟨"items", .ofLine 0 3⟩]⟩]
  functions := #[
    ⟨"use", 0, false, [⟨.ofLine 0 5, none, .fieldAddr (.value 0) ⟨0, 1⟩⟩]⟩,
    ⟨"outer", 0, false,
      [⟨.ofLine 0 8, none, .call ⟨.external "Lock", true, [.field ⟨0, 0⟩]⟩⟩,
       ⟨.ofLine 0 9, none, .call ⟨.external "Unlock", true, [.field ⟨0, 0⟩]⟩⟩,
       ⟨.ofLine 0 10, none, .defer ⟨.function 0, false, []⟩⟩]⟩]
  edges := [⟨1, 0⟩]
  comments := [⟨.ofLine 0 2, "// items"⟩]

def lateCall : Program :=
  ⟨lateCallSnapshot, by decide, CallGraph.ofSnapshot lateCallSnapshot, rfl, none⟩

/-- `outer` is trusted, so the walk finds no chain, although the call that `outer`
    defers is outside the lock. -/
theorem lateCall_trusted :
    1 ∈ lateCall.graph.callersOf 0 ∧
    (Discipline.fields.terrain lateCall (.field ⟨0, 1⟩) (.field ⟨0, 0⟩)).shields 1 0 = true ∧
    (∃ i ∈ lateCall.body 1, i.pos.isKnown = true ∧ i.Defers 0 ∧ ¬ lateCall.HeldAt ⟨0, 0⟩ 1 i) ∧
    Discipline.fields.unprotectedPath? lateCall (.field ⟨0, 1⟩) (.field ⟨0, 0⟩) 0 = none := by
  refine ⟨by decide, by decide, ?_, by decide⟩
  refine ⟨⟨.ofLine 0 10, none, .defer ⟨.function 0, false, []⟩⟩, by decide, by decide, ?_, ?_⟩
  · exact ⟨_, rfl, rfl⟩
  · unfold Program.HeldAt
    decide

end LockDiscipline
