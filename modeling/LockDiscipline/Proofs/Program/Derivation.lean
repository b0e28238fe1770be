import LockDiscipline.Program.Derivation
import Mathlib.Data.List.Basic

/- What the search for roots finds. `Derives` says when one operand is derived
   from another; values may be defined several times, and their definitions may
   go round in circles. The search empties its stack within its bound
   (`stack_run`), and then its roots are all that is derived (`mem_roots_iff`).

   A value that is met again is not opened again. That loses nothing, because
   every source of an opened value is *settled*: it is a root, an opened value,
   or still on the stack. -/
namespace LockDiscipline.Derivation

/-- In `body`, the first operand is derived from the second. -/
inductive Derives (body : List Instruction) : Operand → Operand → Prop
  | self {op : Operand} (plain : ∀ v, op ≠ .value v) : Derives body op op
  | view {v : Nat} {i : Instruction} {source root : Operand} (mem : i ∈ body)
      (defines : i.result = some v) (action : i.action = .view source)
      (derives : Derives body source root) : Derives body (.value v) root
  | field {v : Nat} {i : Instruction} {base : Operand} {f : FieldRef} (mem : i ∈ body)
      (defines : i.result = some v) (action : i.action = .fieldAddr base f) :
      Derives body (.value v) (.field f)
  | base {v : Nat} {i : Instruction} {base root : Operand} {f : FieldRef} (mem : i ∈ body)
      (defines : i.result = some v) (action : i.action = .fieldAddr base f)
      (derives : Derives body base root) : Derives body (.value v) root

variable {body : List Instruction}

/-! ## Sources -/

theorem mem_sources {v : Nat} {i : Instruction} {op : Operand} :
    op ∈ sources v i ↔ i.result = some v ∧
      (i.action = .view op ∨
        ∃ base f, i.action = .fieldAddr base f ∧ (op = .field f ∨ op = base)) := by
  unfold sources
  by_cases h : i.result = some v
  · rw [if_pos h]
    cases i.action <;> simp [h, eq_comm]
  · simp [h]

/-- A value is derived from what its sources are derived from. -/
theorem derives_value_iff {v : Nat} {root : Operand} :
    Derives body (.value v) root ↔ ∃ op ∈ body.flatMap (sources v), Derives body op root := by
  constructor
  · intro h
    cases h with
    | self plain => exact absurd rfl (plain v)
    | view mem defines action derives =>
      exact ⟨_, List.mem_flatMap.mpr ⟨_, mem, mem_sources.mpr ⟨defines, .inl action⟩⟩, derives⟩
    | field mem defines action =>
      exact ⟨_, List.mem_flatMap.mpr ⟨_, mem, mem_sources.mpr ⟨defines, .inr ⟨_, _, action, .inl rfl⟩⟩⟩,
        .self (by simp)⟩
    | base mem defines action derives =>
      exact ⟨_, List.mem_flatMap.mpr ⟨_, mem, mem_sources.mpr ⟨defines, .inr ⟨_, _, action, .inr rfl⟩⟩⟩,
        derives⟩
  · rintro ⟨op, hop, hroot⟩
    obtain ⟨i, mem, hop⟩ := List.mem_flatMap.mp hop
    obtain ⟨defines, action | ⟨base, f, action, rfl | rfl⟩⟩ := mem_sources.mp hop
    · exact .view mem defines action hroot
    · cases hroot with
      | self plain => exact .field mem defines action
    · exact .base mem defines action hroot

/-! ## The search ends -/

/-- How many operands an instruction can push. -/
def yield (opened : List Nat) (i : Instruction) : Nat :=
  match i.result with
  | none => 0
  | some v => if v ∈ opened then 0 else (sources v i).length

/-- How many operands can still be pushed once the values `opened` are. -/
def pending (opened : List Nat) : List Instruction → Nat
  | [] => 0
  | i :: body => yield opened i + pending opened body

theorem length_sources_le (v : Nat) (i : Instruction) : (sources v i).length ≤ 2 := by
  unfold sources
  split
  · cases i.action <;> simp
  · simp

theorem yield_le (opened : List Nat) (i : Instruction) : yield opened i ≤ 2 := by
  unfold yield
  split
  · exact Nat.zero_le _
  · split
    · exact Nat.zero_le _
    · exact length_sources_le _ i

theorem pending_le (opened : List Nat) (body : List Instruction) :
    pending opened body ≤ 2 * body.length := by
  induction body with
  | nil => exact Nat.le_refl _
  | cons i body ih =>
    have := yield_le opened i
    rw [pending, List.length_cons]
    omega

theorem yield_open {opened : List Nat} {v : Nat} (hv : v ∉ opened) (i : Instruction) :
    (sources v i).length + yield (v :: opened) i = yield opened i := by
  unfold yield
  cases hresult : i.result with
  | none => simp [sources, hresult]
  | some w =>
    by_cases hw : w = v
    · subst hw
      simp [hv]
    · have hnil : sources v i = [] := by simp [sources, hresult, hw]
      simp [hnil, hw]

/-- Opening a value pushes what was pending for it. -/
theorem pending_open {opened : List Nat} {v : Nat} (hv : v ∉ opened) (body : List Instruction) :
    (body.flatMap (sources v)).length + pending (v :: opened) body = pending opened body := by
  induction body with
  | nil => rfl
  | cons i body ih =>
    have := yield_open hv i
    rw [List.flatMap_cons, List.length_append, pending, pending]
    omega

theorem run_nil (fuel : Nat) {s : Search} (h : s.stack = []) : run body fuel s = s := by
  cases fuel with
  | zero => rfl
  | succ fuel => rw [run, h]

theorem run_cons (fuel : Nat) {s : Search} {op : Operand} {stack : List Operand}
    (h : s.stack = op :: stack) :
    run body (fuel + 1) s = run body fuel (visit body { s with stack := stack } op) := by
  rw [run, h]

/-- Each visit takes one operand off what is on the stack or pending. -/
theorem visit_potential (s : Search) (op : Operand) :
    (visit body s op).stack.length + pending (visit body s op).opened body =
      s.stack.length + pending s.opened body := by
  cases op with
  | value v =>
    by_cases hv : v ∈ s.opened
    · simp [visit, hv]
    · have := pending_open hv body
      simp only [visit, List.contains_eq_mem, hv, decide_false, Bool.false_eq_true, if_false,
        List.length_append, List.length_reverse]
      omega
  | _ =>
    simp only [visit]
    split <;> rfl

theorem stack_run {fuel : Nat} {s : Search}
    (hfuel : s.stack.length + pending s.opened body ≤ fuel) : (run body fuel s).stack = [] := by
  induction fuel generalizing s with
  | zero =>
    have hnil : s.stack = [] := List.eq_nil_of_length_eq_zero (by omega)
    rw [run_nil 0 hnil]
    exact hnil
  | succ fuel ih =>
    cases hstack : s.stack with
    | nil =>
      rw [run_nil _ hstack]
      exact hstack
    | cons op stack =>
      rw [run_cons fuel hstack]
      apply ih
      rw [visit_potential]
      rw [hstack, List.length_cons] at hfuel
      show stack.length + pending s.opened body ≤ fuel
      omega

/-- Once the stack is empty, more steps change nothing. -/
theorem run_of_le {fuel more : Nat} (hle : fuel ≤ more) {s : Search}
    (h : (run body fuel s).stack = []) : run body more s = run body fuel s := by
  induction fuel generalizing more s with
  | zero => exact run_nil more h
  | succ fuel ih =>
    obtain ⟨more, rfl⟩ : ∃ m, more = m + 1 := ⟨more - 1, by omega⟩
    cases hstack : s.stack with
    | nil => rw [run_nil _ hstack, run_nil _ hstack]
    | cons op stack =>
      rw [run_cons fuel hstack] at h
      rw [run_cons fuel hstack, run_cons more hstack]
      exact ih (by omega) h

theorem stack_run_stepBound (body : List Instruction) (op : Operand) :
    (run body (stepBound body) ⟨[], [], [op]⟩).stack = [] := by
  apply stack_run
  have := pending_le [] body
  simp only [List.length_singleton, stepBound]
  omega

/-- What every visit keeps holds of the search when it stops. -/
theorem run_of_invariant {I : Search → Prop}
    (hstep : ∀ s op stack, s.stack = op :: stack → I s → I (visit body { s with stack := stack } op))
    (fuel : Nat) {s : Search} (h : I s) : I (run body fuel s) := by
  induction fuel generalizing s with
  | zero => exact h
  | succ fuel ih =>
    cases hstack : s.stack with
    | nil =>
      rw [run_nil _ hstack]
      exact h
    | cons op stack =>
      rw [run_cons fuel hstack]
      exact ih (hstep s op stack hstack h)

/-! ## The search finds what is derived -/

/-- The operand is dealt with, or will be. -/
def Settled (s : Search) : Operand → Prop
  | .value v => v ∈ s.opened ∨ .value v ∈ s.stack
  | op => op ∈ s.roots ∨ op ∈ s.stack

/-- What holds between two visits of a search from `start`. -/
structure Invariant (body : List Instruction) (start : Operand) (s : Search) : Prop where
  root : ∀ op ∈ s.roots, Derives body start op
  stack : ∀ op ∈ s.stack, ∀ root, Derives body op root → Derives body start root
  start_settled : Settled s start
  source_settled : ∀ v ∈ s.opened, ∀ op ∈ body.flatMap (sources v), Settled s op

theorem Invariant.init (body : List Instruction) (start : Operand) :
    Invariant body start ⟨[], [], [start]⟩ := by
  refine ⟨by simp, ?_, ?_, by simp⟩
  · intro op hop root h
    rwa [List.mem_singleton.mp hop] at h
  · cases start <;> simp [Settled]

/-- What a visit does to the search. -/
theorem visit_eq (body : List Instruction) (s : Search) (op : Operand) :
    (∃ v, op = .value v ∧ v ∈ s.opened ∧ visit body s op = s) ∨
    (∃ v, op = .value v ∧ v ∉ s.opened ∧
      visit body s op = ⟨s.roots, v :: s.opened, (body.flatMap (sources v)).reverse ++ s.stack⟩) ∨
    ((∀ v, op ≠ .value v) ∧
      ∃ roots, visit body s op = ⟨roots, s.opened, s.stack⟩ ∧
        ∀ root, root ∈ roots ↔ root ∈ s.roots ∨ root = op) := by
  cases op with
  | value v =>
    by_cases hv : v ∈ s.opened
    · exact .inl ⟨v, rfl, hv, by simp [visit, hv]⟩
    · exact .inr (.inl ⟨v, rfl, hv, by simp [visit, hv]⟩)
  | _ =>
    refine .inr (.inr ⟨by simp, ?_⟩)
    simp only [visit]
    split
    · next h =>
      refine ⟨s.roots, rfl, ?_⟩
      intro root
      constructor
      · exact .inl
      · rintro (hroot | rfl)
        · exact hroot
        · simpa using h
    · exact ⟨_, rfl, by simp⟩

/-- An operand stays settled when the top of the stack is visited. -/
theorem Settled.visit {s : Search} {op : Operand} {stack : List Operand}
    (hstack : s.stack = op :: stack) {other : Operand} (h : Settled s other) :
    Settled (visit body { s with stack := stack } op) other := by
  obtain ⟨v, rfl, hv, hvisit⟩ | ⟨v, rfl, hv, hvisit⟩ | ⟨hplain, roots, hvisit, hroots⟩ :=
    visit_eq body { s with stack := stack } op
  all_goals
    rw [hvisit]
    cases other
    all_goals
      simp only [Settled, hstack, List.mem_cons] at h ⊢
      grind

theorem Invariant.visit {start op : Operand} {s : Search} {stack : List Operand}
    (hstack : s.stack = op :: stack) (h : Invariant body start s) :
    Invariant body start (visit body { s with stack := stack } op) := by
  have hop := h.stack op (by simp [hstack])
  have hrest : ∀ other ∈ stack, ∀ root, Derives body other root → Derives body start root :=
    fun other hother => h.stack other (by simp [hstack, hother])
  have hsettled : ∀ other, Settled s other →
      Settled (Derivation.visit body { s with stack := stack } op) other :=
    fun other hother => hother.visit hstack
  refine ⟨?_, ?_, hsettled _ h.start_settled, ?_⟩
  all_goals
    obtain ⟨v, rfl, hv, hvisit⟩ | ⟨v, rfl, hv, hvisit⟩ | ⟨hplain, roots, hvisit, hroots⟩ :=
      visit_eq body { s with stack := stack } op
  all_goals rw [hvisit] at hsettled ⊢
  · exact h.root
  · exact h.root
  · intro root hroot
    rcases (hroots root).mp hroot with hroot | rfl
    · exact h.root root hroot
    · exact hop root (.self hplain)
  · exact hrest
  · intro other hother root hroot
    rcases List.mem_append.mp hother with hother | hother
    · exact hop root (derives_value_iff.mpr ⟨other, List.mem_reverse.mp hother, hroot⟩)
    · exact hrest other hother root hroot
  · exact hrest
  · exact fun w hw other hother => hsettled other (h.source_settled w hw other hother)
  · intro w hw other hother
    rcases List.mem_cons.mp hw with rfl | hw
    · -- the sources of the value just opened are on the stack
      have : other ∈ (body.flatMap (sources w)).reverse ++ stack := by simp [hother]
      cases other <;> exact .inr this
    · exact hsettled other (h.source_settled w hw other hother)
  · exact fun w hw other hother => hsettled other (h.source_settled w hw other hother)

theorem Invariant.run {start : Operand} (fuel : Nat) {s : Search} (h : Invariant body start s) :
    Invariant body start (run body fuel s) :=
  run_of_invariant (fun _ _ _ hstack h => h.visit hstack) fuel h

/-- With nothing left on the stack, what is derived from a settled operand has
    been found. -/
theorem Invariant.mem_roots {start op root : Operand} {s : Search} (h : Invariant body start s)
    (hstack : s.stack = []) (hop : Settled s op) (hroot : Derives body op root) :
    root ∈ s.roots := by
  have hsource : ∀ v i op, Settled s (.value v) → i ∈ body → op ∈ sources v i → Settled s op := by
    intro v i op hv hi hop
    have hv : v ∈ s.opened := by simpa [Settled, hstack] using hv
    exact h.source_settled v hv op (List.mem_flatMap.mpr ⟨i, hi, hop⟩)
  induction hroot with
  | @self op plain =>
    cases op with
    | value v => exact absurd rfl (plain v)
    | _ => simpa [Settled, hstack] using hop
  | view mem defines action _ ih =>
    exact ih (hsource _ _ _ hop mem (mem_sources.mpr ⟨defines, .inl action⟩))
  | field mem defines action =>
    simpa [Settled, hstack] using
      hsource _ _ _ hop mem (mem_sources.mpr ⟨defines, .inr ⟨_, _, action, .inl rfl⟩⟩)
  | base mem defines action _ ih =>
    exact ih (hsource _ _ _ hop mem (mem_sources.mpr ⟨defines, .inr ⟨_, _, action, .inr rfl⟩⟩))

/-- The roots of an operand are the operands that it is derived from. -/
theorem mem_roots_iff {op root : Operand} : root ∈ roots body op ↔ Derives body op root := by
  have hinv := (Invariant.init body op).run (stepBound body)
  have hstack := stack_run_stepBound body op
  exact ⟨hinv.root root, hinv.mem_roots hstack hinv.start_settled⟩

/-! ## Each root once, and no values -/

theorem Derives.ne_value {op root : Operand} (h : Derives body op root) (v : Nat) :
    root ≠ .value v := by
  induction h with
  | self plain => exact plain v
  | view _ _ _ _ ih => exact ih
  | field _ _ _ => simp
  | base _ _ _ _ ih => exact ih

theorem nodup_visit {s : Search} (h : s.roots.Nodup) (op : Operand) :
    (visit body s op).roots.Nodup := by
  cases op with
  | value v =>
    by_cases hv : v ∈ s.opened
    · simpa [visit, hv] using h
    · simpa [visit, hv] using h
  | _ =>
    simp only [visit]
    split
    · exact h
    · next hnew =>
      rw [List.contains_iff_mem] at hnew
      refine List.nodup_append.mpr ⟨h, List.pairwise_singleton _ _, ?_⟩
      intro a ha b hb heq
      rw [List.mem_singleton] at hb
      exact hnew (hb ▸ heq ▸ ha)

theorem nodup_roots (body : List Instruction) (op : Operand) : (roots body op).Nodup := by
  refine run_of_invariant (I := fun s => s.roots.Nodup) ?_ (stepBound body) List.nodup_nil
  intro s op stack _ h
  exact nodup_visit (s := { s with stack := stack }) h op

/-- The search for the roots of an operand empties its stack, whatever circles
    the definitions go round in; the steps that it takes are bounded by the
    length of the body, and its answer does not depend on the bound. It lists
    each root once and no values, and lists exactly what is derived. -/
theorem roots_exact (body : List Instruction) (op : Operand) :
    (∀ fuel, 1 + 2 * body.length ≤ fuel →
      (run body fuel ⟨[], [], [op]⟩).stack = [] ∧
      (run body fuel ⟨[], [], [op]⟩).roots = roots body op) ∧
    (roots body op).Nodup ∧ (∀ v, .value v ∉ roots body op) ∧
    ∀ root, root ∈ roots body op ↔ Derives body op root := by
  refine ⟨?_, nodup_roots body op, ?_, fun root => mem_roots_iff⟩
  · intro fuel hfuel
    have hstack := stack_run_stepBound body op
    rw [run_of_le hfuel hstack]
    exact ⟨hstack, rfl⟩
  · intro v hv
    exact (mem_roots_iff.mp hv).ne_value v rfl

end LockDiscipline.Derivation
