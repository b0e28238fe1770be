import LockDiscipline.Proofs.Walk.Search

/- The walk without memory, and the chain that it finds. `sweep` goes up every
   branch, whether or not its nodes were seen on another chain. It finds the
   failing chain that comes first when chains are compared by the places of
   their nodes in the caller lists (`sweep_eq_some`), and finds none only if
   there is none (`sweep_eq_none`).

   Where a caller shields either all its calls or none (`Uniform`), the memory
   of the walk changes nothing: `find?_eq_sweep`. -/
namespace LockDiscipline

/-- The place of each caller of a chain among the callers of its callee. -/
def callerPlaces (callers : Nat → List Nat) : List Nat → List Nat
  | callee :: caller :: rest =>
    (callers callee).idxOf caller :: callerPlaces callers (caller :: rest)
  | _ => []

namespace Terrain

/-- The chain fails at its last node and at none before. -/
structure FailsAtLast (t : Terrain) (start : Nat) (nodes : List Nat) : Prop
    extends t.Failing start nodes where
  inner : ∀ n ∈ nodes.dropLast, ¬ t.Ends n

/-- `above` goes on from `n`, on top of the chain `below`, to the first node at
    which the chain fails. -/
def Continues (t : Terrain) : List Nat → Nat → List Nat → Prop
  | below, n, [] => t.Ends n ∨ n ∈ below
  | below, n, c :: above =>
    ¬ (t.Ends n ∨ n ∈ below) ∧ t.Passes n c ∧ Continues t (n :: below) c above

variable {t : Terrain}

theorem continues_iff {below : List Nat} {n : Nat} {above : List Nat} :
    t.Continues below n above ↔
      (n :: above).IsChain t.Passes ∧ (n :: above).dropLast.Nodup ∧
      (∀ m ∈ (n :: above).dropLast, ¬ t.Ends m ∧ m ∉ below) ∧
      ∀ m ∈ (n :: above).getLast?, t.Ends m ∨ m ∈ below ∨ m ∈ (n :: above).dropLast := by
  induction above generalizing below n with
  | nil => simp [Continues]
  | cons c above ih =>
    simp only [Continues, ih, List.isChain_cons_cons, List.dropLast_cons_cons, List.nodup_cons,
      List.getLast?_cons_cons, List.mem_cons, not_or]
    constructor
    · rintro ⟨⟨hends, hbelow⟩, hp, hchain, hnodup, hinner, hlast⟩
      refine ⟨⟨hp, hchain⟩, ⟨fun hm => (hinner n hm).2.1 rfl, hnodup⟩, ?_, ?_⟩
      · rintro m (rfl | hm)
        · exact ⟨hends, hbelow⟩
        · exact ⟨(hinner m hm).1, (hinner m hm).2.2⟩
      · intro m hm
        have := hlast m hm
        tauto
    · rintro ⟨⟨hp, hchain⟩, ⟨hn, hnodup⟩, hinner, hlast⟩
      refine ⟨hinner n (.inl rfl), hp, hchain, hnodup, ?_, ?_⟩
      · intro m hm
        obtain ⟨hends, hbelow⟩ := hinner m (.inr hm)
        exact ⟨hends, fun h => hn (h ▸ hm), hbelow⟩
      · intro m hm
        have := hlast m hm
        tauto

theorem failsAtLast_iff {start : Nat} {nodes : List Nat} :
    t.FailsAtLast start nodes ↔ ∃ above, nodes = start :: above ∧ t.Continues [] start above := by
  constructor
  · intro h
    obtain ⟨above, rfl⟩ := h.eq_cons
    refine ⟨above, rfl, continues_iff.mpr ⟨h.passes, h.distinct, ?_, ?_⟩⟩
    · intro m hm
      exact ⟨h.inner m hm, List.not_mem_nil⟩
    · intro m hm
      exact (h.last m hm).imp_right .inr
  · rintro ⟨above, rfl, h⟩
    obtain ⟨hchain, hnodup, hinner, hlast⟩ := continues_iff.mp h
    refine ⟨⟨rfl, hchain, hnodup, ?_⟩, fun m hm => (hinner m hm).1⟩
    intro m hm
    have := hlast m hm
    simpa using this

/-- The chain may go on: it has failed nowhere yet. -/
def Unfailed (t : Terrain) (chain : List Nat) : Prop := chain.Nodup ∧ ∀ n ∈ chain, ¬ t.Ends n

theorem Unfailed.cons {chain : List Nat} {n : Nat} (h : t.Unfailed chain)
    (hn : ¬ (t.Ends n ∨ n ∈ chain)) : t.Unfailed (n :: chain) := by
  rw [not_or] at hn
  refine ⟨List.nodup_cons.mpr ⟨hn.2, h.1⟩, ?_⟩
  intro m hm
  rcases List.mem_cons.mp hm with rfl | hm
  · exact hn.1
  · exact h.2 m hm

theorem Unfailed.length_le {size : Nat} (hb : t.Bounded size) {chain : List Nat}
    (h : t.Unfailed chain) : chain.length ≤ size := by
  have hsub : chain ⊆ List.range size := by
    intro n hn
    exact List.mem_range.mpr (lt_of_not_ends hb (h.2 n hn))
  have := (h.1.subperm hsub).length_le
  rwa [List.length_range] at this

/-- A caller shields all its calls or none. -/
def Uniform (t : Terrain) : Prop := ∀ caller c c', t.shields caller c = t.shields caller c'

theorem Uniform.not_shadowed (hu : t.Uniform) {callee caller : Nat} (hp : t.Passes callee caller)
    (start : Nat) : ¬ t.Shadowed start caller := by
  rintro ⟨callee', -, -, hsh⟩
  rw [hu caller callee' callee, hp.2] at hsh
  cases hsh

namespace Cleared

variable {start : Nat} {S : Nat → Prop} {n : Nat}

theorem of_passes (hu : t.Uniform) (h : t.Cleared start S n) {c : Nat} (hp : t.Passes n c) :
    t.Cleared start S c := by
  obtain ⟨-, -, above⟩ := h
  exact above c hp.1 (hu.not_shadowed hp start)

theorem of_reaches (hu : t.Uniform) (h : t.Cleared start S n) {m : Nat} (hr : t.Reaches n m) :
    t.Cleared start S m := by
  induction hr with
  | refl => exact h
  | tail _ hp ih => exact ih.of_passes hu hp

theorem mem (h : t.Cleared start S n) : S n := by
  obtain ⟨mem, -, -⟩ := h
  exact mem

/-- The way up from a cleared node never comes back to it. -/
theorem acyclic (hu : t.Uniform) (h : t.Cleared start S n) :
    ¬ Relation.TransGen t.Passes n n := by
  induction h with
  | intro _ _ _ ih =>
    intro hcycle
    obtain ⟨c, hp, hback⟩ := Relation.TransGen.head'_iff.mp hcycle
    -- seen from the next node, the cycle is a cycle too
    exact ih c hp.1 (hu.not_shadowed hp start) (Relation.TransGen.tail' hback hp)

end Cleared

end Terrain

/-- The path comes back to a node that it has passed. -/
def CallPath.ComesBack (path : CallPath) : Prop :=
  ∃ n ∈ path.nodes.getLast?, n ∈ path.nodes.dropLast

namespace Walk

variable {t : Terrain} {start : Nat}

/-- The first failing chain that goes on from `node` on top of `chain`, by a
    walk that forgets the branches it has left. `depth` bounds the length of
    the chains. -/
def sweep (t : Terrain) : Nat → Nat → List Nat → Option CallPath
  | 0, _, _ => none
  | depth + 1, node, chain =>
    if isShielded t node chain then none
    else if t.Ends node ∨ node ∈ chain then
      some ⟨(node :: chain).reverse, chain.contains node⟩
    else (t.callers node).findSome? fun caller => sweep t depth caller (node :: chain)

section Sweep
variable {depth node : Nat} {chain : List Nat}

theorem sweep_of_shielded (h : isShielded t node chain = true) : sweep t depth node chain = none := by
  cases depth with
  | zero => rfl
  | succ depth => rw [sweep, if_pos h]

theorem sweep_of_ends (hsh : isShielded t node chain = false) (h : t.Ends node ∨ node ∈ chain) :
    sweep t (depth + 1) node chain = some ⟨(node :: chain).reverse, chain.contains node⟩ := by
  rw [sweep, if_neg (by simp [hsh]), if_pos h]

theorem sweep_of_not_ends (hsh : isShielded t node chain = false)
    (h : ¬ (t.Ends node ∨ node ∈ chain)) :
    sweep t (depth + 1) node chain =
      (t.callers node).findSome? fun caller => sweep t depth caller (node :: chain) := by
  rw [sweep, if_neg (by simp [hsh]), if_neg h]

end Sweep

/-! ## The chain that a sweep finds -/

/-- A sweep over all nodes finds nothing only if there is nothing to find. -/
theorem sweep_eq_none {size : Nat} (hb : t.Bounded size) {depth node : Nat} {chain : List Nat}
    (hdepth : size < depth + chain.length) (hchain : t.Unfailed chain)
    (hsh : isShielded t node chain = false) (h : sweep t depth node chain = none)
    (above : List Nat) : ¬ t.Continues chain node above := by
  induction depth generalizing node chain above with
  | zero =>
    have := hchain.length_le hb
    omega
  | succ depth ih =>
    by_cases hend : t.Ends node ∨ node ∈ chain
    · rw [sweep_of_ends hsh hend] at h
      cases h
    · rw [sweep_of_not_ends hsh hend, List.findSome?_eq_none_iff] at h
      cases above with
      | nil => exact hend
      | cons c above =>
        rintro ⟨-, hp, hc⟩
        have hdepth' : size < depth + (node :: chain).length := by
          simp only [List.length_cons]
          omega
        have hsh' : isShielded t c (node :: chain) = false := hp.2
        exact ih hdepth' (hchain.cons hend) hsh' (h c hp.1) above hc

/-- What a sweep finds is a failing chain, and it comes before all others. -/
theorem sweep_eq_some {size : Nat} (hb : t.Bounded size) {depth node : Nat} {chain : List Nat}
    (hdepth : size < depth + chain.length) (hchain : t.Unfailed chain)
    (hsh : isShielded t node chain = false) {path : CallPath}
    (h : sweep t depth node chain = some path) :
    ∃ above, path.nodes = chain.reverse ++ node :: above ∧
      (path.looped = true ↔ path.ComesBack) ∧ t.Continues chain node above ∧
      ∀ other, t.Continues chain node other → other ≠ above →
        callerPlaces t.callers (node :: above) < callerPlaces t.callers (node :: other) := by
  induction depth generalizing node chain with
  | zero => cases h
  | succ depth ih =>
    by_cases hend : t.Ends node ∨ node ∈ chain
    · rw [sweep_of_ends hsh hend, Option.some.injEq] at h
      subst h
      refine ⟨[], by simp, by simp [CallPath.ComesBack], hend, ?_⟩
      intro other hother hne
      cases other with
      | nil => exact absurd rfl hne
      | cons c other => exact absurd hend hother.1
    · rw [sweep_of_not_ends hsh hend, List.findSome?_eq_some_iff] at h
      obtain ⟨before, c, after, hcallers, hc, hbefore⟩ := h
      have hdepth' : size < depth + (node :: chain).length := by
        simp only [List.length_cons]
        omega
      -- a shielded caller yields nothing, so the way up passes through `c`
      have hsh' : isShielded t c (node :: chain) = false := by
        cases hs : isShielded t c (node :: chain) with
        | false => rfl
        | true =>
          rw [sweep_of_shielded hs] at hc
          cases hc
      have hp : t.Passes node c := ⟨by rw [hcallers]; simp, hsh'⟩
      obtain ⟨above, hnodes, hloop, hcont, hfirst⟩ := ih hdepth' (hchain.cons hend) hsh' hc
      refine ⟨c :: above, by rw [hnodes]; simp, hloop, ⟨hend, hp, hcont⟩, ?_⟩
      have hcb : c ∉ before := by
        intro hm
        rw [hbefore c hm] at hc
        cases hc
      have hplace : (t.callers node).idxOf c = before.length := by
        rw [hcallers, List.idxOf_append_of_notMem hcb, List.idxOf_cons_self, Nat.add_zero]
      intro other hother hne
      cases other with
      | nil => exact absurd hother hend
      | cons d other =>
        obtain ⟨-, hpd, hcontd⟩ := hother
        simp only [callerPlaces]
        by_cases hdc : d = c
        · subst hdc
          have := hfirst other hcontd (fun h => hne (by rw [h]))
          exact List.cons_lt_cons_iff.mpr (.inr ⟨rfl, this⟩)
        · -- callers before `c` lead to no failing chain, so `d` comes after it
          have hdb : d ∉ before := by
            intro hm
            exact sweep_eq_none hb hdepth' (hchain.cons hend) hpd.2 (hbefore d hm) other hcontd
          have hlt : before.length < (t.callers node).idxOf d := by
            rw [hcallers, List.idxOf_append_of_notMem hdb, List.idxOf_cons_ne _ (Ne.symm hdc)]
            omega
          refine List.cons_lt_cons_iff.mpr (.inl ?_)
          rw [hplace]
          exact hlt

/-! ## Memory changes nothing where callers shield all calls or none -/

section Uniform
variable (hu : t.Uniform)

include hu

theorem isShielded_of_shadowed {node callee : Nat} {below : List Nat}
    (h : t.Shadowed start node) : isShielded t node (callee :: below) = true := by
  obtain ⟨callee', -, -, hsh⟩ := h
  rw [isShielded, hu node callee callee', hsh]

/-- A cleared node has nothing to find above it. -/
theorem sweep_of_cleared {S : Nat → Prop} {node : Nat} (h : t.Cleared start S node)
    (depth : Nat) {chain : List Nat} (hchain : ∀ m ∈ chain, ¬ t.Reaches node m) :
    sweep t depth node chain = none := by
  induction h generalizing depth chain with
  | @intro node mem goesOn above ih =>
    cases hsh : isShielded t node chain with
    | true => exact sweep_of_shielded hsh
    | false =>
      cases depth with
      | zero => rfl
      | succ depth =>
        have hfresh : node ∉ chain := fun hm => hchain node hm .refl
        rw [sweep_of_not_ends hsh (not_or.mpr ⟨goesOn, hfresh⟩), List.findSome?_eq_none_iff]
        intro c hc
        cases hshc : t.shields c node with
        | true => exact sweep_of_shielded hshc
        | false =>
          have hp : t.Passes node c := ⟨hc, hshc⟩
          have hnot := hu.not_shadowed hp start
          refine ih c hc hnot depth ?_
          -- the way up from `c` meets neither the chain nor, being acyclic, `node`
          intro m hm hr
          rcases List.mem_cons.mp hm with rfl | hm
          · have hcl := Terrain.Cleared.intro mem goesOn above
            exact hcl.acyclic hu (Relation.TransGen.head' hp hr)
          · exact hchain m hm (Relation.ReflTransGen.head hp hr)

/-- A node that the walk skips has nothing to find above it. -/
theorem Invariant.sweep_of_seen {opened seen : List Nat} {node : Nat} {chain : List Nat}
    {stack : List (Nat × List Nat)}
    (inv : Invariant t start opened ⟨seen, (node, chain) :: stack⟩) (hseen : node ∈ seen)
    (fresh : node ∉ chain) {depth : Nat} : sweep t depth node chain = none := by
  by_cases hn : t.Shadowed start node
  · obtain ⟨callee, below, hchain, -⟩ := inv.entry _ List.mem_cons_self
    simp only at hchain
    rw [hchain]
    exact sweep_of_shielded (isShielded_of_shadowed hu hn)
  · have hcl := inv.cleared_of_opened ((inv.seen node hseen).resolve_right hn) fresh
    refine sweep_of_cleared hu hcl depth ?_
    intro m hm hr
    exact (hcl.of_reaches hu hr).mem.2 hm

/-- Between two visits, what the walk will find is what a sweep of the entries
    on its stack finds first. -/
theorem run_eq_sweep {size : Nat} (hb : t.Bounded size) {depth : Nat} (hdepth : size < depth)
    (fuel : Nat) {opened : List Nat} {w : Walk} (inv : Invariant t start opened w)
    (hfin : run t fuel w ≠ .unfinished) :
    (run t fuel w).path? =
      w.stack.findSome? fun e => sweep t (depth - e.2.length) e.1 e.2 := by
  induction fuel generalizing opened w with
  | zero =>
    obtain ⟨seen, stack⟩ := w
    cases stack with
    | nil => rfl
    | cons e stack => exact absurd rfl hfin
  | succ fuel ih =>
    obtain ⟨seen, stack⟩ := w
    cases stack with
    | nil => rfl
    | cons e stack =>
      obtain ⟨node, chain⟩ := e
      have hchain : t.Unfailed chain := by
        refine ⟨inv.chain_nodup _ List.mem_cons_self, ?_⟩
        exact fun n hn => inv.opened_goesOn n (inv.chain_opened _ List.mem_cons_self n hn)
      obtain ⟨left, hleft⟩ : ∃ left, depth - chain.length = left + 1 := by
        have := hchain.length_le hb
        exact ⟨depth - chain.length - 1, by omega⟩
      rw [run_cons] at hfin ⊢
      simp only [List.findSome?_cons]
      have hv := visit_spec t ⟨seen, stack⟩ node chain
      cases hvisit : visit t ⟨seen, stack⟩ node chain with
      | inl path =>
        rw [hvisit] at hv
        cases hv with
        | complete unshielded ends =>
          rw [hleft, sweep_of_ends unshielded ends]
          rfl
      | inr w =>
        obtain ⟨opened', inv'⟩ := inv.step hvisit
        rw [hvisit] at hfin hv
        have hrest := ih inv' hfin
        simp only [hrest]
        cases hv with
        | skipped hseen fresh => rw [inv.sweep_of_seen hu hseen fresh]
        | turnedAway shielded _ => rw [sweep_of_shielded shielded]
        | opened _ fresh unshielded goesOn =>
          have hnext : depth - (node :: chain).length = left := by
            simp only [List.length_cons]
            omega
          rw [hleft, sweep_of_not_ends unshielded (not_or.mpr ⟨goesOn, fresh⟩),
            List.findSome?_append, List.findSome?_map]
          simp only [Function.comp_def, hnext]
          cases (t.callers node).findSome? fun caller => sweep t left caller (node :: chain) <;> rfl

/-- With or without memory, the walk finds the same. -/
theorem find?_eq_sweep {size : Nat} (hb : t.Bounded size) {depth : Nat} (hdepth : size < depth)
    (start : Nat) : find? t size start = sweep t depth start [] := by
  obtain ⟨left, rfl⟩ : ∃ left, depth = left + 1 := ⟨depth - 1, by omega⟩
  by_cases h : t.Ends start
  · rw [find?_of_ends h, sweep_of_ends rfl (.inl h)]
    rfl
  · have hrun := run_eq_sweep hu hb hdepth _ (Invariant.init h)
      (run_afterStart_ne_unfinished hb h)
    rw [find?_of_not_ends h, hrun, sweep_of_not_ends rfl (by simpa using h)]
    simp only [afterStart, List.findSome?_map, Function.comp_def, List.length_singleton,
      Nat.add_sub_cancel]

end Uniform

end Walk
end LockDiscipline
