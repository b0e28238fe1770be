import LockDiscipline.Walk.Basic
import Mathlib.Data.List.Chain
import Mathlib.Logic.Relation

/- Failing chains. A chain goes up from a start node, each node a caller of the
   one before that does not shield the call, and fails when its last node ends
   the way up or has been passed before. `Doomed n` says that some failing
   chain starts at `n`; it is the least property that holds of the nodes that
   end the way up, holds of every node on an unshielded cycle, and passes from
   a caller down to the callee (`Doomed.of_passes`, `Doomed.ends_or_passes`). -/
namespace LockDiscipline.Terrain

variable {t : Terrain}

/-- The way up leads from `callee` to `caller`: there is such a call, and the
    caller does not shield it. -/
def Passes (t : Terrain) (callee caller : Nat) : Prop :=
  caller ∈ t.callers callee ∧ t.shields caller callee = false

/-- The way up ends at `n`. -/
def Ends (t : Terrain) (n : Nat) : Prop := t.exposed n = true ∨ t.callers n = []

instance (t : Terrain) (n : Nat) : Decidable (t.Ends n) :=
  inferInstanceAs (Decidable (t.exposed n = true ∨ t.callers n = []))

/-- The chain `nodes` goes up from `start` and fails at its last node, which
    ends the way up or occurs earlier. -/
structure Failing (t : Terrain) (start : Nat) (nodes : List Nat) : Prop where
  head : nodes.head? = some start
  passes : nodes.IsChain t.Passes
  distinct : nodes.dropLast.Nodup
  last : ∀ n ∈ nodes.getLast?, t.Ends n ∨ n ∈ nodes.dropLast

/-- Some failing chain starts at `n`. -/
def Doomed (t : Terrain) (n : Nat) : Prop := ∃ nodes, t.Failing n nodes

/-- `m` lies on some way up from `n`. -/
def Reaches (t : Terrain) (n m : Nat) : Prop := Relation.ReflTransGen t.Passes n m

namespace Failing

variable {start n : Nat} {nodes : List Nat}

theorem eq_cons (h : t.Failing start nodes) : ∃ above, nodes = start :: above := by
  cases nodes with
  | nil => cases h.head
  | cons m above =>
    have hm : m = start := by simpa using h.head
    exact ⟨above, by rw [hm]⟩

/-- A node that is not on the chain goes below it. -/
theorem below (h : t.Failing start nodes) (hp : t.Passes n start) (hn : n ∉ nodes) :
    t.Failing n (n :: nodes) := by
  obtain ⟨above, rfl⟩ := h.eq_cons
  refine ⟨rfl, List.isChain_cons_cons.mpr ⟨hp, h.passes⟩, ?_, ?_⟩
  · rw [List.dropLast_cons_cons, List.nodup_cons]
    exact ⟨fun hm => hn (List.dropLast_subset _ hm), h.distinct⟩
  · intro m hm
    rw [List.getLast?_cons_cons] at hm
    rw [List.dropLast_cons_cons]
    rcases h.last m hm with he | hd
    · exact .inl he
    · exact .inr (List.mem_cons_of_mem _ hd)

/-- A node that is on the chain already closes a cycle. -/
theorem close (h : t.Failing start nodes) (hp : t.Passes n start) (hn : n ∈ nodes) :
    ∃ l, t.Failing n (n :: (l ++ [n])) := by
  obtain ⟨l, rest, rfl, hl⟩ := List.eq_append_cons_of_mem hn
  have hpre : (l ++ [n]).IsChain t.Passes := by
    have := h.passes
    rw [List.append_cons] at this
    exact this.left_of_append
  refine ⟨l, rfl, ?_, ?_, ?_⟩
  · refine List.isChain_cons.mpr ⟨?_, hpre⟩
    intro m hm
    have hs : (l ++ [n]).head? = some start := by
      have := h.head
      cases l <;> simpa using this
    rw [hs] at hm
    cases hm
    exact hp
  · have hd := h.distinct
    rw [List.dropLast_append_of_ne_nil (List.cons_ne_nil n rest)] at hd
    rw [← List.cons_append, List.dropLast_concat, List.nodup_cons]
    exact ⟨hl, (List.nodup_append.mp hd).1⟩
  · intro m hm
    rw [← List.cons_append, List.getLast?_concat] at hm
    cases hm
    right
    rw [← List.cons_append, List.dropLast_concat]
    exact List.mem_cons_self

/-- Above the start of a failing chain stands the start of another. -/
theorem above {m : Nat} {above : List Nat} (h : t.Failing n (n :: m :: above)) :
    t.Doomed m := by
  obtain ⟨hp, hc⟩ := List.isChain_cons_cons.mp h.passes
  have hd := h.distinct
  rw [List.dropLast_cons_cons, List.nodup_cons] at hd
  obtain ⟨z, hz⟩ : ∃ z, (m :: above).getLast? = some z :=
    ⟨_, List.getLast?_eq_some_getLast (List.cons_ne_nil m above)⟩
  have hlast := h.last z (by rw [List.getLast?_cons_cons]; exact hz)
  rw [List.dropLast_cons_cons, List.mem_cons] at hlast
  by_cases hzn : z = n
  · -- the chain came back to `n`; seen from `m`, it comes back to `m`
    subst hzn
    have hsplit : (m :: above).dropLast ++ [z] = m :: above :=
      List.dropLast_append_getLast? z hz
    refine ⟨(m :: above) ++ [m], rfl, ?_, ?_, ?_⟩
    · refine hc.append (List.isChain_singleton m) ?_
      intro x hx y hy
      rw [hz] at hx
      cases hx
      cases hy
      exact hp
    · rw [List.dropLast_concat, ← hsplit, List.nodup_append]
      refine ⟨hd.2, List.pairwise_singleton _ z, ?_⟩
      intro a ha b hb
      rw [List.mem_singleton] at hb
      rw [hb]
      rintro rfl
      exact hd.1 ha
    · intro x hx
      rw [List.getLast?_concat] at hx
      cases hx
      right
      rw [List.dropLast_concat]
      exact List.mem_cons_self
  · refine ⟨m :: above, rfl, hc, hd.2, ?_⟩
    intro x hx
    rw [hz] at hx
    cases hx
    rcases hlast with he | rfl | hm
    · exact .inl he
    · exact absurd rfl hzn
    · exact .inr hm

end Failing

theorem Doomed.of_passes {callee caller : Nat} (hp : t.Passes callee caller)
    (h : t.Doomed caller) : t.Doomed callee := by
  obtain ⟨nodes, hf⟩ := h
  by_cases hn : callee ∈ nodes
  · obtain ⟨l, hl⟩ := hf.close hp hn
    exact ⟨_, hl⟩
  · exact ⟨_, hf.below hp hn⟩

theorem Doomed.of_reaches {n m : Nat} (hr : t.Reaches n m) (h : t.Doomed m) : t.Doomed n := by
  induction hr using Relation.ReflTransGen.head_induction_on with
  | refl => exact h
  | head hp _ ih => exact .of_passes hp ih

theorem Doomed.ends_or_passes {n : Nat} (h : t.Doomed n) :
    t.Ends n ∨ ∃ c, t.Passes n c ∧ t.Doomed c := by
  obtain ⟨nodes, hf⟩ := h
  obtain ⟨above, rfl⟩ := hf.eq_cons
  cases above with
  | nil =>
    rcases hf.last n rfl with he | hm
    · exact .inl he
    · cases hm
  | cons c above => exact .inr ⟨c, (List.isChain_cons_cons.mp hf.passes).1, hf.above⟩

end LockDiscipline.Terrain
