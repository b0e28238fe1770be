import LockDiscipline.Proofs.Walk.Chain
import Mathlib.Algebra.BigOperators.Group.Finset.Basic
import Mathlib.Algebra.Order.BigOperators.Group.Finset

/- The walk as a search. One visit does one of four things (`Visit`); from
   these cases follow that the walk ends within its bound of steps, and the
   invariant that carries all that is known about a walk that finds nothing.

   The invariant speaks about the nodes that the walk has opened. When the
   entries above some point of the stack are done with, every opened node that
   is not on the chain of the next entry is *cleared*: the way up from it ends
   nowhere and closes no cycle, because sooner or later every branch of it
   meets a node that the walk turned away. -/
namespace LockDiscipline

namespace Terrain

/-- Nodes from `size` on have no callers. -/
def Bounded (t : Terrain) (size : Nat) : Prop := ∀ n, size ≤ n → t.callers n = []

/-- On some way up from `start`, the node `n` shields the call below it. -/
def Shadowed (t : Terrain) (start n : Nat) : Prop :=
  ∃ callee, t.Reaches start callee ∧ n ∈ t.callers callee ∧ t.shields n callee = true

/-- The nodes above `n`, up to the shadowed ones, lie in `S`; the way up does
    not end at them and closes no cycle, since the derivation is finite. -/
inductive Cleared (t : Terrain) (start : Nat) (S : Nat → Prop) : Nat → Prop
  | intro {n : Nat} (mem : S n) (goesOn : ¬ t.Ends n)
      (above : ∀ c ∈ t.callers n, ¬ t.Shadowed start c → Cleared t start S c) :
      Cleared t start S n

variable {t : Terrain} {start : Nat}

theorem Cleared.mono {S T : Nat → Prop} (hST : ∀ n, S n → T n) {n : Nat}
    (h : t.Cleared start S n) : t.Cleared start T n := by
  induction h with
  | intro mem goesOn _ ih => exact .intro (hST _ mem) goesOn ih

/-- A failing chain above a cleared node goes through a shadowed one. -/
theorem Cleared.exists_shadowed {S : Nat → Prop} {n : Nat} (h : t.Cleared start S n)
    (hr : t.Reaches start n) (hd : t.Doomed n) :
    ∃ m, t.Shadowed start m ∧ (∃ callee, t.Reaches start callee ∧ t.Passes callee m) ∧
      t.Doomed m := by
  induction h with
  | @intro n _ goesOn _ ih =>
    rcases hd.ends_or_passes with he | ⟨c, hp, hc⟩
    · exact absurd he goesOn
    · by_cases hs : t.Shadowed start c
      · exact ⟨c, hs, ⟨n, hr, hp⟩, hc⟩
      · exact ih c hp.1 hs (hr.tail hp) hc

theorem lt_of_not_ends {size n : Nat} (hb : t.Bounded size) (h : ¬ t.Ends n) : n < size := by
  by_contra hle
  exact h (.inr (hb n (Nat.le_of_not_lt hle)))

end Terrain

/-- The chain that a walk found. -/
def WalkResult.path? : WalkResult → Option CallPath
  | .found path => some path
  | _ => none

namespace Walk

variable {t : Terrain} {start : Nat}

/-! ## One visit -/

/-- What a visit of `node` on top of `chain` can come to. -/
inductive Visit (t : Terrain) (w : Walk) (node : Nat) (chain : List Nat) : CallPath ⊕ Walk → Prop
  | skipped (seen : node ∈ w.seen) (fresh : node ∉ chain) : Visit t w node chain (.inr w)
  | turnedAway {seen : List Nat} (shielded : isShielded t node chain = true)
      (mem_seen : ∀ n, n ∈ seen ↔ n = node ∨ n ∈ w.seen) :
      Visit t w node chain (.inr ⟨seen, w.stack⟩)
  | complete (unshielded : isShielded t node chain = false) (ends : t.Ends node ∨ node ∈ chain) :
      Visit t w node chain (.inl ⟨(node :: chain).reverse, chain.contains node⟩)
  | opened (unseen : node ∉ w.seen) (fresh : node ∉ chain)
      (unshielded : isShielded t node chain = false) (goesOn : ¬ t.Ends node) :
      Visit t w node chain
        (.inr ⟨node :: w.seen, (t.callers node).map (·, node :: chain) ++ w.stack⟩)

theorem visit_spec (t : Terrain) (w : Walk) (node : Nat) (chain : List Nat) :
    Visit t w node chain (visit t w node chain) := by
  simp only [visit]
  split
  · next h =>
    simp only [Bool.and_eq_true, Bool.not_eq_true', List.contains_iff_mem] at h
    exact .skipped h.1 (by simpa using h.2)
  · next h =>
    split
    · next hsh =>
      refine .turnedAway hsh ?_
      intro n
      by_cases hn : node ∈ w.seen
      · simp only [List.contains_iff_mem, hn, if_true]
        constructor
        · exact .inr
        · rintro (rfl | h)
          · exact hn
          · exact h
      · simp [hn]
    · next hsh =>
      have hsh : isShielded t node chain = false := by simpa using hsh
      split
      · next hend =>
        refine .complete hsh ?_
        simpa [Terrain.Ends, or_assoc] using hend
      · next hend =>
        have hend : ¬ (t.Ends node ∨ node ∈ chain) := by
          simpa [Terrain.Ends, or_assoc] using hend
        have hfresh : node ∉ chain := fun hc => hend (.inr hc)
        have hseen : node ∉ w.seen := by
          intro hs
          exact h (by simp [hs, hfresh])
        have hw : (if w.seen.contains node then w.seen else node :: w.seen) = node :: w.seen := by
          simp [hseen]
        rw [hw]
        exact .opened hseen hfresh hsh (fun he => hend (.inl he))

theorem run_nil (t : Terrain) (fuel : Nat) (seen : List Nat) :
    run t fuel ⟨seen, []⟩ = .exhausted := by
  cases fuel <;> rfl

theorem run_cons (t : Terrain) (fuel : Nat) (seen : List Nat) (node : Nat) (chain : List Nat)
    (stack : List (Nat × List Nat)) :
    run t (fuel + 1) ⟨seen, (node, chain) :: stack⟩ =
      match visit t ⟨seen, stack⟩ node chain with
      | .inl path => .found path
      | .inr w => run t fuel w := rfl

/-- What every visit keeps holds of what the walk comes to. -/
theorem run_of_invariant {I : Walk → Prop} {P : CallPath → Prop}
    (hstep : ∀ seen node chain stack, I ⟨seen, (node, chain) :: stack⟩ →
      (visit t ⟨seen, stack⟩ node chain).elim P I)
    {fuel : Nat} {w : Walk} (hw : I w) :
    (∀ path, run t fuel w = .found path → P path) ∧
      (run t fuel w = .exhausted → ∃ seen, I ⟨seen, []⟩) := by
  induction fuel generalizing w with
  | zero =>
    obtain ⟨seen, stack⟩ := w
    cases stack with
    | nil =>
      refine ⟨?_, fun _ => ⟨seen, hw⟩⟩
      intro path h
      cases h
    | cons e stack =>
      refine ⟨?_, ?_⟩
      · intro path h
        cases h
      · intro h
        cases h
  | succ fuel ih =>
    obtain ⟨seen, stack⟩ := w
    cases stack with
    | nil =>
      refine ⟨?_, fun _ => ⟨seen, hw⟩⟩
      intro path h
      cases h
    | cons e stack =>
      obtain ⟨node, chain⟩ := e
      have hnext := hstep seen node chain stack hw
      rw [run_cons]
      cases hvisit : visit t ⟨seen, stack⟩ node chain with
      | inl found =>
        rw [hvisit] at hnext
        refine ⟨?_, ?_⟩
        · intro path h
          cases h
          exact hnext
        · intro h
          cases h
      | inr w' =>
        rw [hvisit] at hnext
        exact ih hnext

/-- The walk after the visit of `start`. -/
def afterStart (t : Terrain) (start : Nat) : Walk :=
  ⟨[start], (t.callers start).map (·, [start])⟩

/-- The first step, which nothing can shield. -/
theorem run_ofStart (t : Terrain) (fuel start : Nat) :
    run t (fuel + 1) (ofStart start) =
      if t.Ends start then .found ⟨[start], false⟩ else run t fuel (afterStart t start) := by
  rw [ofStart, run_cons]
  by_cases h : t.Ends start
  · have hend : (t.exposed start || (t.callers start).isEmpty) = true := by
      simpa [Terrain.Ends] using h
    have hvisit : visit t ⟨[], []⟩ start [] = .inl ⟨[start], false⟩ := by
      simp [visit, isShielded, hend]
    rw [if_pos h, hvisit]
  · have hvisit : visit t ⟨[], []⟩ start [] = .inr (afterStart t start) := by
      simpa [visit, isShielded, afterStart, Terrain.Ends] using h
    rw [if_neg h, hvisit]

/-! ## The walk ends -/

/-- The entries that the unseen nodes below `size` may still add. -/
def latent (t : Terrain) (size : Nat) (seen : List Nat) : Nat :=
  ∑ n ∈ Finset.range size with n ∉ seen, (t.callers n).length

theorem latent_anti (t : Terrain) (size : Nat) {seen seen' : List Nat}
    (h : ∀ n ∈ seen, n ∈ seen') : latent t size seen' ≤ latent t size seen := by
  apply Finset.sum_le_sum_of_subset
  intro n hn
  simp only [Finset.mem_filter] at hn ⊢
  exact ⟨hn.1, fun hs => hn.2 (h n hs)⟩

theorem latent_cons {size node : Nat} {seen : List Nat} (hlt : node < size)
    (hseen : node ∉ seen) :
    (t.callers node).length + latent t size (node :: seen) = latent t size seen := by
  have hmem : node ∈ (Finset.range size).filter (· ∉ seen) := by simp [hlt, hseen]
  have herase : (Finset.range size).filter (· ∉ node :: seen)
      = ((Finset.range size).filter (· ∉ seen)).erase node := by
    ext n
    simp only [Finset.mem_filter, Finset.mem_erase, List.mem_cons, not_or]
    tauto
  unfold latent
  rw [herase]
  exact Finset.add_sum_erase _ (fun n => (t.callers n).length) hmem

/-- The entries on the stack and those that may still come are fewer after a
    visit. -/
theorem visit_decreases {size node : Nat} {chain : List Nat} {w w' : Walk} (hb : t.Bounded size)
    (h : visit t w node chain = .inr w') :
    w'.stack.length + latent t size w'.seen ≤ w.stack.length + latent t size w.seen := by
  have hv := visit_spec t w node chain
  rw [h] at hv
  cases hv with
  | skipped => exact Nat.le_refl _
  | turnedAway _ mem_seen =>
    have := latent_anti t size fun n hn => (mem_seen n).mpr (.inr hn)
    simpa using this
  | opened unseen _ _ goesOn =>
    -- the new entries are taken from those that `node` still had to add
    have hlt : node < size := Terrain.lt_of_not_ends hb goesOn
    have : (t.callers node).length + latent t size (node :: w.seen) = latent t size w.seen :=
      latent_cons hlt unseen
    simp only [List.length_append, List.length_map]
    omega

theorem run_ne_unfinished {size : Nat} (hb : t.Bounded size) (fuel : Nat) (w : Walk)
    (hfuel : w.stack.length + latent t size w.seen ≤ fuel) : run t fuel w ≠ .unfinished := by
  induction fuel generalizing w with
  | zero =>
    obtain ⟨seen, stack⟩ := w
    have hnil : stack = [] := List.eq_nil_of_length_eq_zero (by simp only at hfuel; omega)
    subst hnil
    rw [run_nil]
    simp
  | succ fuel ih =>
    obtain ⟨seen, stack⟩ := w
    cases stack with
    | nil =>
      rw [run_nil]
      simp
    | cons e stack =>
      obtain ⟨node, chain⟩ := e
      rw [run_cons]
      split
      · simp
      · next w' hvisit =>
        have := visit_decreases hb hvisit
        simp only [List.length_cons] at hfuel this
        exact ih w' (by omega)

theorem popBound_eq (t : Terrain) (size : Nat) : popBound t size = latent t size [] + 1 := by
  have hsum : latent t size [] = ∑ n ∈ Finset.range size, (t.callers n).length := by
    simp [latent]
  have hrange : Finset.range size = (List.range size).toFinset := by
    ext n
    simp
  rw [hsum, hrange, List.sum_toFinset _ List.nodup_range, Nat.add_comm]
  rfl

/-- The bound on the number of steps is large enough from every start. -/
theorem run_ofStart_ne_unfinished {size : Nat} (hb : t.Bounded size) (start : Nat) :
    run t (popBound t size) (ofStart start) ≠ .unfinished := by
  apply run_ne_unfinished hb
  rw [popBound_eq, Nat.add_comm]
  exact Nat.le_refl _

/-! ## What the walk has cleared -/

/-- The chain of the entry that is next. -/
def topChain : List (Nat × List Nat) → List Nat
  | [] => []
  | e :: _ => e.2

/-- What holds between two visits of a walk that has opened the nodes `opened`,
    `start` among them. -/
structure Invariant (t : Terrain) (start : Nat) (opened : List Nat) (w : Walk) : Prop where
  start_opened : start ∈ opened
  opened_seen : ∀ n ∈ opened, n ∈ w.seen
  opened_goesOn : ∀ n ∈ opened, ¬ t.Ends n
  seen : ∀ n ∈ w.seen, n ∈ opened ∨ t.Shadowed start n
  entry : ∀ e ∈ w.stack, ∃ callee below,
    e.2 = callee :: below ∧ t.Reaches start callee ∧ e.1 ∈ t.callers callee
  chain_opened : ∀ e ∈ w.stack, ∀ n ∈ e.2, n ∈ opened
  chain_nodup : ∀ e ∈ w.stack, e.2.Nodup
  nested : w.stack.Pairwise fun a b => b.2 ⊆ a.2
  /-- Once the entries `above` are settled, so are the opened nodes that the
      entries `below` do not stand on. -/
  cleared : ∀ above below, w.stack = above ++ below → ∀ S : Nat → Prop,
    (∀ n ∈ opened, n ∉ topChain below → S n) →
    (∀ e ∈ above, ¬ t.Shadowed start e.1 → t.Cleared start S e.1) →
    ∀ n ∈ opened, n ∉ topChain below → t.Cleared start S n

theorem Invariant.init (h : ¬ t.Ends start) :
    Invariant t start [start] (afterStart t start) := by
  have hentry : ∀ e ∈ (afterStart t start).stack, e.1 ∈ t.callers start ∧ e.2 = [start] := by
    intro e he
    obtain ⟨c, hc, rfl⟩ := List.mem_map.mp he
    exact ⟨hc, rfl⟩
  refine ⟨by simp, by simp [afterStart], by simpa using h, ?_, ?_, ?_, ?_, ?_, ?_⟩
  · intro n hn
    exact .inl hn
  · intro e he
    obtain ⟨hc, hchain⟩ := hentry e he
    exact ⟨start, [], hchain, .refl, hc⟩
  · intro e he n hn
    rw [(hentry e he).2] at hn
    exact hn
  · intro e he
    rw [(hentry e he).2]
    exact List.pairwise_singleton _ start
  · refine List.pairwise_of_forall_mem_list ?_
    intro a ha b hb
    rw [(hentry a ha).2, (hentry b hb).2]
    exact List.Subset.refl _
  · intro above below hsplit S hS habove n hn hfresh
    have hn : n = start := by simpa using hn
    subst hn
    cases below with
    | nil =>
      rw [List.append_nil] at hsplit
      refine .intro (hS _ (by simp) hfresh) h ?_
      intro c hc
      exact habove (c, [n]) (by rw [← hsplit]; exact List.mem_map.mpr ⟨c, hc, rfl⟩)
    | cons e below =>
      have he := hentry e (by rw [hsplit]; simp)
      exact absurd (by simp [topChain, he.2]) hfresh

namespace Invariant

variable {opened : List Nat} {seen : List Nat} {node : Nat} {chain : List Nat}
  {stack : List (Nat × List Nat)}

/-- The chains of later entries are part of the chain of an earlier one. -/
theorem topChain_subset (inv : Invariant t start opened ⟨seen, (node, chain) :: stack⟩)
    {above below : List (Nat × List Nat)} (h : stack = above ++ below) :
    topChain below ⊆ chain := by
  cases below with
  | nil => simp [topChain]
  | cons e below =>
    have hnested := (List.pairwise_cons.mp inv.nested).1
    exact hnested e (by rw [h]; simp)

/-- An opened node that is not on the current chain is settled. -/
theorem cleared_of_opened (inv : Invariant t start opened ⟨seen, (node, chain) :: stack⟩)
    {n : Nat} (hn : n ∈ opened) (hfresh : n ∉ chain) :
    t.Cleared start (fun m => m ∈ opened ∧ m ∉ chain) n := by
  refine inv.cleared [] _ rfl _ (fun m hm hc => ⟨hm, hc⟩) ?_ n hn hfresh
  intro e he
  cases he

/-- An entry whose node is shielded shadows it. -/
theorem shadowed (inv : Invariant t start opened ⟨seen, (node, chain) :: stack⟩)
    (h : isShielded t node chain = true) : t.Shadowed start node := by
  obtain ⟨callee, below, hchain, hreach, hcall⟩ := inv.entry _ List.mem_cons_self
  simp only at hchain hcall
  rw [hchain] at h
  exact ⟨callee, hreach, hcall, h⟩

/-- The way up leads to an entry's node that is not shielded. -/
theorem reaches (inv : Invariant t start opened ⟨seen, (node, chain) :: stack⟩)
    (h : isShielded t node chain = false) : t.Reaches start node := by
  obtain ⟨callee, below, hchain, hreach, hcall⟩ := inv.entry _ List.mem_cons_self
  simp only at hchain hcall
  rw [hchain] at h
  exact hreach.tail ⟨hcall, h⟩

/-- The first entry goes, and its node, if not shadowed, is settled. -/
theorem drop (inv : Invariant t start opened ⟨seen, (node, chain) :: stack⟩) {seen' : List Nat}
    (hsub : ∀ n ∈ seen, n ∈ seen') (hseen : ∀ n ∈ seen', n ∈ opened ∨ t.Shadowed start n)
    (hnode : ¬ t.Shadowed start node →
      t.Cleared start (fun m => m ∈ opened ∧ m ∉ chain) node) :
    Invariant t start opened ⟨seen', stack⟩ := by
  refine ⟨inv.start_opened, fun n hn => hsub n (inv.opened_seen n hn), inv.opened_goesOn, hseen,
    fun e he => inv.entry e (List.mem_cons_of_mem _ he),
    fun e he => inv.chain_opened e (List.mem_cons_of_mem _ he),
    fun e he => inv.chain_nodup e (List.mem_cons_of_mem _ he),
    (List.pairwise_cons.mp inv.nested).2, ?_⟩
  intro above below hsplit S hS habove
  apply inv.cleared ((node, chain) :: above) below (congrArg _ hsplit) S hS
  intro e he hshadow
  rcases List.mem_cons.mp he with rfl | he
  · refine (hnode hshadow).mono ?_
    intro m hm
    exact hS m hm.1 fun hc => hm.2 (inv.topChain_subset hsplit hc)
  · exact habove e he hshadow

/-- A stack under new entries is cut below all of them, or at one of them. -/
theorem cut_append {new above below : List (Nat × List Nat)} (h : new ++ stack = above ++ below) :
    (∃ above', above = new ++ above' ∧ stack = above' ++ below) ∨
      ∃ e ∈ new, topChain below = e.2 := by
  rcases List.append_eq_append_iff.mp h with ⟨above', hab, hst⟩ | ⟨below', hab, hst⟩
  · exact .inl ⟨above', hab, hst⟩
  · cases below' with
    | nil => exact .inl ⟨[], by rw [hab]; simp, by rw [hst]; simp⟩
    | cons e below' => exact .inr ⟨e, by rw [hab]; simp, by rw [hst]; rfl⟩

/-- A node is opened: its callers come first, and the node is settled when they
    are. -/
theorem push (inv : Invariant t start opened ⟨seen, (node, chain) :: stack⟩)
    (unseen : node ∉ seen) (fresh : node ∉ chain) (unshielded : isShielded t node chain = false)
    (goesOn : ¬ t.Ends node) :
    Invariant t start (node :: opened)
      ⟨node :: seen, (t.callers node).map (·, node :: chain) ++ stack⟩ := by
  have hnew : ∀ e ∈ (t.callers node).map (·, node :: chain),
      e.1 ∈ t.callers node ∧ e.2 = node :: chain := by
    intro e he
    obtain ⟨c, hc, rfl⟩ := List.mem_map.mp he
    exact ⟨hc, rfl⟩
  have hold := List.pairwise_cons.mp inv.nested
  have hchain : ∀ n ∈ chain, n ∈ opened := inv.chain_opened _ List.mem_cons_self
  refine ⟨List.mem_cons_of_mem _ inv.start_opened, ?_, ?_, ?_, ?_, ?_, ?_, ?_, ?_⟩
  · intro n hn
    rcases List.mem_cons.mp hn with rfl | hn
    · exact List.mem_cons_self
    · exact List.mem_cons_of_mem _ (inv.opened_seen n hn)
  · intro n hn
    rcases List.mem_cons.mp hn with rfl | hn
    · exact goesOn
    · exact inv.opened_goesOn n hn
  · intro n hn
    rcases List.mem_cons.mp hn with rfl | hn
    · exact .inl List.mem_cons_self
    · exact (inv.seen n hn).imp_left (List.mem_cons_of_mem _)
  · intro e he
    rcases List.mem_append.mp he with he | he
    · exact ⟨node, chain, (hnew e he).2, inv.reaches unshielded, (hnew e he).1⟩
    · exact inv.entry e (List.mem_cons_of_mem _ he)
  · intro e he n hn
    rcases List.mem_append.mp he with he | he
    · rw [(hnew e he).2] at hn
      rcases List.mem_cons.mp hn with rfl | hn
      · exact List.mem_cons_self
      · exact List.mem_cons_of_mem _ (hchain n hn)
    · exact List.mem_cons_of_mem _ (inv.chain_opened e (List.mem_cons_of_mem _ he) n hn)
  · intro e he
    rcases List.mem_append.mp he with he | he
    · rw [(hnew e he).2, List.nodup_cons]
      exact ⟨fresh, inv.chain_nodup _ List.mem_cons_self⟩
    · exact inv.chain_nodup e (List.mem_cons_of_mem _ he)
  · refine List.pairwise_append.mpr ⟨?_, hold.2, ?_⟩
    · refine List.pairwise_of_forall_mem_list ?_
      intro a ha b hb
      rw [(hnew a ha).2, (hnew b hb).2]
      exact List.Subset.refl _
    · intro a ha b hb
      rw [(hnew a ha).2]
      exact fun n hn => List.mem_cons_of_mem _ (hold.1 b hb hn)
  · intro above below hsplit S hS habove n hn hfresh
    rcases cut_append hsplit with ⟨above', hab, hst⟩ | ⟨e, he, htop⟩
    · -- all callers of `node` are settled, and with them `node`
      have hnode : t.Cleared start S node := by
        refine .intro (hS node List.mem_cons_self ?_) goesOn ?_
        · exact fun hc => fresh (inv.topChain_subset hst hc)
        · intro c hc
          refine habove (c, node :: chain) ?_
          rw [hab]
          exact List.mem_append_left _ (List.mem_map.mpr ⟨c, hc, rfl⟩)
      rcases List.mem_cons.mp hn with rfl | hn
      · exact hnode
      · refine inv.cleared ((node, chain) :: above') below (by rw [hst, List.cons_append]) S ?_ ?_
          n hn hfresh
        · exact fun m hm => hS m (List.mem_cons_of_mem _ hm)
        · intro e he hshadow
          rcases List.mem_cons.mp he with rfl | he
          · exact hnode
          · exact habove e (by rw [hab]; exact List.mem_append_right _ he) hshadow
    · -- the next entry stands on `node`: nothing new is settled yet
      rw [(hnew e he).2] at htop
      rw [htop, List.mem_cons, not_or] at hfresh
      have hn : n ∈ opened := (List.mem_cons.mp hn).resolve_left hfresh.1
      refine (inv.cleared_of_opened hn hfresh.2).mono ?_
      intro m hm
      refine hS m (List.mem_cons_of_mem _ hm.1) ?_
      rw [htop, List.mem_cons, not_or]
      exact ⟨fun h => unseen (h ▸ inv.opened_seen m hm.1), hm.2⟩

/-- A visit that does not end the walk keeps the invariant. -/
theorem step (inv : Invariant t start opened ⟨seen, (node, chain) :: stack⟩) {w : Walk}
    (h : visit t ⟨seen, stack⟩ node chain = .inr w) : ∃ opened', Invariant t start opened' w := by
  have hv := visit_spec t ⟨seen, stack⟩ node chain
  rw [h] at hv
  cases hv with
  | skipped hseen fresh =>
    -- a node seen before was shadowed, or opened and is settled by now
    refine ⟨opened, inv.drop (fun _ hn => hn) inv.seen ?_⟩
    intro hnode
    exact inv.cleared_of_opened ((inv.seen node hseen).resolve_right hnode) fresh
  | turnedAway shielded mem_seen =>
    have hnode := inv.shadowed shielded
    refine ⟨opened, inv.drop (fun n hn => (mem_seen n).mpr (.inr hn)) ?_ (absurd hnode)⟩
    intro n hn
    rcases (mem_seen n).mp hn with rfl | hn
    · exact .inr hnode
    · exact inv.seen n hn
  | opened unseen fresh unshielded goesOn =>
    exact ⟨node :: opened, inv.push unseen fresh unshielded goesOn⟩

theorem cleared_start (inv : Invariant t start opened ⟨seen, []⟩) :
    t.Cleared start (fun _ => True) start := by
  refine inv.cleared [] [] rfl _ (fun _ _ _ => trivial) ?_ start inv.start_opened ?_
  · intro e he
    cases he
  · simp [topChain]

/-- A walk that has nothing left has cleared its start. -/
theorem cleared_of_exhausted {fuel : Nat} {w : Walk} (inv : Invariant t start opened w)
    (h : run t fuel w = .exhausted) : t.Cleared start (fun _ => True) start := by
  have hstep : ∀ seen node chain stack,
      (∃ opened, Invariant t start opened ⟨seen, (node, chain) :: stack⟩) →
        (visit t ⟨seen, stack⟩ node chain).elim (fun _ => True)
          fun w => ∃ opened, Invariant t start opened w := by
    rintro seen node chain stack ⟨opened, inv⟩
    cases hvisit : visit t ⟨seen, stack⟩ node chain with
    | inl path => exact trivial
    | inr w => exact inv.step hvisit
  obtain ⟨seen, opened', inv'⟩ :=
    (run_of_invariant (I := fun w => ∃ opened, Invariant t start opened w) hstep ⟨opened, inv⟩).2 h
  exact inv'.cleared_start

end Invariant

/-! ## From a start -/

theorem find?_eq (t : Terrain) (size start : Nat) :
    find? t size start = (run t (popBound t size) (ofStart start)).path? := by
  rw [find?]
  cases run t (popBound t size) (ofStart start) <;> rfl

theorem run_of_find?_eq_some {size : Nat} {path : CallPath} (h : find? t size start = some path) :
    run t (popBound t size) (ofStart start) = .found path := by
  rw [find?_eq] at h
  cases hrun : run t (popBound t size) (ofStart start) with
  | found found =>
    rw [hrun] at h
    cases h
    rfl
  | exhausted =>
    rw [hrun] at h
    cases h
  | unfinished =>
    rw [hrun] at h
    cases h

theorem find?_of_ends {size : Nat} (h : t.Ends start) :
    find? t size start = some ⟨[start], false⟩ := by
  rw [find?_eq, popBound_eq, run_ofStart, if_pos h]
  rfl

theorem find?_of_not_ends {size : Nat} (h : ¬ t.Ends start) :
    find? t size start = (run t (latent t size []) (afterStart t start)).path? := by
  rw [find?_eq, popBound_eq, run_ofStart, if_neg h]

/-- Past its start, the walk still ends within its bound of steps. -/
theorem run_afterStart_ne_unfinished {size : Nat} (hb : t.Bounded size) (h : ¬ t.Ends start) :
    run t (latent t size []) (afterStart t start) ≠ .unfinished := by
  have hfin := run_ofStart_ne_unfinished hb start
  rwa [popBound_eq, run_ofStart, if_neg h] at hfin

/-- A walk that finds no chain has cleared its start. -/
theorem cleared_of_find?_eq_none {size : Nat} (hb : t.Bounded size)
    (h : find? t size start = none) : t.Cleared start (fun _ => True) start := by
  have hends : ¬ t.Ends start := by
    intro he
    rw [find?_of_ends he] at h
    cases h
  rw [find?_of_not_ends hends] at h
  cases hrun : run t (latent t size []) (afterStart t start) with
  | found path =>
    rw [hrun] at h
    cases h
  | unfinished => exact absurd hrun (run_afterStart_ne_unfinished hb hends)
  | exhausted => exact (Invariant.init hends).cleared_of_exhausted hrun

/-- A walk that finds no chain has missed one exactly when a node that shields
    one call on the way up passes on another, below a failing chain. -/
theorem doomed_iff_of_find?_eq_none {size : Nat} (hb : t.Bounded size)
    (h : find? t size start = none) :
    t.Doomed start ↔
      ∃ m, t.Shadowed start m ∧ (∃ callee, t.Reaches start callee ∧ t.Passes callee m) ∧
        t.Doomed m := by
  constructor
  · exact (cleared_of_find?_eq_none hb h).exists_shadowed .refl
  · rintro ⟨m, -, ⟨callee, hr, hp⟩, hm⟩
    exact .of_reaches (hr.tail hp) hm

end Walk
end LockDiscipline
