import LockDiscipline.Guard.Usage

/- What a usage map holds. The loops over functions, instructions and locations
   that fill the map are taken one at a time: each lemma says what is found under
   a location after one more loop. In the end these are the functions with an
   instruction that uses the location (`users_eq_filter`). -/
namespace LockDiscipline

namespace UsageMap

variable {n : Nat} {nodes : List Nat}

@[simp]
theorem usersOf_empty (k : Location) : usersOf .empty k = [] := rfl

theorem insertNode_of_forall_lt (h : ∀ m ∈ nodes, m < n) : insertNode n nodes = nodes ++ [n] := by
  induction nodes with
  | nil => rfl
  | cons m rest ih =>
    obtain ⟨hm, hrest⟩ := List.forall_mem_cons.mp h
    rw [insertNode, if_neg (Nat.not_lt_of_gt hm), if_neg (Nat.ne_of_gt hm), ih hrest,
      List.cons_append]

theorem insertNode_insertNode (n : Nat) (nodes : List Nat) :
    insertNode n (insertNode n nodes) = insertNode n nodes := by
  induction nodes with
  | nil => simp [insertNode]
  | cons m rest ih =>
    rw [insertNode]
    split
    · simp [insertNode]
    · split
      · next hlt heq => rw [insertNode, if_neg hlt, if_pos heq]
      · next hlt hne => rw [insertNode, if_neg hlt, if_neg hne, ih]

theorem usersOf_addUser (usages : UsageMap) (l k : Location) (n : Nat) :
    (usages.addUser l n).usersOf k =
      if k = l then insertNode n (usages.usersOf k) else usages.usersOf k := by
  rw [usersOf, addUser, Dictionary.get?_alter]
  split
  · next h => rw [h]; rfl
  · rfl

end UsageMap

namespace Program

theorem mem_checkedNodes {p : Program} {n : Nat} :
    n ∈ p.checkedNodes ↔ n < p.snapshot.functions.size ∧ p.isInit n = false := by
  rw [checkedNodes, nodes, List.mem_filter, List.mem_range, Bool.not_eq_true']

theorem pairwise_checkedNodes (p : Program) : p.checkedNodes.Pairwise (· < ·) :=
  List.pairwise_lt_range.sublist List.filter_sublist

end Program

namespace Discipline

variable (d : Discipline) (p : Program) (guarded : List Location)

/-! ## One instruction -/

theorem usersOf_noteUses (n : Nat) (usages : UsageMap) (i : Instruction) (k : Location) :
    (d.noteUses guarded n usages i).usersOf k =
      if k ∈ guarded ∧ d.uses i k = true then UsageMap.insertNode n (usages.usersOf k)
      else usages.usersOf k := by
  unfold noteUses
  induction guarded generalizing usages with
  | nil => simp
  | cons l guarded ih =>
    rw [List.foldl_cons, ih]
    cases hl : d.uses i l with
    | false =>
      have hmem : k ∈ l :: guarded ∧ d.uses i k = true ↔ k ∈ guarded ∧ d.uses i k = true := by
        rw [List.mem_cons]
        constructor
        · rintro ⟨rfl | hk, huses⟩
          · rw [hl] at huses
            cases huses
          · exact ⟨hk, huses⟩
        · exact fun h => ⟨.inr h.1, h.2⟩
      simp only [hmem, Bool.false_eq_true, if_false]
    | true =>
      rw [if_pos rfl, UsageMap.usersOf_addUser]
      by_cases hk : k = l
      · -- the function may be entered again, which changes nothing
        subst hk
        simp only [hl, List.mem_cons_self, and_true, if_true, UsageMap.insertNode_insertNode,
          ite_self]
      · simp only [hk, if_false, List.mem_cons, false_or]

/-! ## One function -/

theorem usersOf_foldl_noteUses (n : Nat) (body : List Instruction) (usages : UsageMap)
    (k : Location) :
    (body.foldl (d.noteUses guarded n) usages).usersOf k =
      if k ∈ guarded ∧ body.any (d.uses · k) = true then UsageMap.insertNode n (usages.usersOf k)
      else usages.usersOf k := by
  induction body generalizing usages with
  | nil => simp
  | cons i body ih =>
    rw [List.foldl_cons, ih, usersOf_noteUses, List.any_cons]
    by_cases hk : k ∈ guarded
    · cases d.uses i k <;> cases body.any (d.uses · k) <;>
        simp [hk, UsageMap.insertNode_insertNode]
    · simp [hk]

/-! ## All functions -/

/-- Functions that come after all that are entered are entered behind them. -/
theorem usersOf_foldl {nodes : List Nat} (hnodes : nodes.Pairwise (· < ·)) (usages : UsageMap)
    {k : Location} (hk : k ∈ guarded) (hbelow : ∀ m ∈ usages.usersOf k, ∀ n ∈ nodes, m < n) :
    (nodes.foldl (fun usages n => (p.body n).foldl (d.noteUses guarded n) usages) usages).usersOf k =
      usages.usersOf k ++ nodes.filter fun n => (p.body n).any (d.uses · k) := by
  induction nodes generalizing usages with
  | nil => simp
  | cons n nodes ih =>
    obtain ⟨hn, hnodes⟩ := List.pairwise_cons.mp hnodes
    have hstep := d.usersOf_foldl_noteUses guarded n (p.body n) usages k
    rw [List.foldl_cons, List.filter_cons]
    cases huses : (p.body n).any (d.uses · k) with
    | false =>
      rw [huses, if_neg (fun h => Bool.false_ne_true h.2)] at hstep
      rw [ih hnodes, hstep, if_neg Bool.false_ne_true]
      rw [hstep]
      exact fun m hm n' hn' => hbelow m hm n' (List.mem_cons_of_mem n hn')
    | true =>
      rw [huses, if_pos ⟨hk, rfl⟩, UsageMap.insertNode_of_forall_lt
        (fun m hm => hbelow m hm n List.mem_cons_self)] at hstep
      rw [ih hnodes, hstep, if_pos rfl, List.append_assoc, List.singleton_append]
      rw [hstep]
      intro m hm n' hn'
      rcases List.mem_append.mp hm with hm | hm
      · exact hbelow m hm n' (List.mem_cons_of_mem n hn')
      · rw [List.mem_singleton.mp hm]
        exact hn n' hn'

variable {d p} {e : Location × Guard}

/-- The users of a protected location are the functions, initializers apart, with an
    instruction that uses it. -/
theorem users_eq_filter (he : e ∈ (d.resolve p).guards.entries) :
    d.users p e.1 = p.checkedNodes.filter fun n => (p.body n).any (d.uses · e.1) :=
  d.usersOf_foldl p _ p.pairwise_checkedNodes .empty (List.mem_map_of_mem he) (by simp)

theorem mem_users (he : e ∈ (d.resolve p).guards.entries) {n : Nat} :
    n ∈ d.users p e.1 ↔ n < p.snapshot.functions.size ∧ p.isInit n = false ∧
      (p.body n).any (d.uses · e.1) = true := by
  rw [users_eq_filter he, List.mem_filter, Program.mem_checkedNodes, and_assoc]

theorem pairwise_users (he : e ∈ (d.resolve p).guards.entries) :
    (d.users p e.1).Pairwise (· < ·) := by
  rw [users_eq_filter he]
  exact p.pairwise_checkedNodes.sublist List.filter_sublist

end Discipline
end LockDiscipline
