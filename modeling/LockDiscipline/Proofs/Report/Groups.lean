import LockDiscipline.Proofs.Report.Lines
import Mathlib.Data.List.Induction

/- The groups of a report. A violation that is added joins the violations of its
   line at the end and leaves the other groups alone (`mem_addEntry`). So the
   groups stand under the lines of unlocked accesses, in the order of these, a
   group has the violations of its line in recording order (`groups_entries`),
   and every violation that has a line is in one group, once
   (`perm_groups`). -/
namespace LockDiscipline

/-! ## One violation -/

namespace LineGroups

variable {line : String} {v : Violation} {g : String × List Violation}
  {entries : List (String × List Violation)}

/-- A group after a violation was added: that of another line is as before, and that
    of its line is the old group with the violation at its end, or has nothing else. -/
theorem mem_addEntry (h : Ordered entries) (hg : g ∈ addEntry line v entries) :
    g.1 ≠ line ∧ g ∈ entries ∨
      g.1 = line ∧ ((∃ vs, (line, vs) ∈ entries ∧ g.2 = vs ++ [v]) ∨
        line ∉ entries.map Prod.fst ∧ g.2 = [v]) := by
  induction entries with
  | nil =>
    rw [addEntry, List.mem_singleton] at hg
    rw [hg]
    exact .inr ⟨rfl, .inr ⟨List.not_mem_nil, rfl⟩⟩
  | cons e rest ih =>
    obtain ⟨hhead, hrest⟩ := List.pairwise_cons.mp h
    rw [addEntry] at hg
    split at hg
    · next hlt =>
      -- all lines are behind the new one
      have hbehind : ∀ x ∈ e :: rest, line < x.1 := by
        intro x hx
        rcases List.mem_cons.mp hx with rfl | hx
        · exact hlt
        · exact lt_trans hlt (hhead x hx)
      rcases List.mem_cons.mp hg with rfl | hg
      · refine .inr ⟨rfl, .inr ⟨?_, rfl⟩⟩
        intro hmem
        obtain ⟨x, hx, heq⟩ := List.mem_map.mp hmem
        exact absurd heq (hbehind x hx).ne'
      · exact .inl ⟨(hbehind g hg).ne', hg⟩
    · split at hg
      · next heq =>
        rcases List.mem_cons.mp hg with rfl | hg
        · exact .inr ⟨heq.symm, .inl ⟨e.2, by simp [heq], rfl⟩⟩
        · exact .inl ⟨heq ▸ (hhead g hg).ne', List.mem_cons_of_mem e hg⟩
      · next hne =>
        rcases List.mem_cons.mp hg with rfl | hg
        · exact .inl ⟨Ne.symm hne, List.mem_cons_self⟩
        · rcases ih hrest hg with ⟨hother, hmem⟩ | ⟨hline, ⟨vs, hvs, hjoined⟩ | ⟨hnew, hsingle⟩⟩
          · exact .inl ⟨hother, List.mem_cons_of_mem e hmem⟩
          · exact .inr ⟨hline, .inl ⟨vs, List.mem_cons_of_mem e hvs, hjoined⟩⟩
          · refine .inr ⟨hline, .inr ⟨?_, hsingle⟩⟩
            rw [List.map_cons, List.mem_cons, not_or]
            exact ⟨hne, hnew⟩

/-- The violation comes in once, and no other is lost or made up. -/
theorem perm_addEntry (line : String) (v : Violation) (entries : List (String × List Violation)) :
    ((addEntry line v entries).flatMap Prod.snd).Perm (entries.flatMap Prod.snd ++ [v]) := by
  induction entries with
  | nil => exact .refl _
  | cons e rest ih =>
    rw [addEntry]
    split
    · exact List.perm_append_comm
    · split
      · simp only [List.flatMap_cons, List.append_assoc]
        exact List.perm_append_comm.append_left e.2
      · simp only [List.flatMap_cons, List.append_assoc]
        exact ih.append_left e.2

end LineGroups

/-! ## All violations -/

namespace Report

variable {p : Program} {vs : List Violation} {v : Violation}

/-- The groups hold the violations `vs`. -/
structure Grouped (p : Program) (vs : List Violation) (groups : LineGroups) : Prop where
  lines : ∀ line, line ∈ groups.entries.map Prod.fst ↔ ∃ v ∈ vs, unlockedLine? p v = some line
  group : ∀ g ∈ groups.entries, g.2 = vs.filter (unlockedLine? p · == some g.1)
  perm : (groups.entries.flatMap Prod.snd).Perm (vs.filter fun v => (unlockedLine? p v).isSome)

theorem Grouped.addToGroup {groups : LineGroups} (h : Grouped p vs groups) (v : Violation) :
    Grouped p (vs ++ [v]) (addToGroup p groups v) := by
  cases hv : unlockedLine? p v with
  | none =>
    have hsame : Report.addToGroup p groups v = groups := by rw [Report.addToGroup, hv]
    rw [hsame]
    refine ⟨?_, ?_, ?_⟩
    · intro line
      simp [h.lines, or_and_right, exists_or, hv]
    · intro g hg
      simp [h.group g hg, List.filter_append, hv]
    · simpa [List.filter_append, hv] using h.perm
  | some line =>
    have hadd : Report.addToGroup p groups v = groups.add line v := by rw [Report.addToGroup, hv]
    rw [hadd]
    refine ⟨?_, ?_, ?_⟩
    · intro x
      rw [LineGroups.add, LineGroups.mem_fst_addEntry, h.lines]
      simp [or_and_right, exists_or, hv, or_comm, eq_comm]
    · intro g hg
      rw [List.filter_append]
      rcases LineGroups.mem_addEntry groups.ordered hg with
        ⟨hother, hmem⟩ | ⟨rfl, ⟨ws, hws, hjoined⟩ | ⟨hnew, hsingle⟩⟩
      · simp [h.group g hmem, hv, Ne.symm hother]
      · have hgroup : ws = vs.filter (unlockedLine? p · == some g.1) := h.group _ hws
        simp [hjoined, hgroup, hv]
      · -- no earlier violation has this line
        have hnone : vs.filter (unlockedLine? p · == some g.1) = [] := by
          rw [List.filter_eq_nil_iff]
          intro w hw heq
          exact hnew ((h.lines g.1).mpr ⟨w, hw, beq_iff_eq.mp heq⟩)
        simp [hsingle, hnone, hv]
    · have hkept : [v].filter (fun v => (unlockedLine? p v).isSome) = [v] := by simp [hv]
      rw [List.filter_append, hkept]
      exact (LineGroups.perm_addEntry line v groups.entries).trans (h.perm.append_right [v])

theorem grouped_groups (p : Program) (r : Report) : Grouped p r.violations (r.groups p) := by
  rw [groups]
  induction r.violations using List.reverseRecOn with
  | nil => exact ⟨by simp [LineGroups.empty], by simp [LineGroups.empty], .refl _⟩
  | append_singleton vs v ih =>
    rw [List.foldl_append]
    exact ih.addToGroup v

theorem map_fst_groups (p : Program) (r : Report) :
    (r.groups p).entries.map Prod.fst = r.unlockedLines p := by
  refine List.Pairwise.eq_of_mem_iff (List.pairwise_map.mpr (r.groups p).ordered)
    (pairwise_sortedLines _) ?_
  intro line
  rw [(grouped_groups p r).lines, ← mem_unlockedLines, unlockedLines]

/-- The groups stand under the lines of unlocked accesses, and each has the violations
    of its line in recording order. -/
theorem groups_entries (p : Program) (r : Report) :
    (r.groups p).entries = (r.unlockedLines p).map fun line =>
      (line, r.violations.filter (unlockedLine? p · == some line)) := by
  rw [← map_fst_groups, List.map_map]
  calc (r.groups p).entries
      = (r.groups p).entries.map id := (List.map_id _).symm
    _ = (r.groups p).entries.map _ := by
        apply List.map_congr_left
        intro g hg
        exact Prod.ext rfl ((grouped_groups p r).group g hg)

theorem isSome_unlockedLine? (p : Program) (v : Violation) :
    (unlockedLine? p v).isSome = v.positions.any Position.isKnown := by
  rw [unlockedLine?, Option.isSome_map, Violation.primary?, List.isSome_find?]

/-- The violations with a known position are in the groups, each as often as in the
    report, and no others are. -/
theorem perm_groups (p : Program) (r : Report) :
    ((r.groups p).entries.flatMap Prod.snd).Perm
      (r.violations.filter fun v => v.positions.any Position.isKnown) := by
  have hperm := (grouped_groups p r).perm
  simp only [isSome_unlockedLine?] at hperm
  exact hperm

end Report
end LockDiscipline
