import LockDiscipline.Report.Basic

/- Violations grouped by their lines. The groups are in the order of their lines,
   and the violations of a group are in the order in which they came. -/
namespace LockDiscipline

/-- The groups are in strictly ascending order of lines. -/
abbrev LineGroups.Ordered (entries : List (String × List Violation)) : Prop :=
  entries.Pairwise fun a b => a.1 < b.1

/-- Lines, each with the violations that it stands for. -/
structure LineGroups where
  entries : List (String × List Violation)
  ordered : LineGroups.Ordered entries

namespace LineGroups

/-- There are no groups. -/
def empty : LineGroups := ⟨[], .nil⟩

/-- Puts a violation at the end of the group of its line, or into a new group. -/
def addEntry (line : String) (v : Violation) :
    List (String × List Violation) → List (String × List Violation)
  | [] => [(line, [v])]
  | g :: rest =>
    if line < g.1 then (line, [v]) :: g :: rest
    else if line = g.1 then (g.1, g.2 ++ [v]) :: rest
    else g :: addEntry line v rest

theorem mem_fst_addEntry {line x : String} {v : Violation}
    {entries : List (String × List Violation)} :
    x ∈ (addEntry line v entries).map Prod.fst ↔ x = line ∨ x ∈ entries.map Prod.fst := by
  induction entries with
  | nil => simp [addEntry]
  | cons g rest ih =>
    rw [addEntry]
    split
    · simp
    · split
      · next heq => simp [heq]
      · rw [List.map_cons, List.mem_cons, ih, List.map_cons, List.mem_cons, or_left_comm]

theorem addEntry_ordered (line : String) (v : Violation) {entries : List (String × List Violation)}
    (h : Ordered entries) : Ordered (addEntry line v entries) := by
  induction entries with
  | nil => simp [addEntry, Ordered]
  | cons g rest ih =>
    obtain ⟨hhead, hrest⟩ := List.pairwise_cons.1 h
    rw [addEntry]
    split
    · next hlt =>
      refine List.pairwise_cons.2 ⟨?_, h⟩
      intro x hx
      rcases List.mem_cons.1 hx with rfl | hx
      · exact hlt
      · exact String.lt_trans hlt (hhead x hx)
    · split
      · exact List.pairwise_cons.2 ⟨hhead, hrest⟩
      · next hge hne =>
        refine List.pairwise_cons.2 ⟨?_, ih hrest⟩
        intro x hx
        rcases mem_fst_addEntry.1 (List.mem_map_of_mem hx) with hline | hx
        · rw [hline]
          exact Std.lt_of_le_of_ne (String.not_lt.1 hge) (Ne.symm hne)
        · obtain ⟨y, hy, heq⟩ := List.mem_map.1 hx
          rw [← heq]
          exact hhead y hy

/-- Adds a violation to the group of its line. -/
def add (m : LineGroups) (line : String) (v : Violation) : LineGroups :=
  ⟨addEntry line v m.entries, addEntry_ordered line v m.ordered⟩

end LineGroups
end LockDiscipline
