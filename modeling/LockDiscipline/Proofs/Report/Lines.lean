import LockDiscipline.Report.Lines
import Mathlib.Data.List.Sort
import Mathlib.Data.String.Basic

/- The lines of a report as a set. `sortedLines` puts lines in strictly ascending
   order and drops none, so what it gives is determined by the lines that there
   are, whatever their order and however often they stand
   (`sortedLines_congr`). Unlocked accesses and escapes are told apart by how
   their lines end (`isEscapeLine_unlocked`). -/
namespace LockDiscipline

variable {lines : List String} {line : String}

theorem mem_eraseReps_loop {kept : List String} {last : String} :
    line ∈ List.eraseRepsBy.loop (· == ·) last lines kept ↔
      line ∈ kept ∨ line = last ∨ line ∈ lines := by
  induction lines generalizing last kept with
  | nil => simp [List.eraseRepsBy.loop, or_comm]
  | cons next lines ih =>
    rw [List.eraseRepsBy.loop]
    cases hnext : last == next with
    | true =>
      have heq : last = next := beq_iff_eq.mp hnext
      simp [ih, ← heq]
    | false => simp [ih, or_assoc, or_left_comm]

theorem pairwise_eraseReps_loop {kept : List String} {last : String}
    (hlines : (last :: lines).Pairwise (· ≤ ·)) (hkept : kept.Pairwise (· > ·))
    (hlast : ∀ line ∈ kept, line < last) :
    (List.eraseRepsBy.loop (· == ·) last lines kept).Pairwise (· < ·) := by
  induction lines generalizing last kept with
  | nil =>
    rw [List.eraseRepsBy.loop, List.pairwise_reverse]
    exact List.pairwise_cons.mpr ⟨hlast, hkept⟩
  | cons next lines ih =>
    obtain ⟨hle, hrest⟩ := List.pairwise_cons.mp hlines
    rw [List.eraseRepsBy.loop]
    cases hnext : last == next with
    | true =>
      rw [← beq_iff_eq.mp hnext] at hrest
      exact ih hrest hkept hlast
    | false =>
      have hlt : last < next := lt_of_le_of_ne (hle next List.mem_cons_self) (by simpa using hnext)
      refine ih hrest (List.pairwise_cons.mpr ⟨hlast, hkept⟩) ?_
      intro line hline
      rcases List.mem_cons.mp hline with rfl | hline
      · exact hlt
      · exact lt_trans (hlast line hline) hlt

/-- No line is lost and none is made up. -/
theorem mem_sortedLines : line ∈ sortedLines lines ↔ line ∈ lines := by
  have hsort : line ∈ lines.mergeSort (fun a b => decide (a ≤ b)) ↔ line ∈ lines :=
    List.mem_mergeSort
  rw [← hsort, sortedLines]
  cases lines.mergeSort fun a b => decide (a ≤ b) with
  | nil => rfl
  | cons first rest => simp [List.eraseReps, List.eraseRepsBy, mem_eraseReps_loop]

theorem pairwise_sortedLines (lines : List String) : (sortedLines lines).Pairwise (· < ·) := by
  have hsorted : (lines.mergeSort fun a b => decide (a ≤ b)).Pairwise (· ≤ ·) := by
    have htrans : ∀ a b c : String, decide (a ≤ b) = true → decide (b ≤ c) = true →
        decide (a ≤ c) = true := by
      intro a b c hab hbc
      exact decide_eq_true (le_trans (of_decide_eq_true hab) (of_decide_eq_true hbc))
    have htotal : ∀ a b : String, (decide (a ≤ b) || decide (b ≤ a)) = true := by
      intro a b
      simpa using le_total a b
    exact (List.pairwise_mergeSort htrans htotal lines).imp of_decide_eq_true
  rw [sortedLines]
  cases hlines : lines.mergeSort fun a b => decide (a ≤ b) with
  | nil => exact .nil
  | cons first rest =>
    rw [hlines] at hsorted
    exact pairwise_eraseReps_loop hsorted .nil (by simp)

theorem sortedLines_congr {lines' : List String} (h : ∀ line, line ∈ lines ↔ line ∈ lines') :
    sortedLines lines = sortedLines lines' := by
  refine (pairwise_sortedLines lines).eq_of_mem_iff (pairwise_sortedLines lines') ?_
  intro line
  rw [mem_sortedLines, mem_sortedLines, h]

/-- The position is the first of the violation that is known. -/
def Violation.FirstKnown (v : Violation) (pos : Position) : Prop :=
  ∃ before after, v.positions = before ++ pos :: after ∧ pos.isKnown = true ∧
    ∀ q ∈ before, q.isKnown = false

theorem Violation.primary?_eq_some {v : Violation} {pos : Position} :
    v.primary? = some pos ↔ v.FirstKnown pos := by
  rw [primary?, List.find?_eq_some_iff_append]
  refine ⟨?_, ?_⟩
  · intro h
    obtain ⟨hknown, before, after, hsplit, hbefore⟩ := h
    exact ⟨before, after, hsplit, hknown, fun q hq => by simpa using hbefore q hq⟩
  · intro h
    obtain ⟨before, after, hsplit, hknown, hbefore⟩ := h
    exact ⟨hknown, before, after, hsplit, fun q hq => by simp [hbefore q hq]⟩

namespace Report

variable {r r' : Report} (p : Program)

/-! ## Unlocked accesses and escapes -/

theorem mem_unlockedLines : line ∈ r.unlockedLines p ↔
    ∃ v ∈ r.violations, unlockedLine? p v = some line := by
  rw [unlockedLines, mem_sortedLines, List.mem_filterMap]

theorem unlockedLine?_eq_some {v : Violation} : unlockedLine? p v = some line ↔
    ∃ pos, v.FirstKnown pos ∧ line = lineAt p pos unlockedMessage := by
  rw [unlockedLine?, Option.map_eq_some_iff]
  simp only [Violation.primary?_eq_some, @eq_comm _ line]

theorem mem_escapeLines : line ∈ r.escapeLines p ↔
    ∃ e ∈ r.escapes, e.pos.isKnown = true ∧ line = lineAt p e.pos escapeMessage := by
  rw [escapeLines, mem_sortedLines, List.mem_map]
  simp only [List.mem_filter, and_assoc, @eq_comm _ line]

theorem isEscapeLine_iff : isEscapeLine line = true ↔ escapeMessage.toList <:+ line.toList := by
  rw [isEscapeLine, Text.before?, List.isSome_isSuffixOf?_eq_isSuffixOf,
    List.isSuffixOf_iff_suffix]

theorem isEscapeLine_escape (pos : Position) :
    isEscapeLine (lineAt p pos escapeMessage) = true := by
  rw [isEscapeLine_iff, lineAt, String.toList_append]
  exact List.suffix_append _ _

/-- The messages end in different characters. -/
theorem isEscapeLine_unlocked (pos : Position) :
    isEscapeLine (lineAt p pos unlockedMessage) = false := by
  rw [Bool.eq_false_iff, Ne, isEscapeLine_iff, lineAt, String.toList_append]
  intro h
  obtain ⟨front, h⟩ := h
  have hlast := congrArg List.getLast? h
  have hescape : escapeMessage.toList.getLast? = some 'd' := by decide
  have hunlocked : unlockedMessage.toList.getLast? = some 'k' := by decide
  rw [List.getLast?_append, List.getLast?_append, hescape, hunlocked] at hlast
  cases hlast

theorem isEscapeLine_of_mem_unlockedLines (h : line ∈ r.unlockedLines p) :
    isEscapeLine line = false := by
  obtain ⟨v, -, hline⟩ := (mem_unlockedLines p).mp h
  obtain ⟨pos, -, rfl⟩ := (unlockedLine?_eq_some p).mp hline
  exact isEscapeLine_unlocked p pos

theorem isEscapeLine_of_mem_escapeLines (h : line ∈ r.escapeLines p) :
    isEscapeLine line = true := by
  obtain ⟨e, -, -, rfl⟩ := (mem_escapeLines p).mp h
  exact isEscapeLine_escape p e.pos

/-! ## Reports with the same findings -/

theorem unlockedLines_congr (h : ∀ v, v ∈ r.violations ↔ v ∈ r'.violations) :
    r.unlockedLines p = r'.unlockedLines p := by
  refine sortedLines_congr ?_
  intro line
  simp only [List.mem_filterMap, h]

theorem escapeLines_congr (h : ∀ e, e ∈ r.escapes ↔ e ∈ r'.escapes) :
    r.escapeLines p = r'.escapeLines p := by
  refine sortedLines_congr ?_
  intro line
  simp only [List.mem_map, List.mem_filter, h]

/-- Reports with the same findings have the same lines, in the same order. -/
theorem findingLines_congr (hv : ∀ v, v ∈ r.violations ↔ v ∈ r'.violations)
    (he : ∀ e, e ∈ r.escapes ↔ e ∈ r'.escapes) : r.findingLines p = r'.findingLines p := by
  rw [findingLines, findingLines, unlockedLines_congr p hv, escapeLines_congr p he]

theorem isClean_congr (hv : ∀ v, v ∈ r.violations ↔ v ∈ r'.violations)
    (he : ∀ e, e ∈ r.escapes ↔ e ∈ r'.escapes) : r.isClean = r'.isClean := by
  have hclean : ∀ r : Report,
      r.isClean = true ↔ (∀ v, v ∉ r.violations) ∧ ∀ e, e ∉ r.escapes := by
    intro r
    rw [isClean, Bool.and_eq_true, List.isEmpty_iff, List.isEmpty_iff,
      List.eq_nil_iff_forall_not_mem, List.eq_nil_iff_forall_not_mem]
  rw [Bool.eq_iff_iff, hclean, hclean]
  simp only [hv, he]

end Report
end LockDiscipline
