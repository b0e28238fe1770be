import LockDiscipline.Proofs.Analysis.Escapes
import LockDiscipline.Proofs.Analysis.Selection
import LockDiscipline.Proofs.Checked.Lines

/- No finding of a check is silent. Lines are printed for known positions only,
   and users of a location are looked for at unknown positions too, so that a
   violation might end up without a line. It does not: a breach has known
   positions, and at least one, and a handout is at a known position
   (`Program.check_known`). The line of a violation is then that of its first
   position, and a report without lines is a report without findings
   (`findings_all_printed`). -/
namespace LockDiscipline

namespace Report

/-- Each violation has positions, and all positions of findings are known. -/
structure Known (r : Report) : Prop where
  used : ∀ v ∈ r.violations, v.positions ≠ []
  violations : ∀ v ∈ r.violations, ∀ pos ∈ v.positions, pos.isKnown = true
  escapes : ∀ e ∈ r.escapes, e.pos.isKnown = true

end Report

/-! ## What a check finds is known -/

variable {d : Discipline} {p : Program}

theorem Breach.isKnown_of_mem_positions {b : Breach} {pos : Position} (h : pos ∈ b.positions d p) :
    pos.isKnown = true := by
  obtain ⟨i, hi, rfl⟩ := List.mem_map.mp (List.mem_filter.mp h).1
  have hi := (List.mem_filter.mp hi).2
  exact ((Bool.and_eq_true _ _).mp hi).1

theorem Discipline.check_known (d : Discipline) (p : Program) : (d.check p).Known := by
  refine ⟨?_, ?_, ?_⟩
  · intro v hv
    -- what is recorded later is added behind the positions of the first breach
    obtain ⟨b, hb, hext, -⟩ := exists_first_breach hv
    intro hnone
    have hprefix := hext.positions
    rw [hnone] at hprefix
    exact hb.used (List.prefix_nil.mp hprefix)
  · intro v hv pos hpos
    obtain ⟨-, b, -, -, hpos⟩ := exists_violation_iff.mp ⟨v, hv, rfl, rfl, hpos⟩
    exact Breach.isKnown_of_mem_positions hpos
  · intro e he
    rw [← map_handouts] at he
    obtain ⟨h, hh, rfl⟩ := List.mem_map.mp he
    exact (mem_handouts.mp hh).known

theorem Program.check_known (p : Program) (ds : List Discipline) : (p.check ds).Known := by
  refine ⟨?_, ?_, ?_⟩
  · intro v hv
    exact (v.discipline.check_known p).used v (mem_check_violations.mp hv).2
  · intro v hv
    exact (v.discipline.check_known p).violations v (mem_check_violations.mp hv).2
  · intro e he
    obtain ⟨d, -, he⟩ := mem_check_escapes.mp he
    exact (d.check_known p).escapes e he

/-! ## What is known is printed -/

namespace Report.Known

variable {r : Report} (h : r.Known)
include h

theorem primary?_eq_head? {v : Violation} (hv : v ∈ r.violations) :
    v.primary? = v.positions.head? := by
  rw [Violation.primary?]
  cases hpositions : v.positions with
  | nil => rfl
  | cons pos more =>
    have hpos : pos.isKnown = true := h.violations v hv pos (by simp [hpositions])
    rw [List.find?_cons_of_pos hpos, List.head?_cons]

/-- The lines of findings are those of the first positions of violations and
    those of escapes. -/
theorem mem_findingLines (p : Program) {line : String} :
    line ∈ r.findingLines p ↔
      (∃ v ∈ r.violations, ∃ pos, v.positions.head? = some pos ∧
        line = lineAt p pos unlockedMessage) ∨
      ∃ e ∈ r.escapes, line = lineAt p e.pos escapeMessage := by
  rw [findingLines, List.mem_append, mem_unlockedLines, mem_escapeLines]
  refine or_congr ?_ ?_
  · refine exists_congr fun v => and_congr_right fun hv => ?_
    rw [unlockedLine?, h.primary?_eq_head? hv, Option.map_eq_some_iff]
    simp only [@eq_comm _ line]
  · refine exists_congr fun e => and_congr_right fun he => ?_
    simp only [h.escapes e he, true_and]

theorem exists_line (p : Program) {v : Violation} (hv : v ∈ r.violations) :
    ∃ first, v.positions.head? = some first ∧ lineAt p first unlockedMessage ∈ r.findingLines p := by
  obtain ⟨first, more, hpositions⟩ := List.exists_cons_of_ne_nil (h.used v hv)
  have hfirst : v.positions.head? = some first := by rw [hpositions, List.head?_cons]
  exact ⟨first, hfirst, (h.mem_findingLines p).mpr (.inl ⟨v, hv, first, hfirst, rfl⟩)⟩

theorem line_of_escape (p : Program) {e : Escape} (he : e ∈ r.escapes) :
    lineAt p e.pos escapeMessage ∈ r.findingLines p :=
  (h.mem_findingLines p).mpr (.inr ⟨e, he, rfl⟩)

theorem isClean_iff (p : Program) : r.isClean = true ↔ r.findingLines p = [] := by
  rw [isClean, Bool.and_eq_true, List.isEmpty_iff, List.isEmpty_iff]
  refine ⟨?_, ?_⟩
  · intro hclean
    rw [List.eq_nil_iff_forall_not_mem]
    intro line hline
    rw [h.mem_findingLines p, hclean.1, hclean.2] at hline
    simp at hline
  · intro hnone
    refine ⟨?_, ?_⟩
    · rw [List.eq_nil_iff_forall_not_mem]
      intro v hv
      obtain ⟨first, -, hline⟩ := h.exists_line p hv
      rw [hnone] at hline
      cases hline
    · rw [List.eq_nil_iff_forall_not_mem]
      intro e he
      have hline := h.line_of_escape p he
      rw [hnone] at hline
      cases hline

/-- With paths shown, every violation is in the group of a line. -/
theorem perm_groups (p : Program) : ((r.groups p).entries.flatMap Prod.snd).Perm r.violations := by
  have hall : (r.violations.filter fun v => v.positions.any Position.isKnown) = r.violations := by
    rw [List.filter_eq_self]
    intro v hv
    obtain ⟨pos, hpos⟩ := List.exists_mem_of_ne_nil _ (h.used v hv)
    exact List.any_eq_true.mpr ⟨pos, hpos, h.violations v hv pos hpos⟩
  rw [← hall]
  exact Report.perm_groups p r

end Report.Known

open Report

/-- Whatever disciplines are checked and whatever module is in scope, the lines of
    findings are printed, and no finding goes without one. A violation has positions,
    all of them known, and the line of the first one; an escape has a known position
    and its line. So the report is clean exactly when there are no lines, and with paths
    shown every violation stands under some line. -/
theorem findings_all_printed (p : Program) (ds : List Discipline) :
    ∃ lines, Checked.findingLines p (p.check ds) = .ok lines ∧
      (∀ v ∈ (p.check ds).violations,
        v.positions ≠ [] ∧ (∀ pos ∈ v.positions, pos.isKnown = true) ∧
          ∃ first, v.positions.head? = some first ∧ lineAt p first unlockedMessage ∈ lines) ∧
      (∀ e ∈ (p.check ds).escapes,
        e.pos.isKnown = true ∧ lineAt p e.pos escapeMessage ∈ lines) ∧
      ((p.check ds).isClean = true ↔ lines = []) ∧
      (((p.check ds).groups p).entries.flatMap Prod.snd).Perm (p.check ds).violations := by
  have hknown := p.check_known ds
  refine ⟨_, Checked.findingLines_ok (p.check_inRange ds), ?_, ?_, hknown.isClean_iff p,
    hknown.perm_groups p⟩
  · intro v hv
    exact ⟨hknown.used v hv, hknown.violations v hv, hknown.exists_line p hv⟩
  · intro e he
    exact ⟨hknown.escapes e he, hknown.line_of_escape p he⟩

end LockDiscipline
