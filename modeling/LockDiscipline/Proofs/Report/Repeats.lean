import LockDiscipline.Proofs.Analysis.Selection

/- When a violation lists a position twice. Positions that are added to a violation
   are added once (`nodup_positions_addPositions`), but the positions of the breach
   that is recorded first are taken as they come, one for each use. So a report
   lists no position twice exactly when no function uses a location twice at one
   position in a breach that is the first of its signature
   (`positions_distinct_iff`), and there are programs where one does
   (`bumped_listed_twice`). -/
namespace LockDiscipline

/-! ## Added positions -/

theorem Text.nodup_distinct {α : Type} [BEq α] [LawfulBEq α] (xs : List α) :
    (distinct xs).Nodup := by
  induction xs using List.reverseRecOn with
  | nil => exact .nil
  | append_singleton xs x ih =>
    by_cases hx : x ∈ xs
    · rw [distinct_concat_of_mem hx]
      exact ih
    · rw [distinct_concat_of_not_mem hx, ← List.concat_eq_append]
      exact ih.concat fun h => hx (mem_distinct.mp h)

/-- Repetitions come from the positions that were there before. -/
theorem Violation.nodup_positions_addPositions {v : Violation} {more : List Position} :
    (v.addPositions more).positions.Nodup ↔ v.positions.Nodup := by
  rw [positions_addPositions, List.nodup_append]
  refine ⟨And.left, ?_⟩
  intro h
  refine ⟨h, Text.nodup_distinct _, ?_⟩
  intro listed hlisted pos hpos heq
  have hnew := List.of_mem_filter (Text.mem_distinct.mp hpos)
  exact of_decide_eq_true hnew (heq ▸ hlisted)

/-! ## First breaches -/

namespace Breach

variable {d : Discipline} {p : Program} {a b : Breach}

/-- The instruction uses the location at a known position outside the lock. -/
structure UsedBy (d : Discipline) (p : Program) (b : Breach) (i : Instruction) : Prop where
  known : i.pos.isKnown = true
  uses : d.uses i b.location = true
  unheld : HeldInterval.anyCovers (d.intervals (p.body b.node) b.guard.location) i.pos.line = false

/-- Two instructions of the function use the location outside the lock, at one
    position. -/
def Repeats (d : Discipline) (p : Program) (b : Breach) : Prop :=
  ∃ i j, [i, j].Sublist (p.body b.node) ∧ b.UsedBy d p i ∧ b.UsedBy d p j ∧ i.pos = j.pos

/-- The breach occurs, and the others of its signature come later. -/
structure IsFirst (d : Discipline) (p : Program) (b : Breach) : Prop where
  occurs : b.Occurs d p
  first : ∀ c : Breach, c.Occurs d p → c.path.render p = b.path.render p → c = b ∨ b.Precedes p c

theorem usedBy_iff {i : Instruction} : b.UsedBy d p i ↔
    (i.pos.isKnown && d.uses i b.location) = true ∧
      (!HeldInterval.anyCovers (d.intervals (p.body b.node) b.guard.location) i.pos.line)
        = true := by
  rw [Bool.and_eq_true, Bool.not_eq_true', and_assoc]
  exact ⟨fun h => ⟨h.known, h.uses, h.unheld⟩, fun h => ⟨h.1, h.2.1, h.2.2⟩⟩

theorem nodup_positions_iff : (b.positions d p).Nodup ↔ ¬ b.Repeats d p := by
  have hpairs : (b.positions d p).Nodup ↔
      (p.body b.node).Pairwise fun i j => b.UsedBy d p i → b.UsedBy d p j → i.pos ≠ j.pos := by
    rw [positions, Discipline.unprotected, List.Nodup, List.pairwise_filter, List.pairwise_map,
      List.pairwise_filter]
    refine List.Pairwise.iff ?_
    intro i j
    rw [usedBy_iff, usedBy_iff]
    tauto
  rw [hpairs, List.pairwise_iff_forall_sublist]
  refine ⟨?_, ?_⟩
  · intro h hrepeats
    obtain ⟨i, j, hsub, hi, hj, heq⟩ := hrepeats
    exact h hsub hi hj heq
  · intro h i j hsub hi hj heq
    exact h ⟨i, j, hsub, hi, hj, heq⟩

theorem Precedes.asymm (h : a.Precedes p b) : ¬ b.Precedes p a := by
  intro h'
  obtain ⟨ka, kb, hka, hkb, hab⟩ := h
  obtain ⟨kb', ka', hkb', hka', hba⟩ := h'
  obtain rfl : ka = ka' := Option.some.inj (hka.symm.trans hka')
  obtain rfl : kb = kb' := Option.some.inj (hkb.symm.trans hkb')
  rcases hab with hab | ⟨rfl, hab⟩
  · rcases hba with hba | ⟨rfl, -⟩
    · exact lt_asymm hab hba
    · exact lt_irrefl _ hab
  · have hba := (hba.resolve_left (lt_irrefl _)).2
    rcases hab with hab | ⟨hloc, hab⟩
    · rcases hba with hba | ⟨hloc, -⟩
      · have hloop := Location.before_trans hab hba
        rw [Location.before_irrefl] at hloop
        cases hloop
      · rw [hloc, Location.before_irrefl] at hab
        cases hab
    · rcases hba with hba | ⟨-, hba⟩
      · rw [hloc, Location.before_irrefl] at hba
        cases hba
      · exact Nat.lt_asymm hab hba

/-- A signature has one first breach. -/
theorem IsFirst.unique (ha : a.IsFirst d p) (hb : b.IsFirst d p)
    (h : a.path.render p = b.path.render p) : a = b := by
  rcases hb.first a ha.occurs h with heq | hba
  · exact heq
  · rcases ha.first b hb.occurs h.symm with heq | hab
    · exact heq.symm
    · exact absurd hba hab.asymm

end Breach

/-- A violation lists a position twice exactly when the first breach of its
    signature does. -/
theorem Discipline.exists_isFirst {d : Discipline} {p : Program} {v : Violation}
    (hv : v ∈ (d.check p).violations) :
    ∃ b : Breach, b.IsFirst d p ∧ b.path.render p = v.signature ∧
      (v.positions.Nodup ↔ ¬ b.Repeats d p) := by
  obtain ⟨b, more, hb, rfl, hfirst⟩ := exists_first_record hv
  refine ⟨b, ⟨hb, hfirst⟩, rfl, ?_⟩
  rw [Violation.nodup_positions_addPositions, ← Breach.nodup_positions_iff]
  rfl

/-- A report lists no position of a violation twice exactly when no breach that is
    recorded first under its signature uses its location twice at one position. -/
theorem positions_distinct_iff (p : Program) (ds : List Discipline) :
    (∀ v ∈ (p.check ds).violations, v.positions.Nodup) ↔
      ¬ ∃ d ∈ ds, ∃ b : Breach, b.IsFirst d p ∧ b.Repeats d p := by
  refine ⟨?_, ?_⟩
  · intro h hfails
    obtain ⟨d, hd, b, hfirst, hrepeats⟩ := hfails
    obtain ⟨v, hv, hkey⟩ := (Discipline.check_collected d p).covered _
      (List.mem_map_of_mem (Discipline.mem_breaches.mpr hfirst.occurs))
    obtain ⟨c, hc, hsignature, hiff⟩ := Discipline.exists_isFirst hv
    have hcb : c = b := hc.unique hfirst (hsignature.trans (Prod.mk.inj hkey).2)
    have hmem : v ∈ (p.check ds).violations := by
      rw [Program.mem_check_violations, Discipline.discipline_eq_of_mem hv]
      exact ⟨hd, hv⟩
    exact hiff.mp (h v hmem) (hcb ▸ hrepeats)
  · intro h v hv
    obtain ⟨hd, hv⟩ := Program.mem_check_violations.mp hv
    obtain ⟨b, hfirst, -, hiff⟩ := Discipline.exists_isFirst hv
    exact hiff.mpr fun hrepeats => h ⟨_, hd, b, hfirst, hrepeats⟩

/-- `bump` reads and writes `count` in one statement on line 10 and takes no lock. -/
def bumpedSnapshot : Snapshot where
  modulePath := none
  buildFlags := []
  packages := #[⟨"example.com/app", []⟩]
  files := #[⟨"app/state.go", 0,
    [.var ⟨"mu", 0, some (.named (some "sync") "Mutex"), .ofLine 0 3⟩,
     .var ⟨"count", 1, some (.named none "int"), .ofLine 0 4⟩]⟩]
  globals := #[⟨"mu", 0, .ofLine 0 3⟩, ⟨"count", 0, .ofLine 0 4⟩]
  structs := #[]
  functions := #[
    ⟨"bump", 0, false,
      [⟨.ofLine 0 10, some 0, .other [.global 1]⟩,
       ⟨.ofLine 0 10, none, .other [.global 1, .value 0]⟩]⟩,
    ⟨"main", 0, false, [⟨.ofLine 0 20, none, .call ⟨.function 0, false, []⟩⟩]⟩]
  edges := [⟨1, 0⟩]
  comments := [⟨.ofLine 0 3, "// count"⟩]

def bumped : Program :=
  ⟨bumpedSnapshot, by decide, CallGraph.ofSnapshot bumpedSnapshot, rfl, none⟩

/-- The position of the statement is listed for the read and again for the write. -/
theorem bumped_listed_twice :
    (bumped.check Discipline.all).violations =
      [⟨.globals, .global 1, ⟨[0, 1], false⟩, "bump --> main", [.ofLine 0 10, .ofLine 0 10]⟩] ∧
    ¬ ∀ v ∈ (bumped.check Discipline.all).violations, v.positions.Nodup := by
  decide +kernel

end LockDiscipline
