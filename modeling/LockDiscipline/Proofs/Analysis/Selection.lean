import LockDiscipline.Proofs.Report.Lines
import LockDiscipline.Proofs.Report.Merge
import LockDiscipline.Proofs.Report.Replay

/- What a check finds under a selection of disciplines. The violations of one
   discipline never meet those of another, and a discipline that is checked
   again brings nothing new. So the violations are those of the selected
   disciplines, each taken once and in the order in which they are first named
   (`Program.check_violations`), and what is printed depends on which
   disciplines are selected and on nothing else. -/
namespace LockDiscipline

namespace Discipline

variable {d : Discipline} {p : Program}

theorem discipline_eq_of_mem {v : Violation} (hv : v ∈ (d.check p).violations) :
    v.discipline = d := by
  obtain ⟨b, -, hext, -⟩ := exists_first_breach hv
  exact hext.discipline

theorem check_distinct (d : Discipline) (p : Program) : (d.check p).Distinct :=
  (check_collected d p).nodup

end Discipline

namespace Program

variable (p : Program) {ds ds' : List Discipline}

theorem check_concat (ds : List Discipline) (d : Discipline) :
    p.check (ds ++ [d]) = (p.check ds).merge (d.check p) := by
  rw [check, List.foldl_append]
  rfl

theorem check_distinct (ds : List Discipline) : (p.check ds).Distinct := by
  apply List.foldlRecOn _ _ ReportStep.distinct_empty
  intro r hr d _
  exact hr.merge _

/-- Each selected discipline contributes its own violations, once. -/
theorem check_violations (ds : List Discipline) :
    (p.check ds).violations = (Text.distinct ds).flatMap fun d => (d.check p).violations := by
  induction ds using List.reverseRecOn with
  | nil => rfl
  | append_singleton ds d ih =>
    rw [check_concat, Report.violations_merge]
    by_cases hd : d ∈ ds
    · rw [Text.distinct_concat_of_mem hd, ← ih]
      refine Report.recordAll_of_subset (p.check_distinct ds) ?_
      intro v hv
      rw [ih]
      exact List.mem_flatMap.mpr ⟨d, Text.mem_distinct.mpr hd, hv⟩
    · rw [Text.distinct_concat_of_not_mem hd, List.flatMap_append, List.flatMap_singleton, ← ih]
      refine Report.recordAll_of_new ?_
      rw [List.map_append, List.nodup_append]
      refine ⟨p.check_distinct ds, d.check_distinct p, ?_⟩
      -- violations of different disciplines have different keys
      intro k hk k' hk' heq
      obtain ⟨v, hv, rfl⟩ := List.mem_map.mp hk
      obtain ⟨v', hv', rfl⟩ := List.mem_map.mp hk'
      rw [ih] at hv
      obtain ⟨d', hd', hv⟩ := List.mem_flatMap.mp hv
      have hdd : d' = d := by
        rw [← Discipline.discipline_eq_of_mem hv, ← Discipline.discipline_eq_of_mem hv']
        exact (Prod.mk.inj heq).1
      exact hd (hdd ▸ Text.mem_distinct.mp hd')

variable {p}

theorem mem_check_violations {v : Violation} :
    v ∈ (p.check ds).violations ↔ v.discipline ∈ ds ∧ v ∈ (v.discipline.check p).violations := by
  rw [check_violations, List.mem_flatMap]
  constructor
  · intro h
    obtain ⟨d, hd, hv⟩ := h
    rw [Discipline.discipline_eq_of_mem hv]
    exact ⟨Text.mem_distinct.mp hd, hv⟩
  · intro h
    exact ⟨_, Text.mem_distinct.mpr h.1, h.2⟩

theorem mem_check_escapes {e : Escape} :
    e ∈ (p.check ds).escapes ↔ ∃ d ∈ ds, e ∈ (d.check p).escapes := by
  rw [check_escapes, List.mem_flatMap]

/-- Of one discipline, the report has what the check of this discipline alone has. -/
theorem filter_check_violations (d : Discipline) :
    (p.check ds).violations.filter (·.discipline = d) =
      if d ∈ ds then (d.check p).violations else [] := by
  have hown : ∀ d' : Discipline, (d'.check p).violations.filter (·.discipline = d) =
      if d' = d then (d'.check p).violations else [] := by
    intro d'
    split
    · next heq =>
      refine List.filter_eq_self.mpr ?_
      intro v hv
      simp [Discipline.discipline_eq_of_mem hv, heq]
    · next hne =>
      refine List.filter_eq_nil_iff.mpr ?_
      intro v hv
      simp [Discipline.discipline_eq_of_mem hv, hne]
  induction ds using List.reverseRecOn with
  | nil => rfl
  | append_singleton ds d' ih =>
    rw [check_violations] at ih ⊢
    by_cases hd' : d' ∈ ds
    · have hmem : d ∈ ds ++ [d'] ↔ d ∈ ds := by
        rw [List.mem_append, List.mem_singleton]
        exact ⟨fun h => h.elim id fun heq => heq ▸ hd', .inl⟩
      rw [Text.distinct_concat_of_mem hd', ih]
      simp only [hmem]
    · rw [Text.distinct_concat_of_not_mem hd', List.flatMap_append, List.flatMap_singleton,
        List.filter_append, ih, hown]
      by_cases heq : d' = d
      · subst heq
        simp [hd']
      · simp [heq, Ne.symm heq]

end Program

/-- What is found depends on which disciplines are selected, not on their order or
    on how often they are named: the same lines are printed, the verdict is the
    same, each discipline has the same violations in the same order, and the same
    escapes are found. A discipline that is named again adds nothing to any
    violation. -/
theorem findings_depend_on_selection (p : Program) (ds ds' : List Discipline)
    (h : ∀ d, d ∈ ds ↔ d ∈ ds') :
    (p.check ds).findingLines p = (p.check ds').findingLines p ∧
    (p.check ds).isClean = (p.check ds').isClean ∧
    (∀ d, (p.check ds).violations.filter (·.discipline = d) =
      (p.check ds').violations.filter (·.discipline = d)) ∧
    (∀ e, e ∈ (p.check ds).escapes ↔ e ∈ (p.check ds').escapes) ∧
    (p.check ds).violations = (p.check (Text.distinct ds)).violations := by
  have hviolations : ∀ v, v ∈ (p.check ds).violations ↔ v ∈ (p.check ds').violations := by
    intro v
    rw [Program.mem_check_violations, Program.mem_check_violations, h]
  have hescapes : ∀ e, e ∈ (p.check ds).escapes ↔ e ∈ (p.check ds').escapes := by
    intro e
    simp only [Program.mem_check_escapes, h]
  refine ⟨Report.findingLines_congr p hviolations hescapes,
    Report.isClean_congr hviolations hescapes, ?_, hescapes, ?_⟩
  · intro d
    rw [Program.filter_check_violations, Program.filter_check_violations]
    simp only [h]
  · rw [Program.check_violations, Program.check_violations, Text.distinct_distinct]

/-- `touch` uses a variable and a field and takes no lock. What is guarded is up to
    the comments. -/
def carelessSnapshot (comments : List Comment) : Snapshot where
  modulePath := none
  buildFlags := []
  packages := #[⟨"example.com/app", []⟩]
  files := #[⟨"app/cache.go", 0,
    [.var ⟨"lock", 0, some (.named (some "sync") "Mutex"), ⟨0, 2, 1⟩⟩,
     .var ⟨"count", 1, some (.named none "int"), ⟨0, 3, 1⟩⟩,
     .struct ⟨"Cache", 0,
       [⟨["mu"], .named (some "sync") "RWMutex", ⟨0, 6, 1⟩, 0⟩,
        ⟨["items"], .named none "int", ⟨0, 7, 1⟩, 1⟩]⟩]⟩]
  globals := #[⟨"lock", 0, ⟨0, 2, 1⟩⟩, ⟨"count", 0, ⟨0, 3, 1⟩⟩]
  structs := #[⟨"Cache", 0, [⟨"mu", ⟨0, 6, 1⟩⟩, ⟨"items", ⟨0, 7, 1⟩⟩]⟩]
  functions := #[⟨"touch", 0, false,
    [⟨⟨0, 10, 1⟩, some 1, .fieldAddr (.value 0) ⟨0, 1⟩⟩,
     ⟨⟨0, 11, 1⟩, none, .other [.global 1, .value 1]⟩,
     ⟨⟨0, 12, 1⟩, none, .ret [.value 1]⟩]⟩]
  edges := []
  comments := comments

/-- The second name on line 2 stands for nothing. -/
def careless : Program :=
  ⟨carelessSnapshot [⟨⟨0, 2, 9⟩, "// count,"⟩, ⟨⟨0, 2, 20⟩, "// gone"⟩, ⟨⟨0, 6, 9⟩, "// items"⟩],
    by decide, CallGraph.ofSnapshot _, rfl, none⟩

/-- Both disciplines fail on one chain; they are named in two orders, with
    repetitions. -/
theorem careless_findings :
    (∀ d, d ∈ [Discipline.fields, .globals, .fields] ↔ d ∈ [Discipline.globals, .globals, .fields]) ∧
    (careless.check [.fields, .globals, .fields]).findingLines careless =
      (careless.check [.globals, .globals, .fields]).findingLines careless ∧
    (careless.check [.fields, .globals, .fields]).violations =
      (careless.check [.fields, .globals]).violations ∧
    (careless.check [.fields, .globals, .fields]).violations.map
        (fun v => (v.discipline, v.signature, v.positions)) =
      [(.fields, "touch", [⟨0, 10, 1⟩]), (.globals, "touch", [⟨0, 11, 1⟩])] := by
  have hsame : ∀ d, d ∈ [Discipline.fields, .globals, .fields] ↔
      d ∈ [Discipline.globals, .globals, .fields] := by
    intro d
    cases d <;> decide
  have h := findings_depend_on_selection careless _ _ hsame
  exact ⟨hsame, h.1, h.2.2.2.2, by decide +kernel⟩

end LockDiscipline
