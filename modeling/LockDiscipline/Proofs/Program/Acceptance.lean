import LockDiscipline.Proofs.Program.Ranges

/- Which snapshots are accepted. A snapshot is consistent when no package has
   errors, the paths of its packages differ, all its ids are in range and the
   lines of structs lie inside their fields (`Consistent`). Those that are
   accepted are the sound ones, whose lines seem to do so in 32 bits; as long as
   no table reaches 2^32 entries, this is the same (`sound_iff_consistent`). Of
   the others, one that has a package with errors is refused for the first such
   package, whatever else is wrong with it, and any other one for an
   inconsistency (`snapshot_accepted_iff`). -/
namespace LockDiscipline

namespace Snapshot

variable {s : Snapshot}

/-- No package has errors, no path is listed twice, every id names an entry of its
    table, and every line of a struct lies inside the fields of the struct. -/
structure Consistent (s : Snapshot) : Prop extends s.Linked where
  lines : s.EachLine fun d l => l.firstIndex + l.size ≤ s.fieldCount d.id

/-- `pkg` is the first package with errors, and `message` is its first error. -/
def FirstBroken (s : Snapshot) (pkg : Package) (message : String) : Prop :=
  ∃ before after more, s.packages.toList = before ++ pkg :: after ∧
    (∀ q ∈ before, q.errors = []) ∧ pkg.errors = message :: more

/-! ## Packages with errors -/

theorem FirstBroken.brokenPackage?_eq {pkg : Package} {message : String}
    (h : s.FirstBroken pkg message) : s.brokenPackage? = some (pkg.path, message) := by
  obtain ⟨before, after, more, hpackages, hbefore, herrors⟩ := h
  rw [brokenPackage?, hpackages, List.findSome?_append, List.findSome?_cons, herrors]
  have hnone : before.findSome? (fun q => q.errors.head?.map (q.path, ·)) = none := by
    rw [List.findSome?_eq_none_iff]
    intro q hq
    rw [hbefore q hq]
    rfl
  rw [hnone]
  rfl

/-! ## Consistency -/

theorem sound_iff_consistent (hfit : s.TablesFit) (hnames : s.NamesFit) :
    s.Sound ↔ s.Consistent := by
  constructor
  · intro h
    exact { h.toLinked with lines := (linesEnd_iff hfit hnames).mp h.lines }
  · intro h
    exact { h.toLinked with lines := (linesEnd_iff hfit hnames).mpr h.lines }

theorem FirstBroken.fault?_eq {pkg : Package} {message : String} (h : s.FirstBroken pkg message) :
    s.fault? = some (.brokenPackage pkg.path message) := by
  rw [fault?, h.brokenPackage?_eq]

theorem exists_fault?_eq_inconsistent (hhealthy : ∀ pkg ∈ s.packages.toList, pkg.errors = [])
    (h : ¬ s.Sound) : ∃ cause, s.fault? = some (.inconsistent cause) := by
  rw [← fault?_eq_none_iff, fault?, brokenPackage?_eq_none_iff.mpr hhealthy] at h
  rw [fault?, brokenPackage?_eq_none_iff.mpr hhealthy]
  cases hcause : s.inconsistency? with
  | none => exact absurd (by simp [hcause]) h
  | some cause => exact ⟨cause, rfl⟩

end Snapshot

theorem Program.exists_ofSnapshot_snapshot_iff {s : Snapshot} :
    (∃ p, ofSnapshot s = .ok p ∧ p.snapshot = s) ↔ s.Sound := by
  rw [← Snapshot.fault?_eq_none_iff, ← exists_ofSnapshot_eq_ok_iff]
  refine exists_congr fun p => and_iff_left_of_imp ?_
  intro hp
  exact (ofSnapshot_eq_ok hp).1

/-- A snapshot is accepted exactly when it is sound, and if it is not, though no package
    has errors, it is refused for an inconsistency. A snapshot with a package that has
    errors is refused for the first error of the first of them. As long as no table
    reaches 2^32 entries, a snapshot is accepted exactly when it is consistent. -/
theorem snapshot_accepted_iff (s : Snapshot) :
    ((∃ p, Program.ofSnapshot s = .ok p ∧ p.snapshot = s) ↔ s.Sound) ∧
    (∀ pkg message, s.FirstBroken pkg message →
      Program.ofSnapshot s = .error (.brokenPackage pkg.path message)) ∧
    ((∀ pkg ∈ s.packages.toList, pkg.errors = []) → ¬ s.Sound →
      ∃ cause, Program.ofSnapshot s = .error (.inconsistent cause)) ∧
    (s.TablesFit → s.NamesFit →
      ((∃ p, Program.ofSnapshot s = .ok p ∧ p.snapshot = s) ↔ s.Consistent)) := by
  refine ⟨Program.exists_ofSnapshot_snapshot_iff, ?_, ?_, ?_⟩
  · intro pkg message hbroken
    exact Program.ofSnapshot_eq_error_iff.mpr hbroken.fault?_eq
  · intro hhealthy hnot
    obtain ⟨cause, hcause⟩ := Snapshot.exists_fault?_eq_inconsistent hhealthy hnot
    exact ⟨cause, Program.ofSnapshot_eq_error_iff.mpr hcause⟩
  · intro hfit hnames
    rw [← Snapshot.sound_iff_consistent hfit hnames]
    exact Program.exists_ofSnapshot_snapshot_iff

/-- A struct type of three fields, of which a line of two starts at `first`, in the
    second of two packages. -/
def pairSnapshot (errors : List String) (first : Nat) : Snapshot :=
  { Snapshot.empty with
    packages := #[⟨"example.com/lib", []⟩, ⟨"example.com/app", errors⟩]
    files := #[⟨"app/pair.go", 1, [.struct ⟨"Pair", 0,
      [⟨["left", "right"], .named none "int", .ofLine 0 3, first⟩]⟩]⟩]
    structs := #[⟨"Pair", 1,
      [⟨"mu", .ofLine 0 2⟩, ⟨"left", .ofLine 0 3⟩, ⟨"right", .ofLine 0 3⟩]⟩] }

theorem pairSnapshot_fits :
    (pairSnapshot [] 1).TablesFit ∧ (pairSnapshot [] 1).NamesFit := by
  refine ⟨⟨by decide, by decide, by decide, by decide, by decide, by decide⟩, ?_⟩
  intro f hf d hd
  rw [List.mem_singleton.mp hf, List.mem_singleton] at hd
  cases hd
  decide

/-- The line may start at 1 but not at 2, and where the package has errors this does
    not matter. -/
theorem pairSnapshot_accepted :
    ((pairSnapshot ["no such import", "unused"] 2).FirstBroken
        ⟨"example.com/app", ["no such import", "unused"]⟩ "no such import" ∧
      Program.ofSnapshot (pairSnapshot ["no such import", "unused"] 2) =
        .error (.brokenPackage "example.com/app" "no such import")) ∧
    ((pairSnapshot [] 1).TablesFit ∧ (pairSnapshot [] 1).NamesFit ∧ (pairSnapshot [] 1).Consistent ∧
      ∃ p, Program.ofSnapshot (pairSnapshot [] 1) = .ok p ∧ p.snapshot = pairSnapshot [] 1) ∧
    ¬ (pairSnapshot [] 2).Sound ∧
      ∃ cause, Program.ofSnapshot (pairSnapshot [] 2) = .error (.inconsistent cause) := by
  have hbroken : (pairSnapshot ["no such import", "unused"] 2).FirstBroken
      ⟨"example.com/app", ["no such import", "unused"]⟩ "no such import" :=
    ⟨[⟨"example.com/lib", []⟩], [], ["unused"], rfl, by decide, rfl⟩
  obtain ⟨hfit, hnames⟩ := pairSnapshot_fits
  have hconsistent : (pairSnapshot [] 1).Consistent :=
    (Snapshot.sound_iff_consistent hfit hnames).mp (Snapshot.fault?_eq_none_iff.mp (by decide))
  have hnot : ¬ (pairSnapshot [] 2).Sound := fun h =>
    absurd (Snapshot.fault?_eq_none_iff.mpr h) (by decide)
  exact ⟨⟨hbroken, (snapshot_accepted_iff _).2.1 _ _ hbroken⟩,
    ⟨hfit, hnames, hconsistent, ((snapshot_accepted_iff _).2.2.2 hfit hnames).mpr hconsistent⟩,
    hnot, (snapshot_accepted_iff _).2.2.1 (by decide) hnot⟩

end LockDiscipline
