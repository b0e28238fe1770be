import LockDiscipline.Analysis
import LockDiscipline.Proofs.Analysis.Usages
import LockDiscipline.Proofs.Guard.Declared
import LockDiscipline.Proofs.Report.Collect
import Mathlib.Data.String.Basic

/- Which violations a check reports. The check comes upon breaches one after the
   other: locations in the order of the agenda, and for each location its users
   in ascending order (`pairwise_breaches`). Its violations are the breaches
   recorded in this order (`check_violations`). So every breach is reported, and
   a violation takes its location and chain from the first breach of its
   signature (`check_violations_exact`). -/
namespace LockDiscipline

/-! ## Breaches -/

/-- A function that uses a guarded location, and a chain of its callers. -/
structure Breach where
  location : Location
  guard : Guard
  node : Nat
  path : CallPath

namespace Breach

/-- Where the function uses the location outside its lock. -/
def positions (d : Discipline) (p : Program) (b : Breach) : List Position :=
  d.unprotected (p.body b.node) b.guard.location b.location

/-- The guard is declared for the location, the function is not an initializer
    and uses the location outside the lock, and nobody on the chain holds it. -/
structure Occurs (d : Discipline) (p : Program) (b : Breach) : Prop where
  guarded : (b.location, b.guard) ∈ (d.resolve p).guards.entries
  node_lt : b.node < p.snapshot.functions.size
  checked : p.isInit b.node = false
  used : b.positions d p ≠ []
  unheld : d.unprotectedPath? p b.location b.guard.location b.node = some b.path

/-- Breaches in the order of sort key, location and function. -/
def Precedes (p : Program) (a b : Breach) : Prop :=
  ∃ ka kb, a.location.sortKey? p = some ka ∧ b.location.sortKey? p = some kb ∧
    (ka < kb ∨ ka = kb ∧ (a.location.before b.location = true ∨
      a.location = b.location ∧ a.node < b.node))

/-- The violation as which a breach is recorded. -/
def violation (d : Discipline) (p : Program) (b : Breach) : Violation :=
  ⟨d, b.location, b.path, b.path.render p, b.positions d p⟩

end Breach

namespace Discipline

variable (d : Discipline) (p : Program)

/-- The breaches of one entry of the agenda. -/
def breachesAt (e : Location × Guard) : List Breach :=
  (d.users p e.1).filterMap fun n =>
    (d.failure? p e.1 e.2.location n).map fun failure => ⟨e.1, e.2, n, failure.1⟩

/-- All breaches, in the order in which the check comes upon them. -/
def breaches : List Breach := (d.agenda p).flatMap (d.breachesAt p)

variable {d p}

theorem failure?_eq_some {l lock : Location} {n : Nat} {path : CallPath}
    {positions : List Position} :
    d.failure? p l lock n = some (path, positions) ↔
      d.unprotected (p.body n) lock l = positions ∧ positions ≠ [] ∧
        d.unprotectedPath? p l lock n = some path := by
  unfold failure?
  split
  · next h =>
    rw [h]
    constructor
    · intro he
      cases he
    · rintro ⟨rfl, hne, -⟩
      exact absurd rfl hne
  · next hne =>
    rw [Option.map_eq_some_iff]
    constructor
    · rintro ⟨path', hpath, heq⟩
      cases heq
      exact ⟨rfl, hne, hpath⟩
    · rintro ⟨rfl, -, hpath⟩
      exact ⟨path, hpath, rfl⟩

theorem uses_of_unprotected {body : List Instruction} {lock l : Location}
    (h : d.unprotected body lock l ≠ []) : body.any (d.uses · l) = true := by
  obtain ⟨pos, hpos⟩ := List.exists_mem_of_ne_nil _ h
  obtain ⟨i, hi, -⟩ := List.mem_map.mp (List.mem_filter.mp hpos).1
  obtain ⟨hmem, huses⟩ := List.mem_filter.mp hi
  exact List.any_eq_true.mpr ⟨i, hmem, ((Bool.and_eq_true _ _).mp huses).2⟩

theorem mem_breachesAt {e : Location × Guard} (he : e ∈ (d.resolve p).guards.entries)
    {b : Breach} :
    b ∈ d.breachesAt p e ↔ (b.location, b.guard) = e ∧ b.node < p.snapshot.functions.size ∧
      p.isInit b.node = false ∧ b.positions d p ≠ [] ∧
      d.unprotectedPath? p b.location b.guard.location b.node = some b.path := by
  obtain ⟨l, g⟩ := e
  obtain ⟨l', g', node, path⟩ := b
  simp only [breachesAt, List.mem_filterMap, Option.map_eq_some_iff, Prod.exists, mem_users he,
    failure?_eq_some, Breach.mk.injEq, Breach.positions, Prod.mk.injEq]
  constructor
  · rintro ⟨n, ⟨hlt, hinit, -⟩, path', positions, ⟨rfl, hne, hpath⟩, rfl, rfl, rfl, rfl⟩
    exact ⟨⟨rfl, rfl⟩, hlt, hinit, hne, hpath⟩
  · rintro ⟨⟨rfl, rfl⟩, hlt, hinit, hne, hpath⟩
    exact ⟨node, ⟨hlt, hinit, uses_of_unprotected hne⟩, path, _, ⟨rfl, hne, hpath⟩, rfl, rfl, rfl,
      rfl⟩

theorem mem_agenda {e : Location × Guard} :
    e ∈ d.agenda p ↔ e ∈ (d.resolve p).guards.entries :=
  (List.mergeSort_perm _ _).mem_iff

theorem mem_breaches {b : Breach} : b ∈ d.breaches p ↔ b.Occurs d p := by
  rw [breaches, List.mem_flatMap]
  constructor
  · rintro ⟨e, he, hb⟩
    have he := mem_agenda.mp he
    obtain ⟨rfl, hlt, hinit, hne, hpath⟩ := (mem_breachesAt he).mp hb
    exact ⟨he, hlt, hinit, hne, hpath⟩
  · intro h
    exact ⟨_, mem_agenda.mpr h.guarded,
      (mem_breachesAt h.guarded).mpr ⟨rfl, h.node_lt, h.checked, h.used, h.unheld⟩⟩

end Discipline

/-! ## The order of the work -/

namespace Location

theorem not_before_trans {a b c : Location} (h₁ : b.before a = false) (h₂ : c.before b = false) :
    c.before a = false := by
  by_cases hab : a = b
  · rw [hab]
    exact h₂
  · by_contra hca
    rw [Bool.not_eq_false] at hca
    have hab := before_of_not_before h₁ (Ne.symm hab)
    rw [before_trans hca hab] at h₂
    cases h₂

variable {p : Program} {a b c : Location × Guard}

theorem verifiedBefore_iff {ka kb : String} (ha : a.1.sortKey? p = some ka)
    (hb : b.1.sortKey? p = some kb) :
    verifiedBefore p a b = true ↔ ka < kb ∨ ka = kb ∧ b.1.before a.1 = false := by
  simp [verifiedBefore, ha, hb]

theorem verifiedBefore_trans (h₁ : verifiedBefore p a b = true)
    (h₂ : verifiedBefore p b c = true) : verifiedBefore p a c = true := by
  simp only [verifiedBefore, Bool.or_eq_true, decide_eq_true_eq, Bool.and_eq_true, beq_iff_eq,
    Bool.not_eq_true'] at h₁ h₂ ⊢
  rcases h₁ with h₁ | ⟨h₁, hab⟩
  · rcases h₂ with h₂ | ⟨h₂, -⟩
    · exact .inl (lt_trans h₁ h₂)
    · exact .inl (h₂ ▸ h₁)
  · rw [h₁]
    exact h₂.imp_right fun h => ⟨h.1, not_before_trans hab h.2⟩

theorem verifiedBefore_total (p : Program) (a b : Location × Guard) :
    (verifiedBefore p a b || verifiedBefore p b a) = true := by
  simp only [verifiedBefore, Bool.or_eq_true, decide_eq_true_eq, Bool.and_eq_true, beq_iff_eq,
    Bool.not_eq_true']
  rcases lt_trichotomy ((a.1.sortKey? p).getD "") ((b.1.sortKey? p).getD "") with h | h | h
  · exact .inl (.inl h)
  · by_cases hb : b.1.before a.1 = true
    · refine .inr (.inr ⟨h.symm, ?_⟩)
      by_contra ha
      rw [Bool.not_eq_false] at ha
      have := before_trans ha hb
      rw [before_irrefl] at this
      cases this
    · exact .inl (.inr ⟨h, by simpa using hb⟩)
  · exact .inr (.inl h)

end Location

namespace Discipline

variable (d : Discipline) (p : Program)

theorem pairwise_agenda_ne : (d.agenda p).Pairwise fun a b => a.1 ≠ b.1 := by
  refine (List.mergeSort_perm _ _).symm.pairwise ?_ fun h => h.symm
  refine (d.resolve p).guards.ordered.imp ?_
  intro a b hab he
  rw [he, Location.before_irrefl] at hab
  cases hab

theorem exists_sortKey {e : Location × Guard} (he : e ∈ d.agenda p) :
    ∃ key, e.1.sortKey? p = some key :=
  Location.exists_sortKey ((d.resolve_declared p.covers_hasOwner).location e (mem_agenda.mp he))

/-- The agenda is strictly ascending by sort key, then by location. -/
theorem pairwise_agenda : (d.agenda p).Pairwise fun a b =>
    ∃ ka kb, a.1.sortKey? p = some ka ∧ b.1.sortKey? p = some kb ∧
      (ka < kb ∨ ka = kb ∧ a.1.before b.1 = true) := by
  have hsorted : (d.agenda p).Pairwise fun a b => Location.verifiedBefore p a b = true := by
    rw [agenda]
    apply List.pairwise_mergeSort
    · intro a b c
      exact Location.verifiedBefore_trans
    · exact Location.verifiedBefore_total p
  refine (hsorted.and (pairwise_agenda_ne d p)).imp_of_mem ?_
  rintro a b ha hb ⟨hle, hne⟩
  obtain ⟨ka, hka⟩ := d.exists_sortKey p ha
  obtain ⟨kb, hkb⟩ := d.exists_sortKey p hb
  refine ⟨ka, kb, hka, hkb, ?_⟩
  rw [Location.verifiedBefore_iff hka hkb] at hle
  exact hle.imp_right fun h => ⟨h.1, Location.before_of_not_before h.2 (Ne.symm hne)⟩

theorem pairwise_breachesAt {e : Location × Guard} (he : e ∈ d.agenda p) :
    (d.breachesAt p e).Pairwise (Breach.Precedes p) := by
  obtain ⟨key, hkey⟩ := d.exists_sortKey p he
  rw [breachesAt, List.pairwise_filterMap]
  refine (pairwise_users (mem_agenda.mp he)).imp ?_
  intro m n hmn a ha b hb
  obtain ⟨_, -, rfl⟩ := Option.map_eq_some_iff.mp ha
  obtain ⟨_, -, rfl⟩ := Option.map_eq_some_iff.mp hb
  exact ⟨key, key, hkey, hkey, .inr ⟨rfl, .inr ⟨rfl, hmn⟩⟩⟩

/-- The check comes upon breaches in their order. -/
theorem pairwise_breaches : (d.breaches p).Pairwise (Breach.Precedes p) := by
  rw [breaches, List.pairwise_flatMap]
  refine ⟨fun e he => pairwise_breachesAt d p he, ?_⟩
  refine (pairwise_agenda d p).imp_of_mem ?_
  rintro _ _ hea heb ⟨ka, kb, hka, hkb, hlt⟩ a ha b hb
  obtain ⟨rfl, -⟩ := (mem_breachesAt (mem_agenda.mp hea)).mp ha
  obtain ⟨rfl, -⟩ := (mem_breachesAt (mem_agenda.mp heb)).mp hb
  exact ⟨ka, kb, hka, hkb, hlt.imp_right fun h => ⟨h.1, .inl h.2⟩⟩

end Discipline

/-! ## What is recorded -/

namespace Report

theorem violations_foldl_recordEscape (r : Report) (es : List Escape) :
    (es.foldl recordEscape r).violations = r.violations := by
  induction es generalizing r with
  | nil => rfl
  | cons e es ih =>
    rw [List.foldl_cons, ih]
    rfl

theorem violations_foldl_recordViolation (d : Discipline) (p : Program) (l : Location) (r : Report)
    (failures : List (CallPath × List Position)) :
    (failures.foldl (fun r failure => r.recordViolation p d l failure.1 failure.2) r).violations =
      (failures.map fun failure =>
        (⟨d, l, failure.1, failure.1.render p, failure.2⟩ : Violation)).foldl
          (fun kept v => insertViolation v kept) r.violations := by
  induction failures generalizing r with
  | nil => rfl
  | cons failure failures ih =>
    rw [List.foldl_cons, ih, List.map_cons, List.foldl_cons, recordViolation, violations_insert]

end Report

namespace Discipline

variable (d : Discipline) (p : Program)

theorem map_failures (e : Location × Guard) :
    (d.failures p e.1 e.2.location (d.users p e.1)).map (fun failure =>
      (⟨d, e.1, failure.1, failure.1.render p, failure.2⟩ : Violation)) =
        (d.breachesAt p e).map (Breach.violation d p) := by
  rw [failures, breachesAt, List.map_filterMap, List.map_filterMap]
  refine List.filterMap_congr ?_
  intro n _
  cases hfailure : d.failure? p e.1 e.2.location n with
  | none => rfl
  | some failure =>
    obtain ⟨path, positions⟩ := failure
    obtain ⟨rfl, -⟩ := failure?_eq_some.mp hfailure
    rfl

theorem violations_recordLocation (r : Report) (e : Location × Guard) :
    (Report.recordLocation d p (d.usages p) r e).violations =
      ((d.breachesAt p e).map (Breach.violation d p)).foldl
        (fun kept v => Report.insertViolation v kept) r.violations := by
  rw [← map_failures, ← Report.violations_foldl_recordViolation]
  exact Report.violations_foldl_recordEscape _ _

theorem check_violations :
    (d.check p).violations = Report.collect ((d.breaches p).map (Breach.violation d p)) := by
  rw [check, Report.collect, breaches]
  change _ = List.foldl _ ({ Report.empty with warnings := (d.resolve p).warnings }).violations _
  generalize ({ Report.empty with warnings := (d.resolve p).warnings } : Report) = r
  induction d.agenda p generalizing r with
  | nil => rfl
  | cons e rest ih =>
    rw [List.foldl_cons, ih, violations_recordLocation, List.flatMap_cons, List.map_append,
      List.foldl_append]

end Discipline

theorem Breach.key_violation (d : Discipline) (p : Program) (b : Breach) :
    (b.violation d p).key = (d, b.path.render p) := rfl

namespace Discipline

variable {d : Discipline} {p : Program}

theorem check_collected (d : Discipline) (p : Program) :
    Report.Collected ((d.breaches p).map (Breach.violation d p)) (d.check p).violations := by
  rw [check_violations]
  exact Report.collect_collected _

/-- A position is reported under a signature exactly when some breach has both. -/
theorem exists_violation_iff {d' : Discipline} {signature : String} {pos : Position} :
    (∃ v ∈ (d.check p).violations,
      v.discipline = d' ∧ v.signature = signature ∧ pos ∈ v.positions) ↔
    d' = d ∧ ∃ b : Breach, b.Occurs d p ∧ b.path.render p = signature ∧ pos ∈ b.positions d p := by
  have hkept := check_collected d p
  constructor
  · rintro ⟨v, hv, rfl, rfl, hpos⟩
    obtain ⟨_, hmem, hkey, hpos⟩ := (hkept.positions v hv pos).mp hpos
    obtain ⟨b, hb, rfl⟩ := List.mem_map.mp hmem
    obtain ⟨hd, hsignature⟩ := Prod.mk.inj hkey
    exact ⟨hd.symm, b, mem_breaches.mp hb, hsignature, hpos⟩
  · rintro ⟨rfl, b, hb, rfl, hpos⟩
    have hmem := List.mem_map_of_mem (f := Breach.violation d' p) (mem_breaches.mpr hb)
    obtain ⟨v, hv, hkey⟩ := hkept.covered _ hmem
    obtain ⟨hd, hsignature⟩ := Prod.mk.inj hkey
    exact ⟨v, hv, hd, hsignature, (hkept.positions v hv pos).mpr ⟨_, hmem, hkey.symm, hpos⟩⟩

/-- A violation is the record of a breach with positions added, and the other
    breaches of its signature come after that one. -/
theorem exists_first_record {v : Violation} (hv : v ∈ (d.check p).violations) :
    ∃ (b : Breach) (more : List Position), b.Occurs d p ∧
      v = (b.violation d p).addPositions more ∧
      ∀ c : Breach, c.Occurs d p → c.path.render p = v.signature → c = b ∨ b.Precedes p c := by
  obtain ⟨_, first, _, hsplit, hnew, rfl⟩ := (check_collected d p).origin v hv
  obtain ⟨earlier, rest, hbreaches, rfl, hrest⟩ := List.map_eq_append_iff.mp hsplit
  obtain ⟨b, later, rfl, rfl, rfl⟩ := List.map_eq_cons_iff.mp hrest
  refine ⟨b, _, mem_breaches.mp (by simp [hbreaches]), rfl, ?_⟩
  intro c hc hsignature
  have hmem : c ∈ earlier ++ b :: later := hbreaches ▸ mem_breaches.mpr hc
  rcases List.mem_append.mp hmem with hmem | hmem
  · -- an earlier breach of this signature would have been recorded first
    refine absurd ?_ (hnew _ (List.mem_map_of_mem hmem))
    rw [Breach.key_violation, Breach.key_violation, hsignature]
    rfl
  · rcases List.mem_cons.mp hmem with rfl | hmem
    · exact .inl rfl
    · have horder := hbreaches ▸ pairwise_breaches d p
      exact .inr (List.rel_of_pairwise_cons (List.pairwise_append.mp horder).2.1 hmem)

theorem exists_first_breach {v : Violation} (hv : v ∈ (d.check p).violations) :
    ∃ b : Breach, b.Occurs d p ∧ v.Extends (b.violation d p) ∧
      ∀ c : Breach, c.Occurs d p → c.path.render p = v.signature → c = b ∨ b.Precedes p c := by
  obtain ⟨b, more, hb, rfl, hfirst⟩ := exists_first_record hv
  exact ⟨b, hb, Violation.addPositions_extends _ _, hfirst⟩

end Discipline

end LockDiscipline
