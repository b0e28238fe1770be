import LockDiscipline.Proofs.Reformat.Body

/- The resolution of annotations in a reformatted program. Locks and what they
   guard are the same, the places of their declarations move, and so do the
   warnings. The guarded locations are worked on in the same order. -/
namespace LockDiscipline

variable (ρ : Relining)

def Guard.Moved : Guard → Guard → Prop := ρ.Shifts Guard.pos fun g pos => { g with pos }

/-- The same location, and its lock moved. -/
def EntryMoved (e e' : Location × Guard) : Prop := e.1 = e'.1 ∧ e.2.Moved ρ e'.2

/-- The lock moved, and its annotation reads as before. -/
def LockDecl.Moved (decl decl' : LockDecl) : Prop :=
  decl.guard.Moved ρ decl'.guard ∧ decl.resolve? = decl'.resolve?

/-- Warnings of one kind, with one name, and the position moved. -/
inductive Warning.Moved : Warning → Warning → Prop
  | missingNote {pos pos' : Position} (moves : ρ.Moves pos pos') :
      Moved (.missingNote pos) (.missingNote pos')
  | unresolvedName {pos pos' : Position} {name : String} (moves : ρ.Moves pos pos') :
      Moved (.unresolvedName pos name) (.unresolvedName pos' name)

structure Resolution.Moved (r r' : Resolution) : Prop where
  guards : List.Forall₂ (EntryMoved ρ) r.guards.entries r'.guards.entries
  warnings : List.Forall₂ (Warning.Moved ρ) r.warnings r'.warnings

variable {ρ}

theorem Guard.Moved.moves {g g' : Guard} (h : g.Moved ρ g') : ρ.Moves g.pos g'.pos := by
  obtain ⟨_, hpos, rfl⟩ := h
  exact hpos

theorem Guard.Moved.location_eq {g g' : Guard} (h : g.Moved ρ g') : g.location = g'.location := by
  obtain ⟨_, -, rfl⟩ := h
  rfl

/-! ## Declarations -/

theorem StructDecl.Moved.fieldNamed?_eq {d d' : StructDecl} (h : d.Moved ρ d') :
    d.fieldNamed? = d'.fieldNamed? := by
  obtain ⟨fields, hfields, rfl⟩ := h
  funext name
  refine forall₂_findSome?_eq hfields ?_
  rintro line _ ⟨_, -, rfl⟩
  rfl

namespace Program.Moved

variable {p q : Program} (h : p.Moved ρ q)
include h

theorem packageVar?_eq (package : Nat) : p.packageVar? package = q.packageVar? package := by
  have hfiles := forall₂_filter (f := (·.package == package)) (g := (·.package == package))
    h.snapshot.files (by rintro f _ ⟨_, -, rfl⟩; rfl)
  funext name
  refine forall₂_findSome?_eq (R := Declaration.Moved ρ) (List.rel_flatMap hfiles ?_) ?_
  · rintro f _ ⟨decls, hdecls, rfl⟩
    exact hdecls
  · intro decl decl' hdecl
    cases hdecl with
    | var hvar =>
      obtain ⟨_, -, rfl⟩ := hvar
      rfl
    | struct _ => rfl

theorem lockDeclsOf_rel (d : Discipline) (package : Nat) {decl decl' : Declaration}
    (hdecl : decl.Moved ρ decl') :
    List.Forall₂ (LockDecl.Moved ρ) (d.lockDeclsOf p package decl)
      (d.lockDeclsOf q package decl') := by
  cases hdecl with
  | @var v v' hvar =>
    cases d with
    | fields => exact .nil
    | globals =>
      obtain ⟨pos, hpos, rfl⟩ := hvar
      simp only [Discipline.lockDeclsOf, VarDecl.lockDecl?, h.packageVar?_eq]
      cases v.ty.bind TypeExpr.lockKind? with
      | none => exact .nil
      | some kind => exact .cons ⟨⟨pos, hpos, rfl⟩, rfl⟩ .nil
  | @struct s s' hstruct =>
    cases d with
    | globals => exact .nil
    | fields =>
      have hnames := hstruct.fieldNamed?_eq
      obtain ⟨fields, hfields, rfl⟩ := hstruct
      refine List.rel_filterMap ?_ hfields
      rintro line _ ⟨pos, hpos, rfl⟩
      simp only [StructDecl.lockDecl?, hnames]
      cases line.ty.lockKind? with
      | none => exact .none
      | some kind => exact .some ⟨⟨pos, hpos, rfl⟩, rfl⟩

theorem lockDecls_rel (d : Discipline) :
    List.Forall₂ (LockDecl.Moved ρ) (d.lockDecls p) (d.lockDecls q) := by
  have hfiles : List.Forall₂ (SourceFile.Moved ρ) p.filesInScope q.filesInScope := by
    refine forall₂_filter h.snapshot.files ?_
    rintro f _ ⟨_, -, rfl⟩
    exact h.inScope_eq _
  refine List.rel_flatMap hfiles ?_
  rintro f _ ⟨decls, hdecls, rfl⟩
  exact List.rel_flatMap hdecls fun decl decl' hdecl => h.lockDeclsOf_rel d f.package hdecl

end Program.Moved

/-! ## Binding -/

theorem GuardMap.insertEntry_rel {entries entries' : List (Location × Guard)} {g g' : Guard}
    (h : List.Forall₂ (EntryMoved ρ) entries entries') (hg : g.Moved ρ g') (l : Location) :
    List.Forall₂ (EntryMoved ρ) (insertEntry l g entries) (insertEntry l g' entries') := by
  induction h with
  | nil => exact .cons ⟨rfl, hg⟩ .nil
  | cons he hrest ih =>
    rw [insertEntry, insertEntry, he.1]
    split
    · exact .cons ⟨rfl, hg⟩ (.cons he hrest)
    · split
      · exact .cons he hrest
      · exact .cons he ih

namespace Resolution

variable {r r' : Resolution} {decl decl' : LockDecl}

theorem Moved.bindNames (hdecl : decl.Moved ρ decl') (names : List String) (h : r.Moved ρ r') :
    (bindNames decl r names).Moved ρ (bindNames decl' r' names) := by
  induction names generalizing r r' with
  | nil => exact h
  | cons name names ih =>
    rw [Resolution.bindNames, Resolution.bindNames, hdecl.2]
    cases decl'.resolve? name with
    | none =>
      exact ⟨h.guards, List.rel_append h.warnings
        (.cons (.unresolvedName hdecl.1.moves) .nil)⟩
    | some l => exact ih ⟨GuardMap.insertEntry_rel h.guards hdecl.1 l, h.warnings⟩

theorem Moved.bind {p q : Program} (hpq : p.Moved ρ q) (h : r.Moved ρ r')
    (hdecl : decl.Moved ρ decl') : (bind p.commentIndex r decl).Moved ρ (bind q.commentIndex r' decl') := by
  have hcomment := hpq.commentAt_eq hdecl.1.moves
  rw [Program.commentAt, Program.commentAt] at hcomment
  rw [Resolution.bind, Resolution.bind, hcomment]
  cases LockNote.parse (q.commentIndex.textAt decl'.guard.pos) with
  | missing =>
    exact ⟨h.guards, List.rel_append h.warnings (.cons (.missingNote hdecl.1.moves) .nil)⟩
  | optOut => exact h
  | names names => exact h.bindNames hdecl names

end Resolution

theorem Program.Moved.resolve {p q : Program} (h : p.Moved ρ q) (d : Discipline) :
    (d.resolve p).Moved ρ (d.resolve q) :=
  List.rel_foldl (fun _ _ hr _ _ hdecl => hr.bind h hdecl) ⟨.nil, .nil⟩ (h.lockDecls_rel d)

/-! ## The order of the work -/

/-- Lists that are related entry by entry are sorted alike when related entries
    compare alike. -/
theorem forall₂_mergeSort {α β : Type} {R : α → β → Prop} {le : α → α → Bool}
    {le' : β → β → Bool} {l : List α} {l' : List β} (h : List.Forall₂ R l l')
    (hle : ∀ a a' b b', R a a' → R b b' → le a b = le' a' b') :
    List.Forall₂ R (l.mergeSort le) (l'.mergeSort le') := by
  obtain ⟨hlength, hzip⟩ := List.forall₂_iff_zip.mp h
  -- the pairs are sorted by their first parts, which sorts them by their second parts too
  have hfst := List.map_mergeSort (f := Prod.fst) (l := l.zip l') (r := fun x y => le x.1 y.1)
    (s := le) (fun _ _ _ _ => rfl)
  have hsnd := List.map_mergeSort (f := Prod.snd) (l := l.zip l') (r := fun x y => le x.1 y.1)
    (s := le') (fun x hx y hy => hle _ _ _ _ (hzip hx) (hzip hy))
  rw [List.map_fst_zip (Nat.le_of_eq hlength)] at hfst
  rw [List.map_snd_zip (Nat.le_of_eq hlength.symm)] at hsnd
  rw [← hfst, ← hsnd, List.forall₂_map_left_iff, List.forall₂_map_right_iff, List.forall₂_same]
  intro x hx
  exact hzip (List.mem_mergeSort.mp hx)

theorem Program.Moved.agenda {p q : Program} (h : p.Moved ρ q) (d : Discipline) :
    List.Forall₂ (EntryMoved ρ) (d.agenda p) (d.agenda q) := by
  refine forall₂_mergeSort (h.resolve d).guards ?_
  intro a a' b b' ha hb
  rw [Location.verifiedBefore, Location.verifiedBefore, h.sortKey?_eq, h.sortKey?_eq, ha.1, hb.1]

end LockDiscipline
