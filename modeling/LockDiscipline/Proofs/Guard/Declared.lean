import LockDiscipline.Guard.Resolution
import LockDiscipline.Proofs.Program.Ranges

/- Resolution deals in declared things only: the locations that it protects,
   the locks that guard them and the places that it warns about all exist. What
   names stand for is read off the declarations, so it is enough to know of these
   that they lead to what exists (`Covers`). A field always has its struct
   (`covers_hasOwner`), and it exists itself if no line has too many names to be
   counted (`covers_hasLocation`). -/
namespace LockDiscipline

namespace Program

/-- The variable or field exists. -/
def HasLocation (p : Program) (l : Location) : Prop := p.snapshot.HasOperand l.operand

/-- The variable exists, or the struct of the field. -/
def HasOwner (p : Program) : Location → Prop
  | .global id => id < p.snapshot.globals.size
  | .field ref => ref.owner < p.snapshot.structs.size

theorem HasLocation.hasOwner {p : Program} {l : Location} (h : p.HasLocation l) : p.HasOwner l := by
  cases l with
  | global id => exact h
  | field ref =>
    obtain ⟨t, ht, -⟩ := Snapshot.hasField_iff.mp h
    exact (Array.getElem?_eq_some_iff.mp ht).1

end Program

namespace Location

variable {p : Program} {l : Location}

theorem exists_package (h : p.HasOwner l) :
    ∃ package, l.package? p = some package ∧ package < p.snapshot.packages.size := by
  cases l with
  | global id =>
    have hid : id < p.snapshot.globals.size := h
    refine ⟨p.snapshot.globals[id].package, by simp [package?, hid], ?_⟩
    exact (p.inRange.globals _ (Array.getElem_mem_toList hid)).1
  | field ref =>
    have howner : ref.owner < p.snapshot.structs.size := h
    refine ⟨p.snapshot.structs[ref.owner].package, by simp [package?, howner], ?_⟩
    exact (p.inRange.structs _ (Array.getElem_mem_toList howner)).1

theorem exists_name (h : p.HasLocation l) : ∃ name, l.name? p = some name := by
  cases l with
  | global id =>
    have hid : id < p.snapshot.globals.size := h
    exact ⟨p.snapshot.globals[id].name, by simp [name?, hid]⟩
  | field ref =>
    obtain ⟨t, ht, hlt⟩ := Snapshot.hasField_iff.mp h
    exact ⟨t.name ++ "." ++ t.fields[ref.index].name, by simp [name?, ht, hlt]⟩

theorem exists_sortKey (h : p.HasOwner l) : ∃ key, l.sortKey? p = some key := by
  obtain ⟨package, hpackage, hlt⟩ := exists_package h
  exact ⟨p.snapshot.packages[package].path ++ "_" ++ (l.name? p).getD "",
    by simp [sortKey?, hpackage, hlt]⟩

end Location

/-! ## Names stand for declared locations -/

theorem Program.packageVar?_lt {p : Program} {package : Nat} {name : String} {id : Nat}
    (h : p.packageVar? package name = some id) : id < p.snapshot.globals.size := by
  obtain ⟨decl, hdecl, hid⟩ := List.exists_of_findSome?_eq_some h
  obtain ⟨file, hfile, hdecl⟩ := List.mem_flatMap.mp hdecl
  have hin := (p.inRange.files file (List.mem_filter.mp hfile).1).2 decl hdecl
  cases decl with
  | var d =>
    simp only [Option.ite_none_right_eq_some, Option.some.injEq] at hid
    rw [← hid.2]
    exact hin.1
  | struct d => cases hid

theorem FieldLine.indexOf?_lt {line : FieldLine} {name : String} {index : Nat}
    (h : line.indexOf? name = some index) : index < line.firstIndex + line.size := by
  unfold indexOf? at h
  split at h
  · rw [Option.ite_none_right_eq_some, Option.some.injEq] at h
    rw [← h.2]
    have : 1 ≤ line.size := Nat.le_max_right _ _
    omega
  · obtain ⟨i, hi, rfl⟩ := Option.map_eq_some_iff.mp h
    have hlt : i < line.names.length := (List.findIdx?_eq_some_iff_findIdx_eq.mp hi).1
    have hle : line.names.length ≤ line.size := Nat.le_max_left _ _
    have := Nat.mod_le (line.firstIndex + i) idModulus
    omega

/-- `Q` holds of all variables, and of all fields that lines begin with or have names for. -/
structure Program.Covers (p : Program) (Q : Location → Prop) : Prop where
  globals : ∀ id < p.snapshot.globals.size, Q (.global id)
  fields : p.snapshot.EachLine fun d l => Q (.field ⟨d.id, l.firstIndex⟩) ∧
    ∀ name index, l.indexOf? name = some index → Q (.field ⟨d.id, index⟩)

theorem Program.covers_hasOwner (p : Program) : p.Covers p.HasOwner where
  globals _ hid := hid
  fields f hf d hd _ _ := by
    have hid : d.id < p.snapshot.structs.size := ((p.inRange.files f hf).2 _ hd).1
    exact ⟨hid, fun _ _ _ => hid⟩

theorem Program.covers_hasLocation {p : Program} (hnames : p.snapshot.NamesFit) :
    p.Covers p.HasLocation where
  globals _ hid := hid
  fields f hf d hd l hl := by
    obtain ⟨-, hle⟩ := (p.linesEnd f hf d hd l hl).le (hnames f hf d hd l hl)
    have hinside : ∀ index < l.firstIndex + l.size, p.HasLocation (.field ⟨d.id, index⟩) :=
      fun index hlt => Snapshot.lt_fieldCount_iff.mp (Nat.lt_of_lt_of_le hlt hle)
    have hsize : 1 ≤ l.size := Nat.le_max_right _ _
    exact ⟨hinside _ (by omega), fun name index h => hinside _ (FieldLine.indexOf?_lt h)⟩

/-- `Q` holds of the lock of the declaration and of what names resolve to. -/
structure LockDecl.Declared (p : Program) (Q : Location → Prop) (decl : LockDecl) : Prop where
  location : Q decl.guard.location
  pos : p.snapshot.HasPosition decl.guard.pos
  resolved : ∀ name l, decl.resolve? name = some l → Q l

section
variable {p : Program} {Q : Location → Prop} (hQ : p.Covers Q)
include hQ

theorem VarDecl.declared {package : Nat} {d : VarDecl} {decl : LockDecl}
    (hd : p.snapshot.HasDeclaration (.var d)) (h : d.lockDecl? p package = some decl) :
    decl.Declared p Q := by
  obtain ⟨kind, -, rfl⟩ := Option.map_eq_some_iff.mp h
  refine ⟨hQ.globals _ hd.1, hd.2, ?_⟩
  intro name l hl
  obtain ⟨id, hid, rfl⟩ := Option.map_eq_some_iff.mp hl
  exact hQ.globals _ (p.packageVar?_lt hid)

theorem StructDecl.declared {f : SourceFile} (hf : f ∈ p.snapshot.files.toList) {d : StructDecl}
    (hd : .struct d ∈ f.decls) {line : FieldLine} (hline : line ∈ d.fields) {decl : LockDecl}
    (h : d.lockDecl? line = some decl) : decl.Declared p Q := by
  obtain ⟨kind, -, rfl⟩ := Option.map_eq_some_iff.mp h
  refine ⟨(hQ.fields f hf d hd line hline).1, ((p.inRange.files f hf).2 _ hd).2 line hline, ?_⟩
  intro name l hl
  obtain ⟨ref, href, rfl⟩ := Option.map_eq_some_iff.mp hl
  obtain ⟨other, hother, href⟩ := List.exists_of_findSome?_eq_some href
  obtain ⟨index, hindex, rfl⟩ := Option.map_eq_some_iff.mp href
  exact (hQ.fields f hf d hd other hother).2 name index hindex

theorem Discipline.lockDecls_declared {d : Discipline} {decl : LockDecl}
    (h : decl ∈ d.lockDecls p) : decl.Declared p Q := by
  obtain ⟨file, hfile, hdecl⟩ := List.mem_flatMap.mp h
  obtain ⟨declaration, hmem, hdecl⟩ := List.mem_flatMap.mp hdecl
  have hfile := (List.mem_filter.mp hfile).1
  cases declaration with
  | var var =>
    cases d with
    | globals =>
      exact VarDecl.declared hQ ((p.inRange.files file hfile).2 _ hmem) (Option.mem_toList.mp hdecl)
    | fields => cases hdecl
  | struct struct =>
    cases d with
    | globals => cases hdecl
    | fields =>
      obtain ⟨line, hline, hdecl⟩ := List.mem_filterMap.mp hdecl
      exact StructDecl.declared hQ hfile hmem hline hdecl

end

/-! ## What resolution keeps -/

namespace Resolution

/-- `Q` holds of protected locations and their locks, and the places of warnings exist. -/
structure Declared (p : Program) (Q : Location → Prop) (r : Resolution) : Prop where
  location : ∀ e ∈ r.guards.entries, Q e.1
  guard : ∀ e ∈ r.guards.entries, Q e.2.location
  warning : ∀ w ∈ r.warnings, p.snapshot.HasPosition w.pos

variable {p : Program} {Q : Location → Prop} {r : Resolution} {decl : LockDecl}

theorem Declared.insert (hr : r.Declared p Q) (hdecl : decl.Declared p Q) {l : Location}
    (hl : Q l) :
    ({ r with guards := r.guards.insert l decl.guard } : Resolution).Declared p Q := by
  refine ⟨?_, ?_, hr.warning⟩
  · intro e he
    rcases GuardMap.mem_insertEntry he with rfl | he
    · exact hl
    · exact hr.location e he
  · intro e he
    rcases GuardMap.mem_insertEntry he with rfl | he
    · exact hdecl.location
    · exact hr.guard e he

theorem Declared.warn (hr : r.Declared p Q) {w : Warning} (hw : p.snapshot.HasPosition w.pos) :
    ({ r with warnings := r.warnings ++ [w] } : Resolution).Declared p Q := by
  refine ⟨hr.location, hr.guard, ?_⟩
  intro w' hw'
  rcases List.mem_append.mp hw' with hw' | hw'
  · exact hr.warning w' hw'
  · rw [List.mem_singleton.mp hw']
    exact hw

theorem Declared.bindNames (hdecl : decl.Declared p Q) (names : List String) (hr : r.Declared p Q) :
    (bindNames decl r names).Declared p Q := by
  induction names generalizing r with
  | nil => exact hr
  | cons name names ih =>
    rw [Resolution.bindNames]
    split
    · exact hr.warn hdecl.pos
    · next l hl => exact ih (hr.insert hdecl (hdecl.resolved name l hl))

theorem Declared.bind (hr : r.Declared p Q) (hdecl : decl.Declared p Q) (comments : CommentIndex) :
    (bind comments r decl).Declared p Q := by
  rw [Resolution.bind]
  split
  · exact hr.warn hdecl.pos
  · exact hr
  · exact Declared.bindNames hdecl _ hr

theorem Declared.foldl (hr : r.Declared p Q) (comments : CommentIndex) (decls : List LockDecl)
    (hdecls : ∀ decl ∈ decls, decl.Declared p Q) :
    (decls.foldl (Resolution.bind comments) r).Declared p Q := by
  induction decls generalizing r with
  | nil => exact hr
  | cons decl decls ih =>
    obtain ⟨hdecl, hdecls⟩ := List.forall_mem_cons.mp hdecls
    exact ih (hr.bind hdecl comments) hdecls

end Resolution

/-- All that resolution comes up with is declared. -/
theorem Discipline.resolve_declared {p : Program} {Q : Location → Prop} (hQ : p.Covers Q)
    (d : Discipline) : (d.resolve p).Declared p Q :=
  Resolution.Declared.foldl ⟨by simp [Resolution.empty, GuardMap.empty],
    by simp [Resolution.empty, GuardMap.empty], by simp [Resolution.empty]⟩ _ _
    fun _ h => Discipline.lockDecls_declared hQ h

end LockDiscipline
