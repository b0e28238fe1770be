import LockDiscipline.Proofs.Checked.Lookup

/- Resolution with checked lookups. Files, their declarations and the lines of
   structs are gone through in nested loops; binding a name writes a log line
   that shows the lock and the location, which are lookups too. -/
namespace LockDiscipline.Checked

variable (p : Program)

/-! ## The loops -/

/-- The sum of an index and an offset, which has to fit 32 bits. -/
def addIndex (index offset : Nat) : Checked Nat :=
  if index + offset < idModulus then .ok (index + offset)
  else .error (.overflow index offset)

def indexOf? (line : FieldLine) (name : String) : Checked (Option Nat) :=
  if line.isEmbedded then
    return if line.ty.embeddedName? = some name then some line.firstIndex else none
  else
    match line.names.findIdx? (· == name) with
    | none => return none
    | some i => do return some (← addIndex line.firstIndex i)

def fieldNamed? (d : StructDecl) (name : String) : Checked (Option FieldRef) :=
  d.fields.findSomeM? fun line => do
    return (← indexOf? line name).map fun index => ⟨d.id, index⟩

def bindNames (guard : Guard) (resolve? : String → Checked (Option Location)) (r : Resolution) :
    List String → Checked Resolution
  | [] => return r
  | name :: names => do
    match ← resolve? name with
    | none =>
      let _ ← showPosition p guard.pos
      return { r with warnings := r.warnings ++ [.unresolvedName guard.pos name] }
    | some l =>
      -- the log shows the lock and the location
      let _ ← showPosition p guard.pos
      let _ ← locationName p l
      bindNames guard resolve? { r with guards := r.guards.insert l guard } names

def bindNote (r : Resolution) (guard : Guard) (resolve? : String → Checked (Option Location)) :
    Checked Resolution := do
  match LockNote.parse (p.commentIndex.textAt guard.pos) with
  | .missing =>
    let _ ← showPosition p guard.pos
    return { r with warnings := r.warnings ++ [.missingNote guard.pos] }
  | .optOut =>
    let _ ← showPosition p guard.pos
    return r
  | .names names => bindNames p guard resolve? r names

/-- Adds what the annotation of a variable says, if it is a lock. -/
def bindVar (package : Nat) (r : Resolution) (d : VarDecl) : Checked Resolution :=
  match d.ty.bind TypeExpr.lockKind? with
  | none => return r
  | some kind => bindNote p r ⟨.global d.global, kind, d.pos⟩ fun name =>
    return (p.packageVar? package name).map .global

/-- Adds what the annotation of a line of a struct says, if it is a lock. -/
def bindLine (d : StructDecl) (r : Resolution) (line : FieldLine) : Checked Resolution :=
  match line.ty.lockKind? with
  | none => return r
  | some kind => bindNote p r ⟨.field ⟨d.id, line.firstIndex⟩, kind, line.pos⟩ fun name => do
    return (← fieldNamed? d name).map .field

def bindDeclaration (d : Discipline) (package : Nat) (r : Resolution) :
    Declaration → Checked Resolution
  | .var decl =>
    match d with
    | .globals => bindVar p package r decl
    | .fields => return r
  | .struct decl =>
    match d with
    | .globals => return r
    | .fields => decl.fields.foldlM (bindLine p decl) r

def resolve (d : Discipline) : Checked Resolution :=
  p.snapshot.files.toList.foldlM
    (fun r f => do
      if ← isAnalyzed p f.package then f.decls.foldlM (bindDeclaration p d f.package) r
      else return r)
    .empty

variable {p}

/-! ## Indices -/

/-- The lines of an accepted program end at an index, if their names can be counted. -/
theorem lines_lt (hnames : p.snapshot.NamesFit) :
    p.snapshot.EachLine fun _ line => line.firstIndex + line.size < idModulus :=
  fun f hf d hd line hline => ((p.linesEnd f hf d hd line hline).le (hnames f hf d hd line hline)).1

theorem indexOf?_ok {line : FieldLine} (hline : line.firstIndex + line.size < idModulus)
    (name : String) : indexOf? line name = .ok (line.indexOf? name) := by
  unfold indexOf? FieldLine.indexOf?
  by_cases hembedded : line.isEmbedded = true
  · rw [if_pos hembedded, if_pos hembedded]
    rfl
  · rw [if_neg hembedded, if_neg hembedded]
    cases hi : line.names.findIdx? (· == name) with
    | none => rfl
    | some i =>
      have hlt : i < line.names.length := (List.findIdx?_eq_some_iff_findIdx_eq.mp hi).1
      have hsize : line.names.length ≤ line.size := Nat.le_max_left _ _
      have hsum : line.firstIndex + i < idModulus := by omega
      simp only [addIndex, if_pos hsum, ok_bind, pure_eq_ok, Option.map_some, Nat.mod_eq_of_lt hsum]

theorem fieldNamed?_ok {d : StructDecl}
    (hlines : ∀ line ∈ d.fields, line.firstIndex + line.size < idModulus) (name : String) :
    fieldNamed? d name = .ok (d.fieldNamed? name) := by
  refine findSomeM?_ok ?_
  intro line hline
  rw [indexOf?_ok (hlines line hline), ok_bind, pure_eq_ok]

/-! ## Binding -/

variable {decl : LockDecl} {resolve? : String → Checked (Option Location)}

theorem bindNames_ok (hdecl : decl.Declared p p.HasLocation)
    (hresolve : ∀ name, resolve? name = .ok (decl.resolve? name)) (names : List String)
    (r : Resolution) :
    bindNames p decl.guard resolve? r names = .ok (Resolution.bindNames decl r names) := by
  induction names generalizing r with
  | nil => rfl
  | cons name names ih =>
    rw [bindNames, hresolve, ok_bind, Resolution.bindNames]
    cases hl : decl.resolve? name with
    | none => simp only [showPosition_ok hdecl.pos, ok_bind, pure_eq_ok]
    | some l =>
      obtain ⟨shown, hshown⟩ := Location.exists_name (hdecl.resolved name l hl)
      simp only [showPosition_ok hdecl.pos, locationName_ok hshown, ok_bind]
      exact ih _

theorem bindNote_ok (hdecl : decl.Declared p p.HasLocation)
    (hresolve : ∀ name, resolve? name = .ok (decl.resolve? name)) (r : Resolution) :
    bindNote p r decl.guard resolve? = .ok (Resolution.bind p.commentIndex r decl) := by
  unfold bindNote Resolution.bind
  cases LockNote.parse (p.commentIndex.textAt decl.guard.pos) with
  | missing => simp only [showPosition_ok hdecl.pos, ok_bind, pure_eq_ok]
  | optOut => simp only [showPosition_ok hdecl.pos, ok_bind, pure_eq_ok]
  | names names => exact bindNames_ok hdecl hresolve names r

variable (hnames : p.snapshot.NamesFit)
include hnames

theorem bindVar_ok {d : VarDecl} (hd : p.snapshot.HasDeclaration (.var d)) (package : Nat)
    (r : Resolution) :
    bindVar p package r d =
      .ok ((d.lockDecl? p package).toList.foldl (Resolution.bind p.commentIndex) r) := by
  unfold bindVar
  cases hkind : d.ty.bind TypeExpr.lockKind? with
  | none => simp [VarDecl.lockDecl?, hkind]
  | some kind =>
    have hdecl : d.lockDecl? p package = some
        { guard := ⟨.global d.global, kind, d.pos⟩
          resolve? := fun name => (p.packageVar? package name).map .global } := by
      rw [VarDecl.lockDecl?, hkind, Option.map_some]
    rw [hdecl]
    have hdeclared := VarDecl.declared (Program.covers_hasLocation hnames) hd hdecl
    exact bindNote_ok hdeclared (fun _ => rfl) r

theorem bindLine_ok {f : SourceFile} (hf : f ∈ p.snapshot.files.toList) {d : StructDecl}
    (hd : .struct d ∈ f.decls) {line : FieldLine} (hline : line ∈ d.fields) (r : Resolution) :
    bindLine p d r line =
      .ok ((d.lockDecl? line).toList.foldl (Resolution.bind p.commentIndex) r) := by
  unfold bindLine
  cases hkind : line.ty.lockKind? with
  | none => simp [StructDecl.lockDecl?, hkind]
  | some kind =>
    have hdecl : d.lockDecl? line = some
        { guard := ⟨.field ⟨d.id, line.firstIndex⟩, kind, line.pos⟩
          resolve? := fun name => (d.fieldNamed? name).map .field } := by
      rw [StructDecl.lockDecl?, hkind, Option.map_some]
    rw [hdecl]
    refine bindNote_ok
      (StructDecl.declared (Program.covers_hasLocation hnames) hf hd hline hdecl) ?_ r
    intro name
    rw [fieldNamed?_ok (lines_lt hnames f hf d hd), ok_bind, pure_eq_ok]

theorem bindDeclaration_ok {f : SourceFile} (hf : f ∈ p.snapshot.files.toList)
    {declaration : Declaration} (hd : declaration ∈ f.decls) (d : Discipline) (package : Nat)
    (r : Resolution) :
    bindDeclaration p d package r declaration =
      .ok ((d.lockDeclsOf p package declaration).foldl (Resolution.bind p.commentIndex) r) := by
  cases declaration with
  | var decl =>
    cases d with
    | globals => exact bindVar_ok hnames ((p.inRange.files f hf).2 _ hd) package r
    | fields => rfl
  | struct decl =>
    cases d with
    | globals => rfl
    | fields =>
      have hlines := foldlM_ok (fun r line hline => bindLine_ok hnames hf hd hline r) r
      rw [← List.foldl_flatMap, ← List.filterMap_eq_flatMap_toList] at hlines
      exact hlines

/-- Resolution ends without a fault. -/
theorem resolve_ok (d : Discipline) : resolve p d = .ok (d.resolve p) := by
  -- the fold over all lock declarations as loops over files and declarations
  have hmodel : d.resolve p = p.snapshot.files.toList.foldl
      (fun r f => if p.inScope f.package = true then
        f.decls.foldl (fun r decl =>
          (d.lockDeclsOf p f.package decl).foldl (Resolution.bind p.commentIndex) r) r
        else r) .empty := by
    rw [Discipline.resolve, Discipline.lockDecls, Program.filesInScope, List.foldl_flatMap,
      List.foldl_filter]
    simp only [List.foldl_flatMap]
  rw [hmodel]
  refine foldlM_ok ?_ _
  intro r f hf
  rw [isAnalyzed_ok (p.inRange.files f hf).1, ok_bind]
  split
  · exact foldlM_ok (fun r decl hdecl => bindDeclaration_ok hnames hf hdecl d f.package r) r
  · rfl

end LockDiscipline.Checked
