import LockDiscipline.Program.Basic
import Mathlib.Data.List.Basic

/- What the checks on a snapshot come to: every id names an entry of its table
   (`InRange`), every line of a struct ends inside its fields (`LinesEnd`), and no
   package is broken or listed twice (`fault?_eq_none_iff`). The duties on paths
   come last, so a snapshot that meets the others is refused only for the first
   path that is listed again (`inconsistency?_eq_some`). Ends are counted in 32
   bits: they are right if no line has too many names (`stop?_eq_some_iff`). -/
namespace LockDiscipline

namespace Snapshot

variable (s : Snapshot)

/-- The file of the position exists. -/
def HasPosition (pos : Position) : Prop := pos.file < s.files.size

/-- What the operand names exists. -/
def HasOperand : Operand → Prop
  | .global id => id < s.globals.size
  | .field ref => s.hasField ref = true
  | .function node => node < s.functions.size
  | .value _ | .const => True

/-- What the action names beside its operands exists. -/
def HasAction : Action → Prop
  | .fieldAddr _ field => s.hasField field = true
  | .call site | .defer site | .spawn site => ∀ node ∈ site.target?, node < s.functions.size
  | _ => True

/-- All that the instruction names exists. -/
structure HasInstruction (i : Instruction) : Prop where
  pos : s.HasPosition i.pos
  operands : ∀ op ∈ i.operands, s.HasOperand op
  action : s.HasAction i.action

/-- All that the declaration names exists. -/
def HasDeclaration : Declaration → Prop
  | .var d => d.global < s.globals.size ∧ s.HasPosition d.pos
  | .struct d => d.id < s.structs.size ∧ ∀ l ∈ d.fields, s.HasPosition l.pos

/-- Every id of the snapshot names an entry of its table. -/
structure InRange : Prop where
  files : ∀ f ∈ s.files.toList,
    f.package < s.packages.size ∧ ∀ d ∈ f.decls, s.HasDeclaration d
  globals : ∀ g ∈ s.globals.toList, g.package < s.packages.size ∧ s.HasPosition g.pos
  structs : ∀ t ∈ s.structs.toList,
    t.package < s.packages.size ∧ ∀ f ∈ t.fields, s.HasPosition f.pos
  functions : ∀ f ∈ s.functions.toList,
    f.package < s.packages.size ∧ ∀ i ∈ f.body, s.HasInstruction i
  edges : ∀ e ∈ s.edges, e.caller < s.functions.size ∧ e.callee < s.functions.size
  comments : ∀ c ∈ s.comments, s.HasPosition c.pos

/-- `P` holds of every line of every struct declaration. -/
def EachLine (P : StructDecl → FieldLine → Prop) : Prop :=
  ∀ f ∈ s.files.toList, ∀ d, .struct d ∈ f.decls → ∀ l ∈ d.fields, P d l

/-- The end of a line, counted in 32 bits, lies inside the fields of the type. -/
def EndsInside (d : StructDecl) (l : FieldLine) : Prop :=
  ∃ stop, l.stop? = some stop ∧ stop ≤ s.fieldCount d.id

/-- Every line ends inside the fields of its struct type. -/
def LinesEnd : Prop := s.EachLine s.EndsInside

/-- No package has errors, no path is listed twice, and every id names an entry of its
    table. -/
structure Linked : Prop where
  healthy : ∀ pkg ∈ s.packages.toList, pkg.errors = []
  paths : (s.packages.toList.map Package.path).Nodup
  inRange : s.InRange

/-- Beside that every line ends inside the fields of its struct type, as far as 32 bits
    can tell. -/
structure Sound : Prop extends s.Linked where
  lines : s.LinesEnd

/-- Every table has fewer than 2^32 entries. -/
structure TablesFit : Prop where
  packages : s.packages.size < idModulus
  files : s.files.size < idModulus
  globals : s.globals.size < idModulus
  structs : s.structs.size < idModulus
  functions : s.functions.size < idModulus
  fields : ∀ ty ∈ s.structs.toList, ty.fields.length < idModulus

/-- No line has 2^32 names. -/
def NamesFit : Prop := s.EachLine fun _ l => l.names.length < idModulus

variable {s}

theorem hasField_iff {f : FieldRef} :
    s.hasField f = true ↔ ∃ t, s.structs[f.owner]? = some t ∧ f.index < t.fields.length := by
  unfold hasField
  cases s.structs[f.owner]? <;> simp

theorem lt_fieldCount_iff {id index : Nat} :
    index < s.fieldCount id ↔ s.hasField ⟨id, index⟩ = true := by
  rw [hasField_iff]
  unfold fieldCount
  cases s.structs[id]? <;> simp

/-! ## The end of a line -/

theorem addIndices?_eq_some_iff {a b sum : Nat} :
    addIndices? a b = some sum ↔ a + b < idModulus ∧ a + b = sum := by
  rw [addIndices?, Option.ite_none_right_eq_some, Option.some.injEq]

/-- A line whose names can be counted ends where it should, unless that is too large
    for an index. -/
theorem stop?_eq_some_iff {l : FieldLine} (hnames : l.names.length < idModulus) {stop : Nat} :
    l.stop? = some stop ↔ l.firstIndex + l.size < idModulus ∧ l.firstIndex + l.size = stop := by
  have hsize : l.size < idModulus := Nat.max_lt.mpr ⟨hnames, by decide⟩
  rw [FieldLine.stop?, Nat.mod_eq_of_lt hsize, addIndices?_eq_some_iff]

theorem EndsInside.le {d : StructDecl} {l : FieldLine} (h : s.EndsInside d l)
    (hnames : l.names.length < idModulus) :
    l.firstIndex + l.size < idModulus ∧ l.firstIndex + l.size ≤ s.fieldCount d.id := by
  obtain ⟨stop, hstop, hle⟩ := h
  obtain ⟨hlt, rfl⟩ := (stop?_eq_some_iff hnames).mp hstop
  exact ⟨hlt, hle⟩

theorem TablesFit.fieldCount_lt (h : s.TablesFit) (id : Nat) : s.fieldCount id < idModulus := by
  unfold fieldCount
  split
  · next ty hty => exact h.fields ty (Array.mem_toList_iff.mpr (Array.mem_of_getElem? hty))
  · decide

/-- Where all that is counted has fewer than 2^32 entries, it does not matter that ends
    are counted in 32 bits. -/
theorem linesEnd_iff (hfit : s.TablesFit) (hnames : s.NamesFit) :
    s.LinesEnd ↔ s.EachLine fun d l => l.firstIndex + l.size ≤ s.fieldCount d.id := by
  constructor
  · intro h f hf d hd l hl
    exact ((h f hf d hd l hl).le (hnames f hf d hd l hl)).2
  · intro h f hf d hd l hl
    have hle := h f hf d hd l hl
    refine ⟨_, (stop?_eq_some_iff (hnames f hf d hd l hl)).mpr ⟨?_, rfl⟩, hle⟩
    exact Nat.lt_of_le_of_lt hle (hfit.fieldCount_lt d.id)

/-! ## Each duty says that something is in range -/

theorem positionDuty_iff {user : String} {pos : Position} :
    (s.positionDuty user pos).holds = true ↔ s.HasPosition pos := by
  simp [positionDuty, HasPosition]

theorem fieldDuties_iff {user : String} {f : FieldRef} :
    (∀ d ∈ s.fieldDuties user f, d.holds = true) ↔ s.hasField f = true := by
  simp only [fieldDuties, List.forall_mem_cons, decide_eq_true_eq]
  constructor
  · exact fun h => h.2.1
  · intro h
    obtain ⟨t, ht, -⟩ := hasField_iff.mp h
    exact ⟨(Array.getElem?_eq_some_iff.mp ht).1, h, by simp⟩

theorem operandDuties_iff {user : String} {op : Operand} :
    (∀ d ∈ s.operandDuties user op, d.holds = true) ↔ s.HasOperand op := by
  cases op with
  | field ref => exact fieldDuties_iff
  | _ => simp [operandDuties, HasOperand]

theorem actionDuties_iff {user : String} {a : Action} :
    (∀ d ∈ s.actionDuties user a, d.holds = true) ↔ s.HasAction a := by
  have hsite : ∀ site : CallSite,
      (∀ d ∈ s.actionDuties user (.call site), d.holds = true) ↔
        ∀ node ∈ site.target?, node < s.functions.size := by
    rintro ⟨callee, method, args⟩
    cases callee <;> simp [actionDuties, CallSite.target?]
  cases a with
  | fieldAddr base field => exact fieldDuties_iff
  | call site => exact hsite site
  | defer site => exact hsite site
  | spawn site => exact hsite site
  | _ => simp [actionDuties, HasAction]

theorem instructionDuties_iff {user : String} {i : Instruction} :
    (∀ d ∈ s.instructionDuties user i, d.holds = true) ↔ s.HasInstruction i := by
  simp only [instructionDuties, List.forall_mem_cons, List.forall_mem_append,
    List.forall_mem_flatMap, positionDuty_iff, operandDuties_iff, actionDuties_iff]
  exact ⟨fun h => ⟨h.1, h.2.1, h.2.2⟩, fun h => ⟨h.pos, h.operands, h.action⟩⟩

theorem fieldLineDuties_iff {d : StructDecl} {l : FieldLine} :
    (∀ duty ∈ s.fieldLineDuties d l, duty.holds = true) ↔
      s.HasPosition l.pos ∧ s.EndsInside d l := by
  simp only [fieldLineDuties, List.forall_mem_cons, positionDuty_iff, Option.any_eq_true,
    decide_eq_true_eq, EndsInside]
  exact ⟨fun h => ⟨h.1, h.2.1⟩, fun h => ⟨h.1, h.2, by simp⟩⟩

theorem declarationDuties_iff {d : Declaration} :
    (∀ duty ∈ s.declarationDuties d, duty.holds = true) ↔
      s.HasDeclaration d ∧ ∀ decl, d = .struct decl → ∀ l ∈ decl.fields, s.EndsInside decl l := by
  cases d with
  | var d => simp [declarationDuties, HasDeclaration, positionDuty_iff]
  | struct d =>
    simp only [declarationDuties, HasDeclaration, List.forall_mem_cons, List.forall_mem_flatMap,
      fieldLineDuties_iff, decide_eq_true_eq, Declaration.struct.injEq, forall_eq']
    exact ⟨fun h => ⟨⟨h.1, fun l hl => (h.2 l hl).1⟩, fun l hl => (h.2 l hl).2⟩,
      fun h => ⟨h.1.1, fun l hl => ⟨h.1.2 l hl, h.2 l hl⟩⟩⟩

/-- The duties other than those on the paths of packages. -/
def rangeDuties (s : Snapshot) : List Duty :=
  s.files.toList.flatMap s.fileDuties
    ++ s.globals.toList.flatMap s.globalDuties
    ++ s.structs.toList.flatMap s.structDuties
    ++ s.functions.toList.flatMap s.functionDuties
    ++ s.edges.map s.edgeDuty
    ++ s.comments.map (fun c => s.positionDuty "comment" c.pos)

theorem duties_eq : s.duties = s.rangeDuties ++ distinctDuties [] s.packages.toList := rfl

theorem rangeDuties_iff :
    (∀ d ∈ s.rangeDuties, d.holds = true) ↔ s.InRange ∧ s.LinesEnd := by
  simp only [rangeDuties, fileDuties, globalDuties, structDuties, functionDuties, edgeDuty,
    List.forall_mem_append, List.forall_mem_flatMap, List.forall_mem_map, List.forall_mem_cons,
    positionDuty_iff, declarationDuties_iff, instructionDuties_iff, decide_eq_true_eq,
    Bool.and_eq_true]
  constructor
  · rintro ⟨⟨⟨⟨⟨hfiles, hglobals⟩, hstructs⟩, hfunctions⟩, hedges⟩, hcomments⟩
    refine ⟨⟨?_, ?_, hstructs, hfunctions, hedges, hcomments⟩, ?_⟩
    · exact fun f hf => ⟨(hfiles f hf).1, fun d hd => ((hfiles f hf).2 d hd).1⟩
    · exact fun g hg => ⟨(hglobals g hg).1, (hglobals g hg).2.1⟩
    · exact fun f hf d hd => ((hfiles f hf).2 _ hd).2 d rfl
  · rintro ⟨h, hlines⟩
    refine ⟨⟨⟨⟨⟨?_, ?_⟩, h.structs⟩, h.functions⟩, h.edges⟩, h.comments⟩
    · refine fun f hf => ⟨(h.files f hf).1, fun d hd => ⟨(h.files f hf).2 d hd, ?_⟩⟩
      rintro decl rfl
      exact hlines f hf decl hd
    · exact fun g hg => ⟨(h.globals g hg).1, (h.globals g hg).2, by simp⟩

/-- The duties hold exactly when all ids are in range, all lines end inside and the
    paths of the packages are distinct. -/
theorem duties_iff :
    (∀ d ∈ s.duties, d.holds = true) ↔ (s.InRange ∧ s.LinesEnd) ∧
      ∀ d ∈ distinctDuties [] s.packages.toList, d.holds = true := by
  rw [duties_eq, List.forall_mem_append, rangeDuties_iff]

/-! ## Packages are listed once -/

/-- The duties on paths hold when the paths differ from each other and from those
    seen before. -/
theorem distinctDuties_iff {seen : List String} {packages : List Package} :
    (∀ d ∈ distinctDuties seen packages, d.holds = true) ↔
      (packages.map Package.path).Nodup ∧ ∀ p ∈ packages, p.path ∉ seen := by
  induction packages generalizing seen with
  | nil => simp [distinctDuties]
  | cons p packages ih =>
    have hhead : (!seen.contains p.path) = true ↔ p.path ∉ seen := by simp
    rw [distinctDuties, List.forall_mem_cons, hhead, ih, List.forall_mem_cons, List.map_cons,
      List.nodup_cons]
    constructor
    · rintro ⟨hp, hnodup, hnew⟩
      refine ⟨⟨?_, hnodup⟩, hp, fun q hq hs => hnew q hq (List.mem_cons_of_mem _ hs)⟩
      intro hm
      obtain ⟨q, hq, heq⟩ := List.mem_map.mp hm
      exact hnew q hq (by simp [heq])
    · rintro ⟨⟨hfresh, hnodup⟩, hp, hnew⟩
      refine ⟨hp, hnodup, ?_⟩
      intro q hq hs
      rcases List.mem_cons.mp hs with heq | hs
      · exact hfresh (List.mem_map.mpr ⟨q, hq, heq⟩)
      · exact hnew q hq hs

/-- `path` is the first of the paths that repeats an earlier one. -/
def IsFirstRepeat (paths : List String) (path : String) : Prop :=
  ∃ before after, paths = before ++ path :: after ∧ before.Nodup ∧ path ∈ before

/-- The duty on paths that is broken first is that of the first repeat, if the
    paths seen before are counted in. -/
theorem find?_distinctDuties {seen : List String} {packages : List Package} {d : Duty}
    (h : (distinctDuties seen packages).find? (!·.holds) = some d) :
    ∃ before path after, packages.map Package.path = before ++ path :: after ∧ before.Nodup ∧
      (∀ q ∈ before, q ∉ seen) ∧ (path ∈ seen ∨ path ∈ before) ∧
      d.otherwise = .repeatedPackage path := by
  induction packages generalizing seen with
  | nil => cases h
  | cons p packages ih =>
    by_cases hp : p.path ∈ seen
    · have hd : d = ⟨!seen.contains p.path, .repeatedPackage p.path⟩ := by
        simpa [distinctDuties, hp] using h.symm
      exact ⟨[], p.path, _, rfl, List.nodup_nil, by simp, .inl hp, by rw [hd]⟩
    · have hrest : (distinctDuties (p.path :: seen) packages).find? (!·.holds) = some d := by
        simpa [distinctDuties, hp] using h
      -- a repeat of `p.path` further on counts as one of what has been seen
      obtain ⟨before, path, after, hpaths, hnodup, hnew, hpath, hd⟩ := ih hrest
      simp only [List.mem_cons, not_or] at hnew hpath
      refine ⟨p.path :: before, path, after, by rw [List.map_cons, hpaths, List.cons_append], ?_, ?_,
        ?_, hd⟩
      · exact List.nodup_cons.mpr ⟨fun hm => (hnew _ hm).1 rfl, hnodup⟩
      · intro q hq
        rcases List.mem_cons.mp hq with rfl | hq
        · exact hp
        · exact (hnew q hq).2
      · rw [List.mem_cons]
        tauto

/-- With all ids in range, only a repeated package is left to complain about. -/
theorem inconsistency?_eq_some (h : s.InRange) (hlines : s.LinesEnd) {cause : Inconsistency}
    (hcause : s.inconsistency? = some cause) :
    ∃ path, IsFirstRepeat (s.packages.toList.map Package.path) path ∧
      cause = .repeatedPackage path := by
  have hrange : s.rangeDuties.find? (!·.holds) = none := by
    simpa using rangeDuties_iff.mpr ⟨h, hlines⟩
  rw [inconsistency?, duties_eq, List.find?_append, hrange, Option.none_or,
    Option.map_eq_some_iff] at hcause
  obtain ⟨d, hd, rfl⟩ := hcause
  obtain ⟨before, path, after, hpaths, hnodup, -, hpath, hotherwise⟩ := find?_distinctDuties hd
  exact ⟨path, ⟨before, after, hpaths, hnodup, by simpa using hpath⟩, hotherwise⟩

/-! ## Acceptance -/

theorem brokenPackage?_eq_none_iff :
    s.brokenPackage? = none ↔ ∀ pkg ∈ s.packages.toList, pkg.errors = [] := by
  simp [brokenPackage?]

theorem fault?_eq_none_iff : s.fault? = none ↔ s.Sound := by
  have hfault : s.fault? = none ↔ s.brokenPackage? = none ∧ s.inconsistency? = none := by
    unfold fault?
    cases s.brokenPackage? <;> simp
  rw [hfault, brokenPackage?_eq_none_iff, inconsistency?_eq_none_iff, duties_iff,
    distinctDuties_iff]
  constructor
  · intro h
    exact { healthy := h.1, paths := h.2.2.1, inRange := h.2.1.1, lines := h.2.1.2 }
  · intro h
    exact ⟨h.healthy, ⟨h.inRange, h.lines⟩, h.paths, by simp⟩

end Snapshot

namespace Program

theorem ofSnapshot_eq_error_iff {s : Snapshot} {e : LoadError} :
    ofSnapshot s = .error e ↔ s.fault? = some e := by
  unfold ofSnapshot
  split
  · next e' h => rw [h, Except.error.injEq, Option.some.injEq]
  · next h => simp [h]

theorem exists_ofSnapshot_eq_ok_iff {s : Snapshot} :
    (∃ p, ofSnapshot s = .ok p) ↔ s.fault? = none := by
  unfold ofSnapshot
  split
  · next e h => simp [h]
  · next h => exact ⟨fun _ => h, fun _ => ⟨_, rfl⟩⟩

end Program

namespace Program

variable (p : Program)

/-- All ids of an accepted program are in range. -/
theorem inRange : p.snapshot.InRange := (Snapshot.fault?_eq_none_iff.mp p.sound).inRange

theorem linesEnd : p.snapshot.LinesEnd := (Snapshot.fault?_eq_none_iff.mp p.sound).lines

end Program

end LockDiscipline
