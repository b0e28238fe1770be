import LockDiscipline.Program.Decode
import LockDiscipline.Program.Encode
import LockDiscipline.Proofs.Json.Record
import Mathlib.Data.Option.Basic

/- Every decoder undoes its encoder (`inverts`, one lemma for each type), in any
   room where the encoding is readable. Instructions and declarations keep a tag
   among their members: the members are told apart by name, those that are held
   until the tag is known fit, and the tag selects the decoder of the others. -/
namespace LockDiscipline

open Json (Inverts Readable)

theorem FieldRef.inverts (f : FieldRef) : Inverts FieldRef.ofJson? FieldRef.toJson f := by
  intro room h
  obtain ⟨inner, rfl, hparts⟩ := Json.readable_object.mp h
  simp only [List.forall_mem_cons, Json.readable_ofNat] at hparts
  obtain ⟨howner, hindex, -⟩ := hparts
  simp [FieldRef.ofJson?, FieldRef.toJson, Json.toWord?_ofNat, howner, hindex]

theorem Position.inverts (p : Position) : Inverts Position.ofJson? Position.toJson p := by
  intro room h
  obtain ⟨inner, rfl, hparts⟩ := Json.readable_object.mp h
  simp only [List.forall_mem_cons, Json.readable_ofNat] at hparts
  obtain ⟨hfile, hline, hcolumn, -⟩ := hparts
  simp [Position.ofJson?, Position.toJson, Json.toWord?_ofNat, hfile, hline, hcolumn]

theorem TypeExpr.inverts (t : TypeExpr) : Inverts TypeExpr.ofJson? TypeExpr.toJson t := by
  induction t with
  | named package name =>
    intro room h
    obtain ⟨inner, rfl, hbody⟩ := Json.readable_singleton.mp h
    obtain ⟨inner, rfl, -⟩ := Json.readable_object.mp hbody
    simp [TypeExpr.toJson, Json.object_singleton, TypeExpr.ofJson?]
  | pointer target ih =>
    intro room h
    obtain ⟨inner, rfl, htarget⟩ := Json.readable_singleton.mp h
    simp [TypeExpr.toJson, Json.object_singleton, TypeExpr.ofJson?, ih inner htarget]
  | other text =>
    intro room h
    obtain ⟨inner, rfl, -⟩ := Json.readable_singleton.mp h
    rfl

theorem TypeExpr.toJson_ne_null (t : TypeExpr) : t.toJson ≠ .null := by
  cases t <;> simp [TypeExpr.toJson, Json.object]

theorem Operand.inverts (o : Operand) : Inverts Operand.ofJson? Operand.toJson o := by
  intro room h
  cases o with
  | const => rfl
  | field ref =>
    obtain ⟨inner, rfl, href⟩ := Json.readable_singleton.mp h
    simp [Operand.toJson, Json.object_singleton, Operand.ofJson?, ref.inverts inner href]
  | global n | function n | value n =>
    obtain ⟨inner, rfl, hn⟩ := Json.readable_singleton.mp h
    have hword := Json.toWord?_ofNat (Json.readable_ofNat.mp hn)
    simp [Operand.toJson, Json.object_singleton, Operand.ofJson?, hword]

theorem Callee.inverts (c : Callee) : Inverts Callee.ofJson? Callee.toJson c := by
  intro room h
  cases c with
  | dynamic => rfl
  | external name =>
    obtain ⟨inner, rfl, -⟩ := Json.readable_singleton.mp h
    rfl
  | function node =>
    obtain ⟨inner, rfl, hnode⟩ := Json.readable_singleton.mp h
    have hword := Json.toWord?_ofNat (Json.readable_ofNat.mp hnode)
    simp [Callee.toJson, Json.object_singleton, Callee.ofJson?, hword]

theorem Operand.list_inverts (os : List Operand) :
    Inverts (fun room => Json.list? room Operand.ofJson?) (Json.ofList Operand.toJson) os :=
  .list fun o _ => o.inverts

/-! ## Instructions -/

theorem Action.nodup_fields (a : Action) : (a.fields.map Prod.fst).Nodup := by
  cases a <;> simp [Action.fields, CallSite.fields]

theorem Action.knownMembers?_fields (a : Action) (names : List String) :
    Json.knownMembers? names (Json.textMembers a.fields) =
      some (a.fields.filter fun m => names.contains m.1) :=
  Json.knownMembers?_textMembers ((List.filter_sublist.map Prod.fst).nodup a.nodup_fields)

theorem CallSite.ofMembers?_fields {call : CallSite} {room : Nat}
    (h : ∀ m ∈ call.fields, Readable room m.2) (tag : Json) :
    CallSite.ofMembers? room (Json.textMembers (("op", tag) :: call.fields)) = some call := by
  simp only [CallSite.fields, List.forall_mem_cons] at h
  obtain ⟨hcallee, -, hargs, -⟩ := h
  rw [CallSite.ofMembers?, Json.knownMembers?_textMembers (by simp [CallSite.fields])]
  simp [CallSite.fields, call.callee.inverts room hcallee,
    Operand.list_inverts call.args room hargs, Json.toBool?]

theorem Action.ofMembers?_fields (a : Action) {room : Nat}
    (h : ∀ m ∈ a.fields, Readable room m.2) :
    Action.ofMembers? room (Json.textMembers a.fields) = some a := by
  -- whatever names are asked for, the members are there in writing order
  simp only [Action.ofMembers?, a.knownMembers?_fields]
  cases a with
  | fieldAddr base field =>
    simp only [Action.fields, List.forall_mem_cons] at h
    obtain ⟨-, hbase, hfield, -⟩ := h
    simp [Action.fields, tag?, Json.ofText, base.inverts room hbase, field.inverts room hfield]
  | call site | defer site | spawn site =>
    have hsite := CallSite.ofMembers?_fields (List.forall_mem_cons.mp h).2
    simp [Action.fields, tag?, Json.ofText, hsite]
  | ret operands | other operands =>
    simp only [Action.fields, List.forall_mem_cons] at h
    obtain ⟨-, hoperands, -⟩ := h
    simp [Action.fields, tag?, Json.ofText, Operand.list_inverts operands room hoperands]
  | view source =>
    simp only [Action.fields, List.forall_mem_cons] at h
    obtain ⟨-, hsource, -⟩ := h
    simp [Action.fields, tag?, Json.ofText, source.inverts room hsource]

/-- The names of an instruction's own fields are not those of an action's. -/
theorem Action.contains_eq_false {a : Action} {m : String × Json} (hm : m ∈ a.fields) :
    ["pos", "def"].contains m.1 = false := by
  have hkeys : ∀ key ∈ a.fields.map Prod.fst, ["pos", "def"].contains key = false := by
    cases a <;> simp [Action.fields, CallSite.fields]
  exact hkeys m.1 (List.mem_map_of_mem hm)

/-- The position and the defined value of an instruction. -/
def Instruction.ownFields (i : Instruction) : List (String × Json) :=
  ("pos", i.pos.toJson) :: (i.result.map fun v => ("def", Json.ofNat v)).toList

theorem Instruction.contains_ownFields (i : Instruction) :
    ∀ m ∈ i.ownFields, ["pos", "def"].contains m.1 = true := by
  cases hresult : i.result <;> simp [ownFields, hresult]

theorem Instruction.nodup_ownFields (i : Instruction) : (i.ownFields.map Prod.fst).Nodup := by
  cases hresult : i.result <;> simp [ownFields, hresult]

theorem Instruction.optional?_result (i : Instruction) {room : Nat}
    (h : ∀ m ∈ i.ownFields, Readable room m.2) :
    Json.Fields.optional? i.ownFields "def" Json.toWord? = some i.result := by
  cases hresult : i.result with
  | none => simp [ownFields, hresult]
  | some v =>
    have hv : Readable room (Json.ofNat v) := h ("def", Json.ofNat v) (by simp [ownFields, hresult])
    have hword := Json.toWord?_ofNat (Json.readable_ofNat.mp hv)
    simp [ownFields, hresult, Json.Fields.optional?_cons_self, Json.ofNat_ne_null, hword]

theorem Instruction.inverts (i : Instruction) :
    Inverts Instruction.ofJson? Instruction.toJson i := by
  intro room h
  obtain ⟨inner, rfl, hparts⟩ := Json.readable_object.mp h
  obtain ⟨hown, haction⟩ := List.forall_mem_append.mp
    (show ∀ m ∈ i.ownFields ++ i.action.fields, Readable inner m.2 from hparts)
  -- what is not the instruction's own is held, and this is what the action wrote
  have hfields : Json.knownMembers? ["pos", "def"]
      (Json.textMembers (i.ownFields ++ i.action.fields)) = some i.ownFields :=
    Json.knownMembers?_append i.contains_ownFields (fun _ => Action.contains_eq_false)
      i.nodup_ownFields
  have hheld : Json.otherMembers ["pos", "def"]
      (Json.textMembers (i.ownFields ++ i.action.fields)) = Json.textMembers i.action.fields :=
    Json.otherMembers_append i.contains_ownFields fun _ => Action.contains_eq_false
  have hfit : Json.membersFit inner (Json.textMembers i.action.fields) = true :=
    Json.membersFit_of_readable haction
  have hpos : Json.Fields.required? i.ownFields "pos" (Position.ofJson? inner) = some i.pos := by
    simp [ownFields, i.pos.inverts inner (hown _ List.mem_cons_self)]
  show Instruction.ofJson? (inner + 1) (.obj (Json.textMembers (i.ownFields ++ i.action.fields))) =
    some i
  simp [Instruction.ofJson?, hfields, hheld, hfit, hpos, i.optional?_result hown,
    i.action.ofMembers?_fields haction, guard]

/-! ## Declarations -/

theorem FieldLine.inverts (l : FieldLine) : Inverts FieldLine.ofJson? FieldLine.toJson l := by
  intro room h
  obtain ⟨inner, rfl, hparts⟩ := Json.readable_object.mp h
  simp only [List.forall_mem_cons, Json.readable_ofNat] at hparts
  obtain ⟨hnames, hty, hpos, hindex, -⟩ := hparts
  simp [FieldLine.ofJson?, FieldLine.toJson, Json.texts?_ofList hnames,
    l.ty.inverts inner hty, l.pos.inverts inner hpos, Json.toWord?_ofNat hindex]

/-- The fields of a variable's declaration, which stand beside its tag. -/
def VarDecl.members (d : VarDecl) : List (String × Json) :=
  [("name", Json.ofText d.name), ("global", Json.ofNat d.global),
   ("ty", .ofOption TypeExpr.toJson d.ty), ("pos", d.pos.toJson)]

/-- The fields of a struct's declaration, which stand beside its tag. -/
def StructDecl.members (d : StructDecl) : List (String × Json) :=
  [("name", Json.ofText d.name), ("id", Json.ofNat d.id),
   ("fields", .ofList FieldLine.toJson d.fields)]

theorem VarDecl.ofFields?_members (d : VarDecl) {room : Nat}
    (h : ∀ m ∈ d.members, Readable room m.2) : VarDecl.ofFields? room d.members = some d := by
  simp only [members, List.forall_mem_cons, Json.readable_ofNat] at h
  obtain ⟨-, hglobal, hty, hpos, -⟩ := h
  have hty : ∀ t ∈ d.ty, TypeExpr.ofJson? room t.toJson = some t := by
    intro t ht
    rw [ht] at hty
    exact t.inverts room hty
  simp [VarDecl.ofFields?, members, Json.toWord?_ofNat hglobal,
    Json.Fields.optional?_ofOption _ _ _ TypeExpr.toJson_ne_null hty, d.pos.inverts room hpos]

theorem StructDecl.ofFields?_members (d : StructDecl) {room : Nat}
    (h : ∀ m ∈ d.members, Readable room m.2) : StructDecl.ofFields? room d.members = some d := by
  simp only [members, List.forall_mem_cons, Json.readable_ofNat] at h
  obtain ⟨-, hid, hfields, -⟩ := h
  have hfields := Inverts.list (fun l _ => FieldLine.inverts l) room hfields
  simp [StructDecl.ofFields?, members, Json.toWord?_ofNat hid, hfields]

/-- A declaration opens as its tag and the members beside it. -/
theorem Declaration.ofJson?_tagged {room : Nat} {members : List (String × Json)} (tag : String)
    (hkeys : ∀ m ∈ members, ["decl"].contains m.1 = false)
    (h : ∀ m ∈ members, Readable room m.2) :
    Declaration.ofJson? (room + 1) (Json.object (("decl", Json.ofText tag) :: members)) =
      Declaration.ofTagged? room tag (Json.object members) := by
  have htag : ∀ m ∈ [("decl", Json.ofText tag)], ["decl"].contains m.1 = true := by simp
  have htagged : Json.knownMembers? ["decl"]
      (Json.textMembers (("decl", Json.ofText tag) :: members)) = some [("decl", Json.ofText tag)] :=
    Json.knownMembers?_append htag hkeys (by simp)
  have hheld : Json.otherMembers ["decl"]
      (Json.textMembers (("decl", Json.ofText tag) :: members)) = Json.textMembers members :=
    Json.otherMembers_append htag hkeys
  have hfit : Json.membersFit room (Json.textMembers members) = true :=
    Json.membersFit_of_readable h
  simp [Declaration.ofJson?, Json.object_eq, htagged, hheld, hfit, guard]

theorem Declaration.inverts (d : Declaration) :
    Inverts Declaration.ofJson? Declaration.toJson d := by
  intro room h
  cases d with
  | var d =>
    obtain ⟨inner, rfl, hparts⟩ := Json.readable_object.mp h
    have hmembers : ∀ m ∈ d.members, Readable inner m.2 := (List.forall_mem_cons.mp hparts).2
    have hfields : Json.fields? ["name", "global", "ty", "pos"] (Json.object d.members) =
        some d.members := Json.fields?_object rfl (by simp)
    refine (Declaration.ofJson?_tagged "var" (by simp [VarDecl.members]) hmembers).trans ?_
    simp [Declaration.ofTagged?, hfields, d.ofFields?_members hmembers]
  | struct d =>
    obtain ⟨inner, rfl, hparts⟩ := Json.readable_object.mp h
    have hmembers : ∀ m ∈ d.members, Readable inner m.2 := (List.forall_mem_cons.mp hparts).2
    have hfields : Json.fields? ["name", "id", "fields"] (Json.object d.members) =
        some d.members := Json.fields?_object rfl (by simp)
    refine (Declaration.ofJson?_tagged "struct" (by simp [StructDecl.members]) hmembers).trans ?_
    simp [Declaration.ofTagged?, hfields, d.ofFields?_members hmembers]

theorem SourceFile.inverts (f : SourceFile) : Inverts SourceFile.ofJson? SourceFile.toJson f := by
  intro room h
  obtain ⟨inner, rfl, hparts⟩ := Json.readable_object.mp h
  simp only [List.forall_mem_cons, Json.readable_ofNat] at hparts
  obtain ⟨-, hpackage, hdecls, -⟩ := hparts
  have hdecls := Inverts.list (fun d _ => Declaration.inverts d) inner hdecls
  simp [SourceFile.ofJson?, SourceFile.toJson, Json.toWord?_ofNat hpackage, hdecls]

/-! ## Snapshots -/

theorem Package.inverts (p : Package) : Inverts Package.ofJson? Package.toJson p := by
  intro room h
  obtain ⟨inner, rfl, hparts⟩ := Json.readable_object.mp h
  simp only [List.forall_mem_cons] at hparts
  obtain ⟨-, herrors, -⟩ := hparts
  simp [Package.ofJson?, Package.toJson, Json.texts?_ofList herrors]

theorem Global.inverts (g : Global) : Inverts Global.ofJson? Global.toJson g := by
  intro room h
  obtain ⟨inner, rfl, hparts⟩ := Json.readable_object.mp h
  simp only [List.forall_mem_cons, Json.readable_ofNat] at hparts
  obtain ⟨-, hpackage, hpos, -⟩ := hparts
  simp [Global.ofJson?, Global.toJson, Json.toWord?_ofNat hpackage, g.pos.inverts inner hpos]

theorem FieldInfo.inverts (f : FieldInfo) : Inverts FieldInfo.ofJson? FieldInfo.toJson f := by
  intro room h
  obtain ⟨inner, rfl, hparts⟩ := Json.readable_object.mp h
  simp only [List.forall_mem_cons] at hparts
  obtain ⟨-, hpos, -⟩ := hparts
  simp [FieldInfo.ofJson?, FieldInfo.toJson, f.pos.inverts inner hpos]

theorem StructType.inverts (s : StructType) : Inverts StructType.ofJson? StructType.toJson s := by
  intro room h
  obtain ⟨inner, rfl, hparts⟩ := Json.readable_object.mp h
  simp only [List.forall_mem_cons, Json.readable_ofNat] at hparts
  obtain ⟨-, hpackage, hfields, -⟩ := hparts
  have hfields := Inverts.list (fun f _ => FieldInfo.inverts f) inner hfields
  simp [StructType.ofJson?, StructType.toJson, Json.toWord?_ofNat hpackage, hfields]

theorem Function.inverts (f : Function) : Inverts Function.ofJson? Function.toJson f := by
  intro room h
  obtain ⟨inner, rfl, hparts⟩ := Json.readable_object.mp h
  simp only [List.forall_mem_cons, Json.readable_ofNat] at hparts
  obtain ⟨-, hpackage, -, hbody, -⟩ := hparts
  have hbody := Inverts.list (fun i _ => Instruction.inverts i) inner hbody
  simp [Function.ofJson?, Function.toJson, Json.toBool?, Json.toWord?_ofNat hpackage, hbody]

theorem Edge.inverts (e : Edge) : Inverts Edge.ofJson? Edge.toJson e := by
  intro room h
  obtain ⟨inner, rfl, hparts⟩ := Json.readable_object.mp h
  simp only [List.forall_mem_cons, Json.readable_ofNat] at hparts
  obtain ⟨hcaller, hcallee, -⟩ := hparts
  simp [Edge.ofJson?, Edge.toJson, Json.toWord?_ofNat, hcaller, hcallee]

theorem Comment.inverts (c : Comment) : Inverts Comment.ofJson? Comment.toJson c := by
  intro room h
  obtain ⟨inner, rfl, hparts⟩ := Json.readable_object.mp h
  simp only [List.forall_mem_cons] at hparts
  obtain ⟨hpos, -⟩ := hparts
  simp [Comment.ofJson?, Comment.toJson, c.pos.inverts inner hpos]

theorem Snapshot.inverts (s : Snapshot) : Inverts Snapshot.ofJson? Snapshot.toJson s := by
  intro room h
  obtain ⟨inner, rfl, hparts⟩ := Json.readable_object.mp h
  simp only [List.forall_mem_cons] at hparts
  obtain ⟨-, hflags, hpackages, hfiles, hglobals, hstructs, hfunctions, hedges, hcomments, -⟩ :=
    hparts
  have hpackages := Inverts.list (fun p _ => Package.inverts p) inner hpackages
  have hfiles := Inverts.list (fun f _ => SourceFile.inverts f) inner hfiles
  have hglobals := Inverts.list (fun g _ => Global.inverts g) inner hglobals
  have hstructs := Inverts.list (fun s _ => StructType.inverts s) inner hstructs
  have hfunctions := Inverts.list (fun f _ => Function.inverts f) inner hfunctions
  have hedges := Inverts.list (fun e _ => Edge.inverts e) inner hedges
  have hcomments := Inverts.list (fun c _ => Comment.inverts c) inner hcomments
  simp [Snapshot.ofJson?, Snapshot.toJson, Json.Fields.table?,
    Json.texts?_ofList hflags, hpackages, hfiles, hglobals, hstructs, hfunctions, hedges,
    hcomments]

end LockDiscipline
