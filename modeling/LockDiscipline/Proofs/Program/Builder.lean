import LockDiscipline.Proofs.Program.Calls
import Mathlib.Data.List.Induction

/- Programs that are built call by call. A caller of the builder has no ids but
   those that earlier calls have handed out; `Licit` says that a sequence of
   calls keeps to this. Every call then finds what it is given, and adds entries
   that name only such things (`outcome_spec`), so that all ids of the result are
   in range and the paths of its packages are those of the calls
   (`Licit.built`). The lines of a struct end inside its fields as long as their
   indices have 32 bits (`linesEnd_run`), and then nothing but a path that is given
   twice can make the checks fail; with one field too many they do fail
   (`wideCalls_refused`). -/
namespace LockDiscipline

/-- What calls hand out: ids of five kinds, and references to fields. -/
inductive Handle where
  | package (id : Nat)
  | file (id : Nat)
  | global (id : Nat)
  | struct (id : Nat)
  | node (id : Nat)
  | field (ref : FieldRef)
deriving Repr, DecidableEq

/-- The snapshot has what the handle stands for. -/
def Snapshot.HasHandle (s : Snapshot) : Handle → Prop
  | .package id => id < s.packages.size
  | .file id => id < s.files.size
  | .global id => id < s.globals.size
  | .struct id => id < s.structs.size
  | .node id => id < s.functions.size
  | .field ref => s.hasField ref = true

/-! ## What a call is given -/

def Operand.handles : Operand → List Handle
  | .global id => [.global id]
  | .field ref => [.field ref]
  | .function node => [.node node]
  | .value _ | .const => []

def Callee.handles : Callee → List Handle
  | .function node => [.node node]
  | .external _ | .dynamic => []

/-- The handles that an action names beside its operands. -/
def Action.ownHandles : Action → List Handle
  | .fieldAddr _ field => [.field field]
  | .call site | .defer site | .spawn site => site.callee.handles
  | .ret _ | .view _ | .other _ => []

def Action.handles (a : Action) : List Handle :=
  a.operands.flatMap Operand.handles ++ a.ownHandles

def BodyPlace.handles (place : BodyPlace) : List Handle := [.node place.node, .file place.file]

namespace BuildStep

/-- All handles among the arguments of a call. -/
def given : BuildStep → List Handle
  | .package _ => []
  | .file pkg _ => [.package pkg]
  | .comment fileId _ _ => [.file fileId]
  | .global fileId _ _ _ => [.file fileId]
  | .struct fileId _ _ => [.file fileId]
  | .field owner _ => [.struct owner]
  | .function pkg _ _ => [.package pkg]
  | .instruction place _ action => place.handles ++ action.handles
  | .edge caller callee => [.node caller, .node callee]
  | .call place callee => place.handles ++ [.node callee]
  | .spawn place callee => place.handles ++ [.node callee]

/-- The handle that a call hands out with its answer. -/
def handle? : BuildStep → Except BuildError BuildAnswer → Option Handle
  | .package _, .ok (.id n) => some (.package n)
  | .file _ _, .ok (.id n) => some (.file n)
  | .global _ _ _ _, .ok (.id n) => some (.global n)
  | .struct _ _ _, .ok (.id n) => some (.struct n)
  | .function _ _ _, .ok (.id n) => some (.node n)
  | .field _ _, .ok (.field ref) => some (.field ref)
  | _, _ => none

/-- All that a sequence of calls has handed out. -/
def handedOut (steps : List BuildStep) : List Handle :=
  (steps.zip (run .empty steps).1).filterMap fun x => x.1.handle? x.2

/-- Each call is given only what calls before it have handed out. -/
def Licit (steps : List BuildStep) : Prop :=
  ∀ n (h : n < steps.length), ∀ x ∈ (steps[n]).given, x ∈ handedOut (steps.take n)

instance (steps : List BuildStep) : Decidable (Licit steps) :=
  inferInstanceAs (Decidable (∀ n (h : n < steps.length), ∀ x ∈ (steps[n]).given,
    x ∈ handedOut (steps.take n)))

/-- The path that a call gives to a new package. -/
def packagePath? : BuildStep → Option String
  | .package path => some path
  | _ => none

/-- The paths of all new packages, in the order of the calls. -/
def packagePaths (steps : List BuildStep) : List String := steps.filterMap packagePath?

end BuildStep

/-! ## Single additions -/

namespace Snapshot

variable {s : Snapshot}

theorem hasOperand_of_handles {op : Operand} (h : ∀ x ∈ op.handles, s.HasHandle x) :
    s.HasOperand op := by
  cases op with
  | value id => trivial
  | const => trivial
  | _ => exact h _ List.mem_cons_self

theorem hasAction_of_handles {a : Action} (h : ∀ x ∈ a.ownHandles, s.HasHandle x) :
    s.HasAction a := by
  have hsite : ∀ site : CallSite, (∀ x ∈ site.callee.handles, s.HasHandle x) →
      ∀ node ∈ site.target?, node < s.functions.size := by
    rintro ⟨callee, method, args⟩ hcallee node hnode
    cases callee with
    | function target =>
      cases hnode
      exact hcallee _ List.mem_cons_self
    | external name => cases hnode
    | dynamic => cases hnode
  cases a with
  | fieldAddr base field => exact h _ List.mem_cons_self
  | call site => exact hsite site h
  | defer site => exact hsite site h
  | spawn site => exact hsite site h
  | ret results => trivial
  | view source => trivial
  | other operands => trivial

theorem hasInstruction_of_handles {file line : Nat} {result : Option Nat} {a : Action}
    (hfile : file < s.files.size) (h : ∀ x ∈ a.handles, s.HasHandle x) :
    s.HasInstruction ⟨.ofLine file line, result, a⟩ := by
  rw [Action.handles, List.forall_mem_append] at h
  refine ⟨hfile, ?_, hasAction_of_handles h.2⟩
  intro op hop
  exact hasOperand_of_handles fun x hx => h.1 x (List.mem_flatMap.mpr ⟨op, hop, hx⟩)

theorem Grows.hasHandle {t : Snapshot} (h : s.Grows t) {x : Handle} (hx : s.HasHandle x) :
    t.HasHandle x := by
  cases x with
  | package id => exact Nat.lt_of_lt_of_le hx h.packages
  | file id => exact Nat.lt_of_lt_of_le hx h.files
  | global id => exact Nat.lt_of_lt_of_le hx h.globals
  | struct id => exact h.lt_structs_size hx
  | node id => exact Nat.lt_of_lt_of_le hx h.functions
  | field ref => exact h.hasField hx

end Snapshot

namespace Builder

open Snapshot

variable {s : Snapshot}

theorem inRange_addPackage (h : s.InRange) (path : String) : (addPackage s path).1.InRange :=
  within_self_iff.mp { h.within (grows_addPackage s path) with }

theorem inRange_addFile (h : s.InRange) {pkg : Nat} (hpkg : pkg < s.packages.size) (path : String) :
    (addFile s pkg path).1.InRange := by
  have hold := h.within (grows_addFile s pkg path)
  refine within_self_iff.mp { hold with files := ?_ }
  simp only [addFile, Array.toList_push, List.forall_mem_append, List.forall_mem_singleton]
  exact ⟨hold.files, hpkg, by simp⟩

theorem inRange_addComment (h : s.InRange) {file : Nat} (hfile : file < s.files.size) (line : Nat)
    (text : String) : (addComment s file line text).InRange := by
  have hold : s.Within (addComment s file line text) := h.within { Grows.refl s with }
  refine within_self_iff.mp { hold with comments := ?_ }
  simp only [addComment, List.forall_mem_append, List.forall_mem_singleton]
  exact ⟨hold.comments, hfile⟩

theorem inRange_declare (h : s.InRange) (file : Nat) {d : Declaration} (hd : s.HasDeclaration d) :
    (declare s file d).InRange := by
  have hgrows := grows_declare s file d
  have hold := h.within hgrows
  refine within_self_iff.mp { hold with files := forall_mem_modify hold.files ?_ }
  intro f hf
  refine ⟨(hold.files f hf).1, ?_⟩
  simp only [List.forall_mem_append, List.forall_mem_singleton]
  exact ⟨(hold.files f hf).2, hgrows.hasDeclaration hd⟩

theorem inRange_pushGlobal (h : s.InRange) {g : Global} (hpkg : g.package < s.packages.size)
    (hpos : s.HasPosition g.pos) : InRange { s with globals := s.globals.push g } := by
  have hold := h.within (grows_pushGlobal s g)
  refine within_self_iff.mp { hold with globals := ?_ }
  simp only [Array.toList_push, List.forall_mem_append, List.forall_mem_singleton]
  exact ⟨hold.globals, hpkg, hpos⟩

theorem inRange_pushStruct (h : s.InRange) {ty : StructType} (hpkg : ty.package < s.packages.size)
    (hpos : ∀ f ∈ ty.fields, s.HasPosition f.pos) :
    InRange { s with structs := s.structs.push ty } := by
  have hold := h.within (grows_pushStruct s ty)
  refine within_self_iff.mp { hold with structs := ?_ }
  simp only [Array.toList_push, List.forall_mem_append, List.forall_mem_singleton]
  exact ⟨hold.structs, hpkg, hpos⟩

theorem inRange_addFunction (h : s.InRange) {pkg : Nat} (hpkg : pkg < s.packages.size)
    (name : String) : (addFunction s pkg name).1.InRange := by
  have hold := h.within (grows_addFunction s pkg name)
  refine within_self_iff.mp { hold with functions := ?_ }
  simp only [addFunction, Array.toList_push, List.forall_mem_append, List.forall_mem_singleton]
  exact ⟨hold.functions, hpkg, by simp⟩

theorem inRange_addInit (h : s.InRange) {pkg : Nat} (hpkg : pkg < s.packages.size)
    (name : String) : (addInit s pkg name).1.InRange := by
  have hadded := inRange_addFunction h hpkg name
  have hold : (addFunction s pkg name).1.Within (addInit s pkg name).1 :=
    hadded.within { Grows.refl _ with functions := by simp [addInit] }
  exact within_self_iff.mp { hold with
    functions := forall_mem_modify hold.functions hold.functions }

theorem inRange_addEdge (h : s.InRange) {caller callee : Nat} (hcaller : caller < s.functions.size)
    (hcallee : callee < s.functions.size) : (addEdge s caller callee).InRange := by
  have hold : s.Within (addEdge s caller callee) := h.within { Grows.refl s with }
  refine within_self_iff.mp { hold with edges := ?_ }
  simp only [addEdge, List.forall_mem_append, List.forall_mem_singleton]
  exact ⟨hold.edges, hcaller, hcallee⟩

/-- An instruction whose handles are there goes at the end of a body that is
    there. -/
theorem addInstruction_spec (h : s.InRange) {node : Nat} (hnode : node < s.functions.size)
    {i : Instruction} (hi : s.HasInstruction i) :
    ∃ next, addInstruction s node i = .ok next ∧ next.InRange ∧
      next.functions.size = s.functions.size ∧ next.packages = s.packages := by
  refine ⟨_, if_pos hnode, h.editBody node (· ++ [i]) ?_, by simp, rfl⟩
  intro body j hj
  rcases List.mem_append.mp hj with hj | hj
  · exact .inl hj
  · rw [List.mem_singleton.mp hj]
    exact .inr hi

/-- A call or the start of a goroutine, with its edge. -/
theorem addCall_spec (h : s.InRange) {place : BodyPlace} {callee : Nat}
    (hgiven : ∀ x ∈ place.handles ++ [.node callee], s.HasHandle x) (a : Action)
    (ha : a.handles = [.node callee]) :
    ∃ next, addInstruction s place.node ⟨.ofLine place.file place.line, none, a⟩ = .ok next ∧
      (addEdge next place.node callee).InRange ∧
      (addEdge next place.node callee).packages = s.packages := by
  have hnode : place.node < s.functions.size :=
    hgiven (.node place.node) (by simp [BodyPlace.handles])
  have hfile : place.file < s.files.size := hgiven (.file place.file) (by simp [BodyPlace.handles])
  have hcallee : callee < s.functions.size := hgiven (.node callee) (by simp)
  have hi : s.HasInstruction ⟨.ofLine place.file place.line, none, a⟩ := by
    apply hasInstruction_of_handles hfile
    rw [ha]
    exact fun x hx => hgiven x (List.mem_append_right _ hx)
  obtain ⟨next, hnext, hrange, hfunctions, hpackages⟩ := addInstruction_spec h hnode hi
  exact ⟨next, hnext, inRange_addEdge hrange (hfunctions ▸ hnode) (hfunctions ▸ hcallee), hpackages⟩

/-! ## Declarations -/

theorem package_lt_of_file (h : s.InRange) {file : Nat} (hfile : file < s.files.size) :
    s.files[file].package < s.packages.size :=
  (h.files _ (by simp)).1

/-- A file gives its package to what is declared in it. -/
theorem addGlobal_spec (h : s.InRange) {file : Nat} (hfile : file < s.files.size) (name : String)
    (ty : Option TypeExpr) (line : Nat) :
    ∃ next, addGlobal s file name ty line = .ok (next, s.globals.size % idModulus) ∧
      next.InRange ∧ s.globals.size < next.globals.size ∧ next.packages = s.packages := by
  have hf := Array.getElem?_eq_getElem hfile
  have hpush : InRange { s with
      globals := s.globals.push ⟨name, s.files[file].package, .ofLine file line⟩ } :=
    inRange_pushGlobal h (package_lt_of_file h hfile) hfile
  refine ⟨_, by rw [addGlobal, hf], inRange_declare hpush file ?_, by simp [declare], rfl⟩
  exact ⟨Nat.lt_of_le_of_lt (Nat.mod_le _ _) (by simp), hfile⟩

theorem addStruct_spec (h : s.InRange) {file : Nat} (hfile : file < s.files.size) (name : String)
    (specs : List FieldSpec) :
    ∃ next, addStruct s file name specs = .ok (next, s.structs.size % idModulus) ∧
      next.InRange ∧ s.structs.size < next.structs.size ∧ next.packages = s.packages := by
  have hf := Array.getElem?_eq_getElem hfile
  have hpush : InRange { s with
      structs := s.structs.push ⟨name, s.files[file].package, specs.flatMap (specFields file)⟩ } := by
    refine inRange_pushStruct h (package_lt_of_file h hfile) ?_
    intro info hinfo
    obtain ⟨spec, -, hinfo⟩ := List.mem_flatMap.mp hinfo
    obtain ⟨field, -, rfl⟩ := List.mem_map.mp hinfo
    exact hfile
  refine ⟨_, by rw [addStruct, hf], inRange_declare hpush file ?_, by simp [declare], rfl⟩
  refine ⟨Nat.lt_of_le_of_lt (Nat.mod_le _ _) (by simp), ?_⟩
  intro l hl
  show l.pos.file < s.files.size
  rw [(fits_of_mem_specLines hl).1]
  exact hfile

/-- A struct that is there has the field, or no field of that name. -/
theorem fieldNamed_spec {owner : Nat} (howner : owner < s.structs.size) (name : String) :
    fieldNamed s owner name = .error (.noField name) ∨
      ∃ ref, fieldNamed s owner name = .ok ref ∧ s.hasField ref = true := by
  have hst := Array.getElem?_eq_getElem howner
  cases hplace : s.structs[owner].fields.findIdx? (·.name == name) with
  | none => exact .inl (by simp only [fieldNamed, hst, hplace])
  | some place =>
    refine .inr ⟨⟨owner, place % idModulus⟩, by simp only [fieldNamed, hst, hplace], ?_⟩
    rw [hasField_iff]
    have hlt := (List.findIdx?_eq_some_iff_findIdx_eq.mp hplace).1
    exact ⟨_, hst, Nat.lt_of_le_of_lt (Nat.mod_le _ _) hlt⟩

end Builder

/-! ## One call -/

namespace BuildStep

open Builder

variable {s next : Snapshot} {step : BuildStep}

/-- What a call comes to that is given only what is there. -/
structure Follows (s : Snapshot) (step : BuildStep)
    (result : Except BuildError BuildAnswer × Snapshot) : Prop where
  inRange : result.2.InRange
  packages : result.2.packages.toList =
    s.packages.toList ++ step.packagePath?.toList.map fun path => ⟨path, []⟩
  handed : ∀ x ∈ step.handle? result.1, result.2.HasHandle x
  refused : ∀ e, result.1 = .error e → ∃ owner name, step = .field owner name ∧ e = .noField name

/-- A call that adds no package and is not refused. -/
theorem Follows.of_ok {answer : BuildAnswer} (hrange : next.InRange)
    (hpackages : next.packages = s.packages) (hpath : step.packagePath? = none)
    (handed : ∀ x ∈ step.handle? (.ok answer), next.HasHandle x) :
    Follows s step (.ok answer, next) := by
  refine ⟨hrange, ?_, handed, ?_⟩
  · simp [hpackages, hpath]
  · intro e he
    cases he

/-- The id of a new entry is that of an entry, whether or not it has been cut. -/
theorem id_lt {size grown : Nat} (h : grown = size + 1) : size % idModulus < grown :=
  Nat.lt_of_le_of_lt (Nat.mod_le _ _) (h ▸ Nat.lt_succ_self size)

theorem outcome_spec (h : s.InRange) (hgiven : ∀ x ∈ step.given, s.HasHandle x) :
    Follows s step (outcome s step) := by
  cases step with
  | package path =>
    refine ⟨inRange_addPackage h path, Array.toList_push, ?_, ?_⟩
    · intro x hx
      cases hx
      exact id_lt (Array.size_push _)
    · intro e he
      cases he
  | file pkg path =>
    have hpkg := hgiven (.package pkg) (by simp [given])
    refine .of_ok (inRange_addFile h hpkg path) rfl rfl ?_
    intro x hx
    cases hx
    exact id_lt (Array.size_push _)
  | comment file line text =>
    have hfile := hgiven (.file file) (by simp [given])
    exact .of_ok (inRange_addComment h hfile line text) rfl rfl (by simp [handle?])
  | global file name ty line =>
    have hfile := hgiven (.file file) (by simp [given])
    obtain ⟨next, hnext, hrange, hid, hpackages⟩ := addGlobal_spec h hfile name ty line
    rw [outcome_of_ok (by rw [apply, hnext]; rfl)]
    refine .of_ok hrange hpackages rfl ?_
    intro x hx
    cases hx
    exact Nat.lt_of_le_of_lt (Nat.mod_le _ _) hid
  | struct file name specs =>
    have hfile := hgiven (.file file) (by simp [given])
    obtain ⟨next, hnext, hrange, hid, hpackages⟩ := addStruct_spec h hfile name specs
    rw [outcome_of_ok (by rw [apply, hnext]; rfl)]
    refine .of_ok hrange hpackages rfl ?_
    intro x hx
    cases hx
    exact Nat.lt_of_le_of_lt (Nat.mod_le _ _) hid
  | field owner name =>
    -- the struct is there, but whether it has such a field no earlier call has said
    have howner := hgiven (.struct owner) (by simp [given])
    rcases fieldNamed_spec howner name with hno | ⟨ref, href, hfield⟩
    · rw [outcome_of_error (by rw [apply, hno]; rfl)]
      refine ⟨h, by simp [packagePath?], by simp [handle?], ?_⟩
      intro e he
      cases he
      exact ⟨owner, name, rfl, rfl⟩
    · rw [outcome_of_ok (by rw [apply, href]; rfl)]
      refine .of_ok h rfl rfl ?_
      intro x hx
      cases hx
      exact hfield
  | function pkg name isInit =>
    have hpkg := hgiven (.package pkg) (by simp [given])
    cases isInit with
    | false =>
      refine .of_ok (inRange_addFunction h hpkg name) rfl rfl ?_
      intro x hx
      cases hx
      exact id_lt (Array.size_push _)
    | true =>
      refine .of_ok (inRange_addInit h hpkg name) rfl rfl ?_
      intro x hx
      cases hx
      exact id_lt (Array.size_modify.trans (Array.size_push _))
  | instruction place result action =>
    have hnode := hgiven (.node place.node) (by simp [given, BodyPlace.handles])
    have hfile := hgiven (.file place.file) (by simp [given, BodyPlace.handles])
    have hi : s.HasInstruction ⟨.ofLine place.file place.line, result, action⟩ :=
      Snapshot.hasInstruction_of_handles hfile fun x hx => hgiven x (List.mem_append_right _ hx)
    obtain ⟨next, hnext, hrange, -, hpackages⟩ := addInstruction_spec h hnode hi
    rw [outcome_of_ok (by rw [apply, hnext]; rfl)]
    exact .of_ok hrange hpackages rfl (by simp [handle?])
  | edge caller callee =>
    have hcaller := hgiven (.node caller) (by simp [given])
    have hcallee := hgiven (.node callee) (by simp [given])
    exact .of_ok (inRange_addEdge h hcaller hcallee) rfl rfl (by simp [handle?])
  | call place callee =>
    obtain ⟨next, hnext, hrange, hpackages⟩ :=
      addCall_spec h hgiven (.call (plainCall callee)) rfl
    rw [outcome_of_ok (by rw [apply, hnext]; rfl)]
    exact .of_ok hrange hpackages rfl (by simp [handle?])
  | spawn place callee =>
    obtain ⟨next, hnext, hrange, hpackages⟩ :=
      addCall_spec h hgiven (.spawn (plainCall callee)) rfl
    rw [outcome_of_ok (by rw [apply, hnext]; rfl)]
    exact .of_ok hrange hpackages rfl (by simp [handle?])

/-! ## All calls -/

theorem zip_run_concat (s : Snapshot) (steps : List BuildStep) (step : BuildStep) :
    (steps ++ [step]).zip (run s (steps ++ [step])).1 =
      steps.zip (run s steps).1 ++ [(step, (outcome (run s steps).2 step).1)] := by
  rw [run_concat, List.zip_append (length_run s steps).symm]
  rfl

theorem mem_handedOut_concat {steps : List BuildStep} {step : BuildStep} {x : Handle} :
    x ∈ handedOut (steps ++ [step]) ↔
      x ∈ handedOut steps ∨ x ∈ step.handle? (outcome (run .empty steps).2 step).1 := by
  rw [handedOut, zip_run_concat, List.filterMap_append, List.mem_append]
  simp [handedOut]

theorem Licit.of_concat {steps : List BuildStep} {step : BuildStep} (h : Licit (steps ++ [step])) :
    Licit steps ∧ ∀ x ∈ step.given, x ∈ handedOut steps := by
  constructor
  · intro n hn x hx
    have hlt : n < (steps ++ [step]).length := by
      rw [List.length_append]
      omega
    have := h n hlt x (by rwa [List.getElem_append_left hn])
    rwa [List.take_append_of_le_length (Nat.le_of_lt hn)] at this
  · intro x hx
    have := h steps.length (by simp) x (by simpa using hx)
    rwa [List.take_left] at this

/-- What a sequence of calls has built. -/
structure Built (steps : List BuildStep) : Prop where
  inRange : (run .empty steps).2.InRange
  packages : (run .empty steps).2.packages.toList =
    (packagePaths steps).map fun path => ⟨path, []⟩
  handed : ∀ x ∈ handedOut steps, (run .empty steps).2.HasHandle x
  refused : ∀ x ∈ steps.zip (run .empty steps).1, ∀ e, x.2 = .error e →
    ∃ owner name, x.1 = .field owner name ∧ e = .noField name

theorem Built.nil : Built [] := by
  refine ⟨?_, rfl, ?_, ?_⟩
  · constructor <;> simp [run, Snapshot.empty]
  · intro x hx
    cases hx
  · intro x hx
    cases hx

theorem Built.concat {steps : List BuildStep} {step : BuildStep} (h : Built steps)
    (hgiven : ∀ x ∈ step.given, x ∈ handedOut steps) : Built (steps ++ [step]) := by
  have hstep := outcome_spec h.inRange fun x hx => h.handed x (hgiven x hx)
  have hlast : (run .empty (steps ++ [step])).2 = (outcome (run .empty steps).2 step).2 := by
    rw [run_concat]
  refine ⟨?_, ?_, ?_, ?_⟩
  · rw [hlast]
    exact hstep.inRange
  · rw [hlast, hstep.packages, h.packages, packagePaths, packagePaths, List.filterMap_append,
      List.map_append]
    cases hpath : step.packagePath? with
    | none => simp [hpath]
    | some path => simp [hpath]
  · intro x hx
    rw [hlast]
    rcases mem_handedOut_concat.mp hx with hx | hx
    -- no table loses an entry, so what was handed out before is still there
    · exact (adds_outcome _ step).grows.hasHandle (h.handed x hx)
    · exact hstep.handed x hx
  · intro x hx
    rw [zip_run_concat] at hx
    rcases List.mem_append.mp hx with hx | hx
    · exact h.refused x hx
    · rw [List.mem_singleton.mp hx]
      exact hstep.refused

/-- A licit sequence of calls builds what it should. -/
theorem Licit.built {steps : List BuildStep} (h : Licit steps) : Built steps := by
  -- from the right, since what a call may be given depends on all calls before it
  induction steps using List.reverseRecOn with
  | nil => exact .nil
  | append_singleton steps step ih =>
    obtain ⟨hsteps, hgiven⟩ := h.of_concat
    exact (ih hsteps).concat hgiven

/-- Packages are added without errors. -/
theorem Built.healthy {steps : List BuildStep} (h : Built steps) :
    ∀ pkg ∈ (run .empty steps).2.packages.toList, pkg.errors = [] := by
  intro pkg hpkg
  rw [h.packages] at hpkg
  obtain ⟨path, -, rfl⟩ := List.mem_map.mp hpkg
  rfl

/-- So only an inconsistency can be a fault. -/
theorem Built.fault?_eq {steps : List BuildStep} (h : Built steps) :
    (run .empty steps).2.fault? = (run .empty steps).2.inconsistency?.map .inconsistent := by
  rw [Snapshot.fault?, Snapshot.brokenPackage?_eq_none_iff.mpr h.healthy]

theorem Built.map_path {steps : List BuildStep} (h : Built steps) :
    (run .empty steps).2.packages.toList.map Package.path = packagePaths steps := by
  rw [h.packages, List.map_map]
  exact List.map_id _

/-- All lines that are built within the bound end inside the fields of their types. -/
theorem linesEnd_built {steps : List BuildStep} (hfit : (run .empty steps).2.TablesFit) :
    (run .empty steps).2.LinesEnd :=
  linesEnd_run (s := .empty) (fun _ hf => nomatch hf) steps hfit

theorem Built.sound_iff {steps : List BuildStep} (h : Built steps)
    (hfit : (run .empty steps).2.TablesFit) :
    (run .empty steps).2.Sound ↔ (packagePaths steps).Nodup := by
  rw [← h.map_path]
  constructor
  · intro hsound
    exact hsound.paths
  · intro hpaths
    exact ⟨⟨h.healthy, hpaths, h.inRange⟩, linesEnd_built hfit⟩

/-- Of calls that are given only what calls before them have handed out, none is
    refused, but for the request for a field with a name that the struct does not
    have. As long as no table reaches 2^32 entries, they build a program that is
    accepted exactly when no two of them add a package with the same path. Otherwise
    the first path that comes again is complained about. -/
theorem licit_calls_accepted_iff {steps : List BuildStep} (h : Licit steps) :
    (∀ call answer, (call, answer) ∈ steps.zip (run .empty steps).1 →
      ∀ e, answer = .error e → ∃ owner name, call = .field owner name ∧ e = .noField name) ∧
    ((run .empty steps).2.TablesFit →
      ((∃ p, Program.ofSnapshot (run .empty steps).2 = .ok p) ↔ (packagePaths steps).Nodup) ∧
      ∀ e, Program.ofSnapshot (run .empty steps).2 = .error e →
        ∃ path cause, Snapshot.IsFirstRepeat (packagePaths steps) path ∧ e = .inconsistent cause ∧
          cause.message = "package " ++ path ++ " listed twice") := by
  have hbuilt := h.built
  refine ⟨fun call answer hcall => hbuilt.refused _ hcall, fun hfit => ⟨?_, ?_⟩⟩
  · rw [Program.exists_ofSnapshot_eq_ok_iff, Snapshot.fault?_eq_none_iff, hbuilt.sound_iff hfit]
  · intro e he
    rw [Program.ofSnapshot_eq_error_iff, hbuilt.fault?_eq, Option.map_eq_some_iff] at he
    obtain ⟨cause, hcause, rfl⟩ := he
    obtain ⟨path, hfirst, rfl⟩ :=
      Snapshot.inconsistency?_eq_some hbuilt.inRange (linesEnd_built hfit) hcause
    rw [hbuilt.map_path] at hfirst
    exact ⟨path, _, hfirst, rfl, rfl⟩

/-- A cache with its lock, a function that locks it, and one that calls the
    first and starts it as a goroutine. The struct has no field `lost`. -/
def cacheCalls : List BuildStep :=
  [.package "example.com/app", .file 0 "app/cache.go",
   .struct 0 "Cache"
    [⟨["mu"], .named (some "sync") "Mutex", 2⟩, ⟨["items", "size"], .named none "int", 3⟩,
     ⟨[], .named none "Base", 4⟩],
   .comment 0 2 "// items", .global 0 "hits" none 6,
   .field 0 "mu", .field 0 "size", .field 0 "Base", .field 0 "lost",
   .function 0 "app.use" false, .function 0 "app.init" true,
   method ⟨0, 0, 9⟩ "Lock" (.field ⟨0, 0⟩),
   .instruction ⟨0, 0, 10⟩ (some 1) (.fieldAddr (.global 0) ⟨0, 2⟩),
   ret ⟨0, 0, 11⟩ [.value 1, .field ⟨0, 3⟩],
   .call ⟨1, 0, 14⟩ 0, .spawn ⟨1, 0, 15⟩ 0]

/-- The calls build a program; followed by a second package with the path of the
    first they do not. -/
theorem cacheCalls_accepted :
    (Licit cacheCalls ∧ (run .empty cacheCalls).2.TablesFit ∧
      ∃ p, Program.ofSnapshot (run .empty cacheCalls).2 = .ok p) ∧
    Licit (cacheCalls ++ [.package "example.com/app"]) ∧
      ¬ ∃ p, Program.ofSnapshot (run .empty (cacheCalls ++ [.package "example.com/app"])).2 = .ok p := by
  have hcalls : Licit cacheCalls := by decide
  have hfit : (run .empty cacheCalls).2.TablesFit :=
    ⟨by decide, by decide, by decide, by decide, by decide, by decide⟩
  have hagain : Licit (cacheCalls ++ [.package "example.com/app"]) := by decide
  have hfitAgain : (run .empty (cacheCalls ++ [.package "example.com/app"])).2.TablesFit :=
    ⟨by decide, by decide, by decide, by decide, by decide, by decide⟩
  refine ⟨⟨hcalls, hfit, ((licit_calls_accepted_iff hcalls).2 hfit).1.mpr (by decide)⟩, hagain, ?_⟩
  intro hok
  have hnodup := ((licit_calls_accepted_iff hagain).2 hfitAgain).1.mp hok
  exact absurd hnodup (by decide)

/-! ## One field too many -/

/-- A struct with a line of `n` names and a line of two more. -/
def wideCalls (n : Nat) : List BuildStep :=
  [.package "app", .file 0 "app/wide.go",
   .struct 0 "Wide"
    [⟨List.replicate n "a", .named none "int", 2⟩, ⟨["b", "c"], .named none "int", 3⟩]]

theorem licit_wideCalls (n : Nat) : Licit (wideCalls n) := by
  intro k hk x hx
  rcases k with _ | _ | _ | k
  · cases hx
  · rw [List.mem_singleton.mp hx]
    exact List.mem_cons_self
  · rw [List.mem_singleton.mp hx]
    exact List.mem_cons_of_mem _ List.mem_cons_self
  · exact absurd hk (by simp [wideCalls])

/-- The second line has no end if the index behind its fields is too large. -/
theorem not_linesEnd_wideCalls {n : Nat} (hn : 0 < n) (hlt : n < idModulus)
    (hwide : idModulus ≤ n + 2) : ¬ (run .empty (wideCalls n)).2.LinesEnd := by
  intro hlines
  have hfiles : (run .empty (wideCalls n)).2.files.toList =
      [⟨"app/wide.go", 0, [.struct ⟨"Wide", 0, Builder.specLines 0 0
        [⟨List.replicate n "a", .named none "int", 2⟩, ⟨["b", "c"], .named none "int", 3⟩]⟩]⟩] := rfl
  have hlines := hlines _ (hfiles ▸ List.mem_cons_self) _ List.mem_cons_self
  have hfirst : (Builder.specFields 0 ⟨List.replicate n "a", .named none "int", 2⟩).length = n := by
    rw [Builder.length_specFields, List.length_replicate, Nat.max_eq_left hn]
  rw [Builder.specLines, Builder.specLines, Builder.specLines, hfirst, Nat.zero_add] at hlines
  obtain ⟨stop, hstop, -⟩ := hlines _ (List.mem_cons_of_mem _ List.mem_cons_self)
  have hnames : ["b", "c"].length < idModulus := by decide
  have hsum : n % idModulus + 2 < idModulus := ((Snapshot.stop?_eq_some_iff hnames).mp hstop).1
  rw [Nat.mod_eq_of_lt hlt] at hsum
  exact Nat.not_lt_of_le hwide hsum

/-- With 2^32 fields and one more nothing is wrong with the calls, and their paths
    differ, but what they build is not accepted. -/
theorem wideCalls_refused :
    Licit (wideCalls (idModulus - 1)) ∧ (packagePaths (wideCalls (idModulus - 1))).Nodup ∧
      ¬ ∃ p, Program.ofSnapshot (run .empty (wideCalls (idModulus - 1))).2 = .ok p := by
  have hpaths (n : Nat) : packagePaths (wideCalls n) = ["app"] := rfl
  refine ⟨licit_wideCalls _, ?_, ?_⟩
  · rw [hpaths]
    decide
  · rw [Program.exists_ofSnapshot_eq_ok_iff, Snapshot.fault?_eq_none_iff]
    intro hsound
    exact not_linesEnd_wideCalls (by decide) (by decide) (by decide) hsound.lines

end BuildStep
end LockDiscipline
