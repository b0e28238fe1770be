import LockDiscipline.Program.Builder
import LockDiscipline.Proofs.Program.Growth

/- What the calls of the builder do to a snapshot, whatever they are given. No call
   takes entries away or changes a struct type, and a call declares no struct but
   the one whose type it adds (`adds_outcome`). The lines of that declaration are
   laid over the fields that they make, so they end inside of them as long as their
   indices have 32 bits. A bound on the tables at the end has held all along, and
   so all lines end inside after a run of calls (`linesEnd_run`). -/
namespace LockDiscipline

namespace Builder

open Snapshot

/-! ## Tables that grow -/

theorem grows_addPackage (s : Snapshot) (path : String) : s.Grows (addPackage s path).1 :=
  { Grows.refl s with packages := by simp [addPackage] }

theorem grows_addFile (s : Snapshot) (pkg : Nat) (path : String) : s.Grows (addFile s pkg path).1 :=
  { Grows.refl s with files := by simp [addFile] }

theorem grows_declare (s : Snapshot) (file : Nat) (d : Declaration) : s.Grows (declare s file d) :=
  { Grows.refl s with files := by simp [declare] }

theorem grows_pushGlobal (s : Snapshot) (g : Global) :
    s.Grows { s with globals := s.globals.push g } :=
  { Grows.refl s with globals := by simp }

theorem grows_pushStruct (s : Snapshot) (ty : StructType) :
    s.Grows { s with structs := s.structs.push ty } := by
  refine { Grows.refl s with structs := ?_ }
  intro id ty' hid
  have hlt := (Array.getElem?_eq_some_iff.mp hid).1
  rw [Array.getElem?_push_lt hlt, ← hid, Array.getElem?_eq_getElem hlt]

theorem grows_addFunction (s : Snapshot) (pkg : Nat) (name : String) :
    s.Grows (addFunction s pkg name).1 :=
  { Grows.refl s with functions := by simp [addFunction] }

theorem grows_addInit (s : Snapshot) (pkg : Nat) (name : String) : s.Grows (addInit s pkg name).1 :=
  (grows_addFunction s pkg name).trans { Grows.refl _ with functions := by simp [addInit] }

/-! ## Lines over the fields that they make -/

theorem length_specFields (file : Nat) (spec : FieldSpec) :
    (specFields file spec).length = max spec.names.length 1 := by
  unfold specFields specNames
  cases spec.names with
  | nil => rfl
  | cons name names => simp

/-- The fields of a line lie among those that all lines declare. -/
theorem fits_of_mem_specLines {file first : Nat} {specs : List FieldSpec} {l : FieldLine}
    (h : l ∈ specLines file first specs) :
    l.pos.file = file ∧ l.firstIndex + l.size ≤ first + (specs.flatMap (specFields file)).length := by
  induction specs generalizing first with
  | nil => cases h
  | cons spec specs ih =>
    rw [List.flatMap_cons, List.length_append]
    rcases List.mem_cons.mp h with rfl | h
    · refine ⟨rfl, ?_⟩
      -- an index that is cut only gets smaller
      show first % idModulus + max spec.names.length 1 ≤ _
      have := Nat.mod_le first idModulus
      rw [length_specFields]
      omega
    · obtain ⟨hfile, hfits⟩ := ih h
      exact ⟨hfile, by omega⟩

end Builder

namespace Snapshot

variable {s t : Snapshot} {d : StructDecl}

theorem TablesFit.of_grows (h : t.TablesFit) (hg : s.Grows t) : s.TablesFit where
  packages := Nat.lt_of_le_of_lt hg.packages h.packages
  files := Nat.lt_of_le_of_lt hg.files h.files
  globals := Nat.lt_of_le_of_lt hg.globals h.globals
  structs := by
    refine Nat.lt_of_le_of_lt (Nat.le_of_not_lt fun hlt => ?_) h.structs
    exact Nat.lt_irrefl _ (hg.lt_structs_size hlt)
  functions := Nat.lt_of_le_of_lt hg.functions h.functions
  fields ty hty := by
    obtain ⟨id, hid⟩ := List.mem_iff_getElem?.mp hty
    rw [Array.getElem?_toList] at hid
    exact h.fields ty (Array.mem_toList_iff.mpr (Array.mem_of_getElem? (hg.structs id ty hid)))

/-- `d` declares the struct type that `t` has beside those of `s`, line by line. -/
def DeclaresNew (s t : Snapshot) (d : StructDecl) : Prop :=
  ∃ ty file specs, t.structs = s.structs.push ty ∧
    ty.fields = specs.flatMap (Builder.specFields file) ∧
    d = ⟨ty.name, s.structs.size % idModulus, Builder.specLines file 0 specs⟩

/-- Within the bound the lines of a new struct type end inside its fields. -/
theorem DeclaresNew.endsInside (h : s.DeclaresNew t d) (hfit : t.TablesFit) :
    ∀ l ∈ d.fields, t.EndsInside d l := by
  obtain ⟨ty, file, specs, hstructs, hfields, rfl⟩ := h
  intro l hl
  -- ids have not come round, so it is the new type that `d` names
  have hid : s.structs.size % idModulus = s.structs.size := by
    have := hfit.structs
    rw [hstructs, Array.size_push] at this
    exact Nat.mod_eq_of_lt (by omega)
  have hcount : t.fieldCount (s.structs.size % idModulus) = ty.fields.length := by
    simp [fieldCount, hid, hstructs]
  have htotal : ty.fields.length < idModulus := hfit.fields ty (by simp [hstructs])
  obtain ⟨-, hle⟩ := Builder.fits_of_mem_specLines hl
  rw [← hfields, Nat.zero_add] at hle
  have hnames : l.names.length ≤ l.size := Nat.le_max_left _ _
  refine ⟨_, (stop?_eq_some_iff (by omega)).mpr ⟨by omega, rfl⟩, ?_⟩
  rw [hcount]
  exact hle

/-- What a call adds: entries, and no struct declaration but that of a new type. -/
structure Adds (s t : Snapshot) : Prop where
  grows : s.Grows t
  decls : ∀ f ∈ t.files.toList, ∀ d, .struct d ∈ f.decls →
    (∃ g ∈ s.files.toList, .struct d ∈ g.decls) ∨ s.DeclaresNew t d

theorem Adds.of_files_eq (hg : s.Grows t) (h : t.files = s.files) : s.Adds t :=
  ⟨hg, fun f hf _ hd => .inl ⟨f, h ▸ hf, hd⟩⟩

theorem Adds.linesEnd (h : s.Adds t) (hlines : s.LinesEnd) (hfit : t.TablesFit) : t.LinesEnd := by
  intro f hf d hd l hl
  rcases h.decls f hf d hd with ⟨g, hg, hd⟩ | hnew
  · exact h.grows.endsInside (hlines g hg d hd l hl)
  · exact hnew.endsInside hfit l hl

end Snapshot

/-! ## One call -/

namespace Builder

open Snapshot

variable {s t next : Snapshot}

/-- A declaration goes to the end of one file. -/
theorem struct_mem_declare {file : Nat} {decl : Declaration} {d : StructDecl} {f : SourceFile}
    (hf : f ∈ (declare s file decl).files.toList) (hd : .struct d ∈ f.decls) :
    (∃ g ∈ s.files.toList, .struct d ∈ g.decls) ∨ .struct d = decl := by
  refine forall_mem_modify (P := fun f => .struct d ∈ f.decls →
    (∃ g ∈ s.files.toList, .struct d ∈ g.decls) ∨ .struct d = decl) ?_ ?_ f hf hd
  · exact fun g hg hd => .inl ⟨g, hg, hd⟩
  · intro g hg hd
    rcases List.mem_append.mp hd with hd | hd
    · exact .inl ⟨g, hg, hd⟩
    · exact .inr (List.mem_singleton.mp hd)

theorem adds_addFile (s : Snapshot) (pkg : Nat) (path : String) : s.Adds (addFile s pkg path).1 := by
  refine ⟨grows_addFile s pkg path, ?_⟩
  intro f hf d hd
  simp only [addFile, Array.toList_push, List.mem_append, List.mem_singleton] at hf
  rcases hf with hf | rfl
  · exact .inl ⟨f, hf, hd⟩
  · cases hd

theorem adds_addGlobal {file : Nat} {name : String} {ty : Option TypeExpr} {line id : Nat}
    (h : addGlobal s file name ty line = .ok (next, id)) : s.Adds next := by
  unfold addGlobal at h
  cases hfile : s.files[file]? with
  | none =>
    rw [hfile] at h
    cases h
  | some f =>
    rw [hfile] at h
    cases h
    refine ⟨(grows_pushGlobal s _).trans (grows_declare _ file _), ?_⟩
    intro f hf d hd
    rcases struct_mem_declare hf hd with hold | hnew
    · exact .inl hold
    · cases hnew

theorem adds_addStruct {file : Nat} {name : String} {specs : List FieldSpec} {id : Nat}
    (h : addStruct s file name specs = .ok (next, id)) : s.Adds next := by
  unfold addStruct at h
  cases hfile : s.files[file]? with
  | none =>
    rw [hfile] at h
    cases h
  | some f =>
    rw [hfile] at h
    cases h
    refine ⟨(grows_pushStruct s _).trans (grows_declare _ file _), ?_⟩
    intro f hf d hd
    rcases struct_mem_declare hf hd with hold | hnew
    · exact .inl hold
    · exact .inr ⟨_, file, specs, rfl, rfl, Declaration.struct.inj hnew⟩

theorem adds_addInstruction {node : Nat} {i : Instruction}
    (h : addInstruction s node i = .ok next) : s.Adds next := by
  unfold addInstruction at h
  by_cases hnode : node < s.functions.size
  · rw [if_pos hnode] at h
    cases h
    exact .of_files_eq (s.grows_editBody node (· ++ [i])) rfl
  · rw [if_neg hnode] at h
    cases h

theorem adds_addEdge (h : s.Adds t) (caller callee : Nat) : s.Adds (addEdge t caller callee) :=
  ⟨h.grows.trans { Grows.refl t with }, h.decls⟩

end Builder

namespace BuildStep

open Builder

variable {s next : Snapshot} {step : BuildStep}

/-- The answer of a call, and the snapshot after it. -/
def outcome (s : Snapshot) (step : BuildStep) : Except BuildError BuildAnswer × Snapshot :=
  match apply s step with
  | .error e => (.error e, s)
  | .ok (next, answer) => (.ok answer, next)

theorem outcome_of_ok {answer : BuildAnswer} (h : apply s step = .ok (next, answer)) :
    outcome s step = (.ok answer, next) := by
  rw [outcome, h]

theorem outcome_of_error {e : BuildError} (h : apply s step = .error e) :
    outcome s step = (.error e, s) := by
  rw [outcome, h]

/-- A call that is refused changes nothing. -/
theorem adds_outcome_of_map {α : Type} {result : Except BuildError α}
    {answer : α → Snapshot × BuildAnswer} (happly : apply s step = result.map answer)
    (h : ∀ a, result = .ok a → s.Adds (answer a).1) : s.Adds (outcome s step).2 := by
  rw [outcome, happly]
  cases result with
  | error e => exact .of_files_eq (.refl s) rfl
  | ok a => exact h a rfl

theorem adds_outcome (s : Snapshot) (step : BuildStep) : s.Adds (outcome s step).2 := by
  cases step with
  | package path => exact .of_files_eq (grows_addPackage s path) rfl
  | file pkg path => exact adds_addFile s pkg path
  | comment fileId line text => exact .of_files_eq { Snapshot.Grows.refl s with } rfl
  | global fileId name ty line => exact adds_outcome_of_map rfl fun _ h => adds_addGlobal h
  | struct fileId name specs => exact adds_outcome_of_map rfl fun _ h => adds_addStruct h
  | field owner name => exact adds_outcome_of_map rfl fun _ _ => .of_files_eq (.refl s) rfl
  | function pkg name isInit =>
    cases isInit with
    | false => exact .of_files_eq (grows_addFunction s pkg name) rfl
    | true => exact .of_files_eq (grows_addInit s pkg name) rfl
  | instruction place result action =>
    exact adds_outcome_of_map rfl fun _ h => adds_addInstruction h
  | edge caller callee => exact .of_files_eq { Snapshot.Grows.refl s with } rfl
  | call place callee =>
    exact adds_outcome_of_map rfl fun _ h => adds_addEdge (adds_addInstruction h) place.node callee
  | spawn place callee =>
    exact adds_outcome_of_map rfl fun _ h => adds_addEdge (adds_addInstruction h) place.node callee

/-! ## A run of calls -/

theorem run_cons (s : Snapshot) (step : BuildStep) (steps : List BuildStep) :
    run s (step :: steps) =
      ((outcome s step).1 :: (run (outcome s step).2 steps).1, (run (outcome s step).2 steps).2) := by
  rw [run, outcome]
  cases apply s step with
  | error e => rfl
  | ok result => rfl

theorem run_concat (s : Snapshot) (steps : List BuildStep) (step : BuildStep) :
    run s (steps ++ [step]) =
      ((run s steps).1 ++ [(outcome (run s steps).2 step).1], (outcome (run s steps).2 step).2) := by
  induction steps generalizing s with
  | nil => rw [List.nil_append, run_cons]; rfl
  | cons first steps ih => rw [List.cons_append, run_cons, ih, run_cons, List.cons_append]

theorem length_run (s : Snapshot) (steps : List BuildStep) :
    (run s steps).1.length = steps.length := by
  induction steps generalizing s with
  | nil => rfl
  | cons step steps ih => rw [run_cons, List.length_cons, ih, List.length_cons]

theorem grows_run (s : Snapshot) (steps : List BuildStep) : s.Grows (run s steps).2 := by
  induction steps generalizing s with
  | nil => exact .refl s
  | cons step steps ih =>
    rw [run_cons]
    exact (adds_outcome s step).grows.trans (ih _)

/-- Within the bound all lines end inside, whatever the calls are given. -/
theorem linesEnd_run (hlines : s.LinesEnd) (steps : List BuildStep)
    (hfit : (run s steps).2.TablesFit) : (run s steps).2.LinesEnd := by
  induction steps generalizing s with
  | nil => exact hlines
  | cons step steps ih =>
    rw [run_cons] at hfit ⊢
    -- tables never shrink, so the bound at the end holds after this call too
    have hnext := hfit.of_grows (grows_run _ steps)
    exact ih ((adds_outcome s step).linesEnd hlines hnext) hfit

end BuildStep
end LockDiscipline
