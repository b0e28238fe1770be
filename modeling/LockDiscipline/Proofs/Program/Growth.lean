import LockDiscipline.Proofs.Program.Ranges

/- Snapshots that grow. A snapshot grows when no table loses entries and no
   struct type changes; functions and files may get longer. What a snapshot has
   is then there in the larger one too.

   `Within s t` says that all that the entries of `s` name exists in `t`. A
   snapshot is in range when it lies within itself, so a step that adds to some
   tables is done in two moves: what the old entries name is still there
   (`InRange.within`), and the new entries name what is there. -/
namespace LockDiscipline

/-- A change of one entry keeps what held of all entries, if the changed entry
    has it too. -/
theorem forall_mem_modify {α : Type} {xs : Array α} {change : α → α} {n : Nat} {P : α → Prop}
    (h : ∀ x ∈ xs.toList, P x) (hchange : ∀ x ∈ xs.toList, P (change x)) :
    ∀ x ∈ (xs.modify n change).toList, P x := by
  intro x hx
  rw [Array.toList_modify] at hx
  obtain ⟨m, hm⟩ := List.mem_iff_getElem?.mp hx
  rw [List.getElem?_modify] at hm
  obtain ⟨y, hy, rfl⟩ := Option.map_eq_some_iff.mp hm
  have hy := List.mem_of_getElem? hy
  show P (if n = m then change y else y)
  split
  · exact hchange y hy
  · exact h y hy

namespace Snapshot

/-- `t` has at least the entries of `s`, with the same struct types. -/
structure Grows (s t : Snapshot) : Prop where
  packages : s.packages.size ≤ t.packages.size
  files : s.files.size ≤ t.files.size
  globals : s.globals.size ≤ t.globals.size
  structs : ∀ (id : Nat) (ty : StructType), s.structs[id]? = some ty → t.structs[id]? = some ty
  functions : s.functions.size ≤ t.functions.size

/-- All that the entries of `s` name exists in `t`. -/
structure Within (s t : Snapshot) : Prop where
  files : ∀ f ∈ s.files.toList, f.package < t.packages.size ∧ ∀ d ∈ f.decls, t.HasDeclaration d
  globals : ∀ g ∈ s.globals.toList, g.package < t.packages.size ∧ t.HasPosition g.pos
  structs : ∀ ty ∈ s.structs.toList,
    ty.package < t.packages.size ∧ ∀ f ∈ ty.fields, t.HasPosition f.pos
  functions : ∀ f ∈ s.functions.toList,
    f.package < t.packages.size ∧ ∀ i ∈ f.body, t.HasInstruction i
  edges : ∀ e ∈ s.edges, e.caller < t.functions.size ∧ e.callee < t.functions.size
  comments : ∀ c ∈ s.comments, t.HasPosition c.pos

variable {s t u : Snapshot}

theorem within_self_iff : s.Within s ↔ s.InRange := by
  constructor
  · intro h
    exact ⟨h.files, h.globals, h.structs, h.functions, h.edges, h.comments⟩
  · intro h
    exact ⟨h.files, h.globals, h.structs, h.functions, h.edges, h.comments⟩

namespace Grows

theorem refl (s : Snapshot) : s.Grows s :=
  ⟨Nat.le_refl _, Nat.le_refl _, Nat.le_refl _, fun _ _ h => h, Nat.le_refl _⟩

theorem trans (h₁ : s.Grows t) (h₂ : t.Grows u) : s.Grows u where
  packages := Nat.le_trans h₁.packages h₂.packages
  files := Nat.le_trans h₁.files h₂.files
  globals := Nat.le_trans h₁.globals h₂.globals
  structs id ty h := h₂.structs id ty (h₁.structs id ty h)
  functions := Nat.le_trans h₁.functions h₂.functions

variable (h : s.Grows t)
include h

/-! ## What is there stays there -/

theorem lt_structs_size {id : Nat} (hid : id < s.structs.size) : id < t.structs.size := by
  have hty := h.structs id _ (Array.getElem?_eq_getElem hid)
  exact (Array.getElem?_eq_some_iff.mp hty).1

theorem hasPosition {pos : Position} (hp : s.HasPosition pos) : t.HasPosition pos :=
  Nat.lt_of_lt_of_le hp h.files

theorem hasField {f : FieldRef} (hf : s.hasField f = true) : t.hasField f = true := by
  rw [hasField_iff] at hf ⊢
  obtain ⟨ty, hty, hlt⟩ := hf
  exact ⟨ty, h.structs _ _ hty, hlt⟩

theorem fieldCount_le (id : Nat) : s.fieldCount id ≤ t.fieldCount id := by
  unfold fieldCount
  cases hty : s.structs[id]? with
  | none => exact Nat.zero_le _
  | some ty => exact Nat.le_of_eq (by rw [h.structs id ty hty])

theorem hasOperand {op : Operand} (hop : s.HasOperand op) : t.HasOperand op := by
  cases op with
  | global id => exact Nat.lt_of_lt_of_le hop h.globals
  | field ref => exact h.hasField hop
  | function node => exact Nat.lt_of_lt_of_le hop h.functions
  | value id => trivial
  | const => trivial

theorem hasAction {a : Action} (ha : s.HasAction a) : t.HasAction a := by
  cases a with
  | fieldAddr base field => exact h.hasField ha
  | call site => exact fun n hn => Nat.lt_of_lt_of_le (ha n hn) h.functions
  | defer site => exact fun n hn => Nat.lt_of_lt_of_le (ha n hn) h.functions
  | spawn site => exact fun n hn => Nat.lt_of_lt_of_le (ha n hn) h.functions
  | ret results => trivial
  | view source => trivial
  | other operands => trivial

theorem hasInstruction {i : Instruction} (hi : s.HasInstruction i) : t.HasInstruction i where
  pos := h.hasPosition hi.pos
  operands op hop := h.hasOperand (hi.operands op hop)
  action := h.hasAction hi.action

theorem hasDeclaration {d : Declaration} (hd : s.HasDeclaration d) : t.HasDeclaration d := by
  cases d with
  | var d => exact ⟨Nat.lt_of_lt_of_le hd.1 h.globals, h.hasPosition hd.2⟩
  | struct d =>
    refine ⟨h.lt_structs_size hd.1, ?_⟩
    exact fun l hl => h.hasPosition (hd.2 l hl)

theorem endsInside {d : StructDecl} {l : FieldLine} (hl : s.EndsInside d l) : t.EndsInside d l := by
  obtain ⟨stop, hstop, hle⟩ := hl
  exact ⟨stop, hstop, Nat.le_trans hle (h.fieldCount_le d.id)⟩

end Grows

/-- What the entries of a snapshot in range name is there in a larger one. -/
theorem InRange.within (h : s.InRange) (hg : s.Grows t) : s.Within t where
  files f hf := by
    obtain ⟨hpackage, hdecls⟩ := h.files f hf
    exact ⟨Nat.lt_of_lt_of_le hpackage hg.packages, fun d hd => hg.hasDeclaration (hdecls d hd)⟩
  globals g hgl := by
    obtain ⟨hpackage, hpos⟩ := h.globals g hgl
    exact ⟨Nat.lt_of_lt_of_le hpackage hg.packages, hg.hasPosition hpos⟩
  structs ty hty := by
    obtain ⟨hpackage, hfields⟩ := h.structs ty hty
    exact ⟨Nat.lt_of_lt_of_le hpackage hg.packages, fun f hf => hg.hasPosition (hfields f hf)⟩
  functions f hf := by
    obtain ⟨hpackage, hbody⟩ := h.functions f hf
    exact ⟨Nat.lt_of_lt_of_le hpackage hg.packages, fun i hi => hg.hasInstruction (hbody i hi)⟩
  edges e he := by
    obtain ⟨hcaller, hcallee⟩ := h.edges e he
    exact ⟨Nat.lt_of_lt_of_le hcaller hg.functions, Nat.lt_of_lt_of_le hcallee hg.functions⟩
  comments c hc := hg.hasPosition (h.comments c hc)

/-! ## A body that changes -/

section EditBody
variable (s) (node : Nat) (edit : List Instruction → List Instruction)

theorem grows_editBody :
    s.Grows { s with
      functions := s.functions.modify node fun f => { f with body := edit f.body } } :=
  { Grows.refl s with functions := by simp }

variable {s}

/-- A body may change if all that its new instructions name exists. -/
theorem InRange.editBody (h : s.InRange)
    (hedit : ∀ body, ∀ i ∈ edit body, i ∈ body ∨ s.HasInstruction i) :
    InRange { s with
      functions := s.functions.modify node fun f => { f with body := edit f.body } } := by
  have hgrows := s.grows_editBody node edit
  have hold := h.within hgrows
  refine within_self_iff.mp { hold with functions := forall_mem_modify hold.functions ?_ }
  intro f hf
  refine ⟨(hold.functions f hf).1, ?_⟩
  intro i hi
  rcases hedit f.body i hi with hi | hi
  · exact (hold.functions f hf).2 i hi
  · exact hgrows.hasInstruction hi

end EditBody

end Snapshot
end LockDiscipline
