import LockDiscipline.Analysis
import Mathlib.Data.List.Forall2
import Mathlib.Order.Monotone.Basic
import Mathlib.Order.Nat

/- Programs that differ in their layout only. A relining gives every line of a
   file its new line; lines keep their order and line 0, which stands for an
   unknown place, stays line 0. A program is reformatted when its positions
   move along, each to any column, and all else stays (`Program.Moved`). Here
   are the parts of the two programs that agree. -/
namespace LockDiscipline

section Lists
variable {α β γ : Type} {R : α → β → Prop} {l : List α} {l' : List β}

theorem forall₂_map_eq {f : α → γ} {g : β → γ} (h : List.Forall₂ R l l')
    (hfg : ∀ a b, R a b → f a = g b) : l.map f = l'.map g := by
  rw [← List.forall₂_eq_eq_eq, List.forall₂_map_left_iff, List.forall₂_map_right_iff]
  exact h.imp hfg

theorem forall₂_flatMap_eq {f : α → List γ} {g : β → List γ} (h : List.Forall₂ R l l')
    (hfg : ∀ a b, R a b → f a = g b) : l.flatMap f = l'.flatMap g := by
  rw [List.flatMap_def, List.flatMap_def, forall₂_map_eq h hfg]

theorem forall₂_any_eq {f : α → Bool} {g : β → Bool} (h : List.Forall₂ R l l')
    (hfg : ∀ a b, R a b → f a = g b) : l.any f = l'.any g := by
  induction h with
  | nil => rfl
  | cons hab _ ih => rw [List.any_cons, List.any_cons, hfg _ _ hab, ih]

theorem forall₂_findSome?_eq {f : α → Option γ} {g : β → Option γ} (h : List.Forall₂ R l l')
    (hfg : ∀ a b, R a b → f a = g b) : l.findSome? f = l'.findSome? g := by
  induction h with
  | nil => rfl
  | cons hab _ ih => rw [List.findSome?_cons, List.findSome?_cons, hfg _ _ hab, ih]

theorem forall₂_filter {f : α → Bool} {g : β → Bool} (h : List.Forall₂ R l l')
    (hfg : ∀ a b, R a b → f a = g b) : List.Forall₂ R (l.filter f) (l'.filter g) :=
  List.rel_filter (fun a b hab => iff_of_eq (congrArg (· = true) (hfg a b hab))) h

theorem forall₂_exists_mem {a : α} (h : List.Forall₂ R l l') (ha : a ∈ l) : ∃ b ∈ l', R a b := by
  induction h with
  | nil => cases ha
  | cons hab _ ih =>
    rcases List.mem_cons.mp ha with rfl | ha
    · exact ⟨_, List.mem_cons_self, hab⟩
    · obtain ⟨b, hb, hrel⟩ := ih ha
      exact ⟨b, List.mem_cons_of_mem _ hb, hrel⟩

theorem forall₂_getElem? (h : List.Forall₂ R l l') (n : Nat) :
    l[n]? = none ∧ l'[n]? = none ∨ ∃ a b, l[n]? = some a ∧ l'[n]? = some b ∧ R a b := by
  induction h generalizing n with
  | nil => exact .inl ⟨rfl, rfl⟩
  | cons hab _ ih =>
    cases n with
    | zero => exact .inr ⟨_, _, rfl, rfl, hab⟩
    | succ n => exact ih n

variable {t : Array α} {t' : Array β}

theorem forall₂_entry (h : List.Forall₂ R t.toList t'.toList) (n : Nat) :
    t[n]? = none ∧ t'[n]? = none ∨ ∃ a b, t[n]? = some a ∧ t'[n]? = some b ∧ R a b := by
  rw [← Array.getElem?_toList, ← Array.getElem?_toList]
  exact forall₂_getElem? h n

theorem forall₂_map_entry {f : α → γ} {g : β → γ} (h : List.Forall₂ R t.toList t'.toList)
    (hfg : ∀ a b, R a b → f a = g b) (n : Nat) : t[n]?.map f = t'[n]?.map g := by
  rw [← Array.getElem?_toList, ← Array.getElem?_toList, ← List.getElem?_map, ← List.getElem?_map,
    forall₂_map_eq h hfg]

end Lists

/-! ## Moving lines -/

/-- New lines for the lines of each file, in the same order. Only the lines of
    `lines` are ever looked at. -/
structure Relining where
  lines : Nat → Set Nat
  line : Nat → Nat → Nat
  zero_mem : ∀ file, 0 ∈ lines file
  zero : ∀ file, line file 0 = 0
  strictMono : ∀ file, StrictMonoOn (line file) (lines file)

namespace Relining

variable (ρ : Relining)

/-- Line `a` of the file becomes line `b`. -/
def Relines (file a b : Nat) : Prop := a ∈ ρ.lines file ∧ b = ρ.line file a

/-- The position stays in its file, moves to the new line, and may be at any
    column there. -/
def Moves (a b : Position) : Prop := b.file = a.file ∧ ρ.Relines a.file a.line b.line

/-- `b` is `a` with its position moved, for values that hold one position. -/
def Shifts {α : Type} (pos : α → Position) (put : α → Position → α) (a b : α) : Prop :=
  ∃ pos', ρ.Moves (pos a) pos' ∧ b = put a pos'

variable {ρ} {file a a' b b' : Nat}

theorem Relines.lt_iff (ha : ρ.Relines file a a') (hb : ρ.Relines file b b') :
    a' < b' ↔ a < b := by
  rw [ha.2, hb.2]
  exact (ρ.strictMono file).lt_iff_lt ha.1 hb.1

theorem Relines.eq_iff (ha : ρ.Relines file a a') (hb : ρ.Relines file b b') :
    a' = b' ↔ a = b := by
  rw [ha.2, hb.2]
  exact (ρ.strictMono file).eq_iff_eq ha.1 hb.1

theorem relines_zero : ρ.Relines file 0 0 := ⟨ρ.zero_mem file, (ρ.zero file).symm⟩

theorem Moves.isKnown_eq {x y : Position} (h : ρ.Moves x y) : x.isKnown = y.isKnown := by
  have hzero := h.2.eq_iff relines_zero
  rw [Position.isKnown, Position.isKnown, Bool.eq_iff_iff, bne_iff_ne, bne_iff_ne, ne_eq, ne_eq,
    hzero]

/-- Positions on one line stay together, and no others come to it. -/
theorem Moves.sameLine_eq {x y x' y' : Position} (hx : ρ.Moves x x') (hy : ρ.Moves y y') :
    x.sameLine y = x'.sameLine y' := by
  rw [Position.sameLine, Position.sameLine, hx.1, hy.1, Bool.eq_iff_iff]
  simp only [Bool.and_eq_true, beq_iff_eq]
  refine and_congr_right ?_
  intro hfile
  exact (hx.2.eq_iff (hfile ▸ hy.2)).symm

end Relining

/-! ## Moving programs -/

section Moved
variable (ρ : Relining)

def VarDecl.Moved : VarDecl → VarDecl → Prop := ρ.Shifts VarDecl.pos fun d pos => { d with pos }

def FieldLine.Moved : FieldLine → FieldLine → Prop :=
  ρ.Shifts FieldLine.pos fun l pos => { l with pos }

def Global.Moved : Global → Global → Prop := ρ.Shifts Global.pos fun g pos => { g with pos }

def FieldInfo.Moved : FieldInfo → FieldInfo → Prop :=
  ρ.Shifts FieldInfo.pos fun f pos => { f with pos }

def Comment.Moved : Comment → Comment → Prop := ρ.Shifts Comment.pos fun c pos => { c with pos }

def Instruction.Moved : Instruction → Instruction → Prop :=
  ρ.Shifts Instruction.pos fun i pos => { i with pos }

def StructDecl.Moved (d d' : StructDecl) : Prop :=
  ∃ fields, List.Forall₂ (FieldLine.Moved ρ) d.fields fields ∧ d' = { d with fields }

inductive Declaration.Moved : Declaration → Declaration → Prop
  | var {d d' : VarDecl} (decl : d.Moved ρ d') : Moved (.var d) (.var d')
  | struct {d d' : StructDecl} (decl : d.Moved ρ d') : Moved (.struct d) (.struct d')

def SourceFile.Moved (f f' : SourceFile) : Prop :=
  ∃ decls, List.Forall₂ (Declaration.Moved ρ) f.decls decls ∧ f' = { f with decls }

def StructType.Moved (t t' : StructType) : Prop :=
  ∃ fields, List.Forall₂ (FieldInfo.Moved ρ) t.fields fields ∧ t' = { t with fields }

def Function.Moved (f f' : Function) : Prop :=
  ∃ body, List.Forall₂ (Instruction.Moved ρ) f.body body ∧ f' = { f with body }

/-- The snapshots are equal but for their positions, and these move. -/
structure Snapshot.Moved (s s' : Snapshot) : Prop where
  modulePath : s.modulePath = s'.modulePath
  buildFlags : s.buildFlags = s'.buildFlags
  packages : s.packages = s'.packages
  files : List.Forall₂ (SourceFile.Moved ρ) s.files.toList s'.files.toList
  globals : List.Forall₂ (Global.Moved ρ) s.globals.toList s'.globals.toList
  structs : List.Forall₂ (StructType.Moved ρ) s.structs.toList s'.structs.toList
  functions : List.Forall₂ (Function.Moved ρ) s.functions.toList s'.functions.toList
  edges : s.edges = s'.edges
  comments : List.Forall₂ (Comment.Moved ρ) s.comments s'.comments

/-- `q` is `p` in another layout. Lines are compared within a body, so each body
    has to lie in one file. -/
structure Program.Moved (p q : Program) : Prop where
  snapshot : p.snapshot.Moved ρ q.snapshot
  scope : p.scope = q.scope
  oneFile : ∀ f ∈ p.snapshot.functions.toList, ∃ file, ∀ i ∈ f.body, i.pos.file = file

/-- The instruction lies in the file, and its position moves. -/
def Instruction.MovedIn (file : Nat) (i i' : Instruction) : Prop :=
  i.pos.file = file ∧ i.Moved ρ i'

end Moved

/-! ## What moving leaves alone -/

namespace Program.Moved

variable {ρ : Relining} {p q : Program} (h : p.Moved ρ q)
include h

theorem size_eq : p.snapshot.functions.size = q.snapshot.functions.size := h.snapshot.functions.length_eq

theorem function? (n : Nat) :
    p.snapshot.functions[n]? = none ∧ q.snapshot.functions[n]? = none ∨
      ∃ f f', p.snapshot.functions[n]? = some f ∧ q.snapshot.functions[n]? = some f' ∧
        f.Moved ρ f' :=
  forall₂_entry h.snapshot.functions n

theorem isInit_eq (n : Nat) : p.isInit n = q.isInit n := by
  unfold isInit
  obtain ⟨hp, hq⟩ | ⟨f, _, hp, hq, _, -, rfl⟩ := h.function? n
  · rw [hp, hq]
  · rw [hp, hq]

theorem nodeName_eq (n : Nat) : p.nodeName n = q.nodeName n := by
  unfold nodeName
  obtain ⟨hp, hq⟩ | ⟨f, _, hp, hq, _, -, rfl⟩ := h.function? n
  · rw [hp, hq]
  · rw [hp, hq]

theorem nodePackage?_eq (n : Nat) : p.nodePackage? n = q.nodePackage? n := by
  refine forall₂_map_entry h.snapshot.functions ?_ n
  rintro f _ ⟨_, -, rfl⟩
  rfl

/-- A body moves within its file. -/
theorem body (n : Nat) :
    ∃ file, List.Forall₂ (Instruction.MovedIn ρ file) (p.body n) (q.body n) := by
  unfold Program.body
  obtain ⟨hp, hq⟩ | ⟨f, _, hp, hq, body, hbody, rfl⟩ := h.function? n
  · rw [hp, hq]
    exact ⟨0, .nil⟩
  · rw [hp, hq]
    obtain ⟨file, hfile⟩ :=
      h.oneFile f (Array.mem_toList_iff.mpr (Array.mem_of_getElem? hp))
    exact ⟨file, (List.forall₂_and_left _ _).mpr ⟨hfile, hbody⟩⟩

theorem spawnTargets_eq :
    CallGraph.spawnTargets p.snapshot = CallGraph.spawnTargets q.snapshot := by
  refine forall₂_flatMap_eq h.snapshot.functions ?_
  intro f f' hf
  obtain ⟨body, hbody, rfl⟩ := hf
  show f.body.filterMap _ = body.filterMap _
  rw [← List.forall₂_eq_eq_eq]
  refine List.rel_filterMap ?_ hbody
  intro i i' hi
  obtain ⟨_, -, rfl⟩ := hi
  show Option.Rel Eq (CallGraph.spawnTarget? i) (CallGraph.spawnTarget? i)
  cases CallGraph.spawnTarget? i with
  | none => exact .none
  | some n => exact .some rfl

theorem graph_eq : p.graph = q.graph := by
  rw [p.graph_eq, q.graph_eq, CallGraph.ofSnapshot, CallGraph.ofSnapshot, h.spawnTargets_eq,
    h.snapshot.edges, h.size_eq]

theorem checkedNodes_eq : p.checkedNodes = q.checkedNodes := by
  simp only [checkedNodes, nodes, h.size_eq, h.isInit_eq]

theorem inScope_eq (package : Nat) : p.inScope package = q.inScope package := by
  unfold inScope
  rw [h.snapshot.packages, h.scope]

theorem package?_eq (l : Location) : l.package? p = l.package? q := by
  cases l with
  | global id =>
    refine forall₂_map_entry h.snapshot.globals ?_ id
    rintro g _ ⟨_, -, rfl⟩
    rfl
  | field ref =>
    refine forall₂_map_entry h.snapshot.structs ?_ ref.owner
    rintro t _ ⟨_, -, rfl⟩
    rfl

theorem name?_eq (l : Location) : l.name? p = l.name? q := by
  cases l with
  | global id =>
    refine forall₂_map_entry h.snapshot.globals ?_ id
    rintro g _ ⟨_, -, rfl⟩
    rfl
  | field ref =>
    simp only [Location.name?]
    obtain ⟨hp, hq⟩ | ⟨t, _, hp, hq, fields, hfields, rfl⟩ :=
      forall₂_entry h.snapshot.structs ref.owner
    · rw [hp, hq]
    · rw [hp, hq]
      obtain ⟨hf, hf'⟩ | ⟨f, _, hf, hf', _, -, rfl⟩ := forall₂_getElem? hfields ref.index
      · simp [hf, hf']
      · simp [hf, hf']

theorem sortKey?_eq (l : Location) : l.sortKey? p = l.sortKey? q := by
  unfold Location.sortKey?
  rw [h.package?_eq, h.name?_eq, h.snapshot.packages]

/-- The comment of a line goes where the line goes. -/
theorem commentAt_eq {pos pos' : Position} (hpos : ρ.Moves pos pos') :
    p.commentAt pos = q.commentAt pos' := by
  rw [commentAt_eq_intercalate, commentAt_eq_intercalate]
  congr 1
  refine forall₂_map_eq (forall₂_filter h.snapshot.comments ?_) ?_
  · intro c c' hc
    obtain ⟨_, hc, rfl⟩ := hc
    exact hc.sameLine_eq hpos
  · intro c c' hc
    obtain ⟨_, -, rfl⟩ := hc
    rfl

end Program.Moved
end LockDiscipline
