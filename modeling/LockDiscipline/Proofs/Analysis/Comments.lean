import LockDiscipline.Proofs.Analysis.Selection
import LockDiscipline.Proofs.Guard.Scan

/- Comments that do not matter. Of all comments a check reads those on the lines
   where locks are declared, in files in scope. It reads them through the index,
   which has other entries too, but under the key of a line only the comments of
   that line, in their order, whatever stands between them
   (`commentAt_eq_intercalate`). So two programs with the same code and the same
   comments on those lines (`SameNotes`) resolve their annotations alike
   (`resolve_eq`); no later stage looks at comments at all, so the reports are
   equal. -/
namespace LockDiscipline

/-- All but the comments. -/
def Snapshot.withoutComments (s : Snapshot) : Snapshot := { s with comments := [] }

namespace Program

/-- The programs are equal but for their comments, have the same packages in
    scope, and have the same comments on the lines where locks are declared in
    files in scope. -/
structure SameNotes (p q : Program) : Prop where
  code : p.snapshot.withoutComments = q.snapshot.withoutComments
  inScope : ∀ package, p.inScope package = q.inScope package
  vars : ∀ f ∈ p.snapshot.files.toList, p.inScope f.package = true →
    ∀ v, .var v ∈ f.decls → ∀ ty kind, v.ty = some ty → ty.IsLock kind →
      p.commentsOn v.pos = q.commentsOn v.pos
  fields : ∀ f ∈ p.snapshot.files.toList, p.inScope f.package = true →
    ∀ s, .struct s ∈ f.decls → ∀ line ∈ s.fields, ∀ kind, line.ty.IsLock kind →
      p.commentsOn line.pos = q.commentsOn line.pos

namespace SameNotes

variable {p q : Program} (h : p.SameNotes q)
include h

theorem packages_eq : p.snapshot.packages = q.snapshot.packages := (congrArg Snapshot.packages h.code :)

theorem files_eq : p.snapshot.files = q.snapshot.files := (congrArg Snapshot.files h.code :)

theorem globals_eq : p.snapshot.globals = q.snapshot.globals := (congrArg Snapshot.globals h.code :)

theorem structs_eq : p.snapshot.structs = q.snapshot.structs := (congrArg Snapshot.structs h.code :)

theorem functions_eq : p.snapshot.functions = q.snapshot.functions :=
  (congrArg Snapshot.functions h.code :)

/-! ## What is guarded -/

theorem lockDecls_eq (d : Discipline) : d.lockDecls p = d.lockDecls q := by
  have hvars : p.packageVar? = q.packageVar? := by
    unfold packageVar?
    rw [h.files_eq]
  have hfiles : p.filesInScope = q.filesInScope := by
    unfold filesInScope
    rw [funext h.inScope, h.files_eq]
  have hdecls : d.lockDeclsOf p = d.lockDeclsOf q := by
    funext package decl
    cases decl with
    | var v => cases d <;> simp only [Discipline.lockDeclsOf, VarDecl.lockDecl?, hvars]
    | struct s => rfl
  rw [Discipline.lockDecls, Discipline.lockDecls, hfiles, hdecls]

/-- The comment of a lock is the same in both programs. -/
theorem commentAt_eq {d : Discipline} {decl : LockDecl} (hdecl : decl ∈ d.lockDecls p) :
    p.commentAt decl.guard.pos = q.commentAt decl.guard.pos := by
  rw [commentAt_eq_intercalate, commentAt_eq_intercalate]
  congr 1
  rw [← Discipline.map_scan] at hdecl
  obtain ⟨⟨site, _⟩, hscan, rfl⟩ := List.mem_map.mp hdecl
  cases Discipline.mem_scan.mp hscan with
  | var file scope decl _ ty_eq lock _ =>
    exact h.vars _ (Array.mem_toList_iff.mpr (Array.mem_of_getElem? file)) scope _
      (List.mem_of_getElem? decl) _ _ ty_eq lock
  | field file scope decl line lock _ =>
    exact h.fields _ (Array.mem_toList_iff.mpr (Array.mem_of_getElem? file)) scope _
      (List.mem_of_getElem? decl) _ (List.mem_of_getElem? line) _ lock

theorem resolve_eq (d : Discipline) : d.resolve p = d.resolve q := by
  rw [Discipline.resolve, Discipline.resolve, ← h.lockDecls_eq d]
  refine List.foldl_ext _ _ _ ?_
  intro r decl hdecl
  have hcomment := h.commentAt_eq hdecl
  rw [commentAt, commentAt] at hcomment
  rw [Resolution.bind, Resolution.bind, hcomment]

/-! ## What is found -/

theorem body_eq (n : Nat) : p.body n = q.body n := by
  rw [body, body, h.functions_eq]

theorem checkedNodes_eq : p.checkedNodes = q.checkedNodes := by
  unfold checkedNodes nodes isInit
  rw [h.functions_eq]

theorem sortKey?_eq (l : Location) : l.sortKey? p = l.sortKey? q := by
  unfold Location.sortKey? Location.package? Location.name?
  rw [h.packages_eq, h.globals_eq, h.structs_eq]

theorem terrain_eq (d : Discipline) (l lock : Location) :
    d.terrain p l lock = d.terrain q l lock := by
  have hgraph : p.graph = q.graph := by
    rw [p.graph_eq, q.graph_eq]
    exact (congrArg CallGraph.ofSnapshot h.code :)
  have hpackage : l.package? p = l.package? q := by
    unfold Location.package?
    rw [h.globals_eq, h.structs_eq]
  simp only [Discipline.terrain, nodePackage?, hgraph, hpackage, h.body_eq, h.functions_eq]

theorem unprotectedPath?_eq (d : Discipline) (l lock : Location) (start : Nat) :
    d.unprotectedPath? p l lock start = d.unprotectedPath? q l lock start := by
  rw [Discipline.unprotectedPath?, Discipline.unprotectedPath?, h.terrain_eq, h.functions_eq]

theorem usages_eq (d : Discipline) : d.usages p = d.usages q := by
  simp only [Discipline.usages, Discipline.usagesOf, h.resolve_eq, h.checkedNodes_eq, h.body_eq]

theorem failures_eq (d : Discipline) (l lock : Location) :
    d.failures p l lock = d.failures q l lock := by
  have hfailure : d.failure? p l lock = d.failure? q l lock := by
    funext n
    rw [Discipline.failure?, Discipline.failure?, h.body_eq, h.unprotectedPath?_eq]
  funext nodes
  rw [Discipline.failures, Discipline.failures, hfailure]

theorem recordLocation_eq (d : Discipline) :
    Report.recordLocation d p = Report.recordLocation d q := by
  have hrender : ∀ path : CallPath, path.render p = path.render q := by
    intro path
    unfold CallPath.render nodeName
    rw [h.functions_eq]
  have hescapes : ∀ l lock, p.escapes l lock = q.escapes l lock := by
    intro l lock
    unfold escapes escapesOf
    simp only [h.checkedNodes_eq, h.body_eq]
  funext usages r e
  simp only [Report.recordLocation, Report.recordViolation, h.failures_eq, hrender, hescapes]

theorem disciplineCheck_eq (d : Discipline) : d.check p = d.check q := by
  have horder : Location.verifiedBefore p = Location.verifiedBefore q := by
    funext a b
    rw [Location.verifiedBefore, Location.verifiedBefore, h.sortKey?_eq, h.sortKey?_eq]
  rw [Discipline.check, Discipline.check, Discipline.agenda, Discipline.agenda, h.resolve_eq, horder,
    h.recordLocation_eq, h.usages_eq]

end SameNotes
end Program

/-- Comments have no influence on a check unless they stand on the line of a lock. -/
theorem comments_elsewhere_ignored (p q : Program) (h : p.SameNotes q) (ds : List Discipline) :
    p.check ds = q.check ds := by
  have hchecks : ∀ d : Discipline, d.check p = d.check q := h.disciplineCheck_eq
  simp only [Program.check, hchecks]

/-- The comments on lines 2 and 6 in other columns and between other comments. -/
def chatty : Program :=
  ⟨carelessSnapshot [⟨⟨0, 6, 40⟩, "// items"⟩, ⟨⟨0, 2, 1⟩, "// count,"⟩,
      ⟨⟨0, 7, 9⟩, "// nolint:mutex_check"⟩, ⟨⟨0, 3, 9⟩, "// lock"⟩, ⟨⟨0, 2, 3⟩, "// gone"⟩],
    by decide, CallGraph.ofSnapshot _, rfl, none⟩

theorem careless_sameNotes : careless.SameNotes chatty := by
  refine ⟨rfl, fun _ => rfl, ?_, ?_⟩
  · intro f hf _ v hv ty kind hty hlock
    rw [List.mem_singleton.mp hf] at hv
    simp only [List.mem_cons, Declaration.var.injEq, reduceCtorEq, List.not_mem_nil, or_false] at hv
    rcases hv with rfl | rfl
    · decide
    · cases hty
      cases hlock
  · intro f hf _ s hs line hline kind hlock
    rw [List.mem_singleton.mp hf] at hs
    simp only [List.mem_cons, Declaration.struct.injEq, reduceCtorEq, List.not_mem_nil, or_false,
      false_or] at hs
    rw [hs] at hline
    simp only [List.mem_cons, List.not_mem_nil, or_false] at hline
    rcases hline with rfl | rfl
    · decide
    · cases hlock

/-- A warning, an escape and a violation of either discipline are found all the same. -/
theorem chatty_comments_ignored :
    careless.SameNotes chatty ∧
    careless.check Discipline.all = chatty.check Discipline.all ∧
    (chatty.check Discipline.all).warnings = [.unresolvedName ⟨0, 2, 1⟩ "gone"] ∧
    (chatty.check Discipline.all).violations.map
        (fun v => (v.location, v.positions)) =
      [(.global 1, [⟨0, 11, 1⟩]), (.field ⟨0, 1⟩, [⟨0, 10, 1⟩])] ∧
    (chatty.check Discipline.all).escapes = [⟨.field ⟨0, 1⟩, 0, ⟨0, 12, 1⟩⟩] :=
  ⟨careless_sameNotes, comments_elsewhere_ignored careless chatty careless_sameNotes Discipline.all,
    by decide +kernel, by decide +kernel, by decide +kernel⟩

end LockDiscipline
