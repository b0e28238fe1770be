import LockDiscipline.Proofs.Program.Decode

/- The text of a snapshot reads back as the snapshot
   (`snapshot_text_reads_back`), provided that its numbers are words and that
   the text nests no deeper than the reader allows. The names and comments in a
   snapshot may be any texts. -/
namespace LockDiscipline

/-! ## The numbers in a snapshot -/

/-- All numbers are words. -/
def Json.AreWords (ns : List Nat) : Prop := ∀ n ∈ ns, n < Numeral.wordLimit

namespace Json

@[simp] theorem areWords_nil : AreWords [] := List.forall_mem_nil _

@[simp] theorem areWords_cons {n : Nat} {ns : List Nat} :
    AreWords (n :: ns) ↔ n < Numeral.wordLimit ∧ AreWords ns := List.forall_mem_cons

@[simp] theorem areWords_append {ms ns : List Nat} :
    AreWords (ms ++ ns) ↔ AreWords ms ∧ AreWords ns := List.forall_mem_append

@[simp] theorem areWords_flatMap {α : Type} {words : α → List Nat} {xs : List α} :
    AreWords (xs.flatMap words) ↔ ∀ x ∈ xs, AreWords (words x) := List.forall_mem_flatMap

end Json

def FieldRef.words (f : FieldRef) : List Nat := [f.owner, f.index]

def Position.words (p : Position) : List Nat := [p.file, p.line, p.column]

def Operand.words : Operand → List Nat
  | .global id => [id]
  | .field ref => ref.words
  | .function node => [node]
  | .value id => [id]
  | .const => []

def Callee.words : Callee → List Nat
  | .function node => [node]
  | .external _ => []
  | .dynamic => []

def CallSite.words (call : CallSite) : List Nat :=
  call.callee.words ++ call.args.flatMap Operand.words

def Action.words : Action → List Nat
  | .fieldAddr base field => base.words ++ field.words
  | .call site => site.words
  | .defer site => site.words
  | .spawn site => site.words
  | .ret results => results.flatMap Operand.words
  | .view source => source.words
  | .other operands => operands.flatMap Operand.words

def Instruction.words (i : Instruction) : List Nat :=
  i.pos.words ++ i.result.toList ++ i.action.words

def FieldLine.words (l : FieldLine) : List Nat := l.pos.words ++ [l.firstIndex]

def Declaration.words : Declaration → List Nat
  | .var d => d.global :: d.pos.words
  | .struct d => d.id :: d.fields.flatMap FieldLine.words

def SourceFile.words (f : SourceFile) : List Nat := f.package :: f.decls.flatMap Declaration.words

def Global.words (g : Global) : List Nat := g.package :: g.pos.words

def StructType.words (s : StructType) : List Nat :=
  s.package :: s.fields.flatMap fun f => f.pos.words

def Function.words (f : Function) : List Nat := f.package :: f.body.flatMap Instruction.words

def Edge.words (e : Edge) : List Nat := [e.caller, e.callee]

/-- The ids, indices, lines and columns in a snapshot. -/
def Snapshot.words (s : Snapshot) : List Nat :=
  s.files.toList.flatMap SourceFile.words ++ s.globals.toList.flatMap Global.words ++
    s.structs.toList.flatMap StructType.words ++ s.functions.toList.flatMap Function.words ++
    s.edges.flatMap Edge.words ++ s.comments.flatMap fun c => c.pos.words

/-! ## Plain encodings -/

open Json (AreWords)

@[simp] theorem FieldRef.plain_toJson {f : FieldRef} : f.toJson.Plain ↔ AreWords f.words := by
  simp [toJson, words]

@[simp] theorem Position.plain_toJson {p : Position} : p.toJson.Plain ↔ AreWords p.words := by
  simp [toJson, words]

@[simp] theorem TypeExpr.plain_toJson (t : TypeExpr) : t.toJson.Plain := by
  induction t with
  | named package name => simp [toJson]
  | pointer target ih => simp [toJson, ih]
  | other text => simp [toJson]

@[simp] theorem Operand.plain_toJson {o : Operand} : o.toJson.Plain ↔ AreWords o.words := by
  cases o <;> simp [toJson, words]

@[simp] theorem Callee.plain_toJson {c : Callee} : c.toJson.Plain ↔ AreWords c.words := by
  cases c <;> simp [toJson, words]

theorem CallSite.plain_fields {call : CallSite} :
    (∀ m ∈ call.fields, m.2.Plain) ↔ AreWords call.words := by
  simp [fields, words]

theorem Action.plain_fields {a : Action} : (∀ m ∈ a.fields, m.2.Plain) ↔ AreWords a.words := by
  cases a with
  | call site | defer site | spawn site =>
    rw [fields, List.forall_mem_cons, CallSite.plain_fields, words]
    simp
  | fieldAddr | ret | view | other => simp [fields, words]

@[simp] theorem Instruction.plain_toJson {i : Instruction} :
    i.toJson.Plain ↔ AreWords i.words := by
  rw [toJson, Json.plain_object, List.forall_mem_cons, List.forall_mem_append,
    Action.plain_fields, words]
  cases i.result <;> simp

@[simp] theorem Package.plain_toJson (p : Package) : p.toJson.Plain := by
  simp [toJson]

@[simp] theorem FieldLine.plain_toJson {l : FieldLine} : l.toJson.Plain ↔ AreWords l.words := by
  simp [toJson, words]

@[simp] theorem Declaration.plain_toJson {d : Declaration} :
    d.toJson.Plain ↔ AreWords d.words := by
  cases d <;> simp [toJson, words]

@[simp] theorem SourceFile.plain_toJson {f : SourceFile} : f.toJson.Plain ↔ AreWords f.words := by
  simp [toJson, words]

@[simp] theorem Global.plain_toJson {g : Global} : g.toJson.Plain ↔ AreWords g.words := by
  simp [toJson, words]

@[simp] theorem FieldInfo.plain_toJson {f : FieldInfo} : f.toJson.Plain ↔ AreWords f.pos.words := by
  simp [toJson]

@[simp] theorem StructType.plain_toJson {s : StructType} : s.toJson.Plain ↔ AreWords s.words := by
  simp [toJson, words]

@[simp] theorem Function.plain_toJson {f : Function} : f.toJson.Plain ↔ AreWords f.words := by
  simp [toJson, words]

@[simp] theorem Edge.plain_toJson {e : Edge} : e.toJson.Plain ↔ AreWords e.words := by
  simp [toJson, words]

@[simp] theorem Comment.plain_toJson {c : Comment} : c.toJson.Plain ↔ AreWords c.pos.words := by
  simp [toJson]

theorem Snapshot.plain_toJson {s : Snapshot} : s.toJson.Plain ↔ AreWords s.words := by
  simp [toJson, words]

/-! ## Reading the text of a snapshot -/

/-- The text of a snapshot reads back as the snapshot, whatever its strings are,
    if its ids, indices, lines and columns are words and its encoding nests no
    deeper than the reader allows. -/
theorem snapshot_text_reads_back (s : Snapshot)
    (hwords : ∀ n ∈ s.words, n < Json.Numeral.wordLimit)
    (hdepth : s.toJson.depth ≤ Json.nestingLimit) :
    Snapshot.ofText? s.toText = some s := by
  have hplain : s.toJson.Plain := Snapshot.plain_toJson.mpr hwords
  rw [Snapshot.ofText?, Snapshot.toText, Json.parse?_render hplain]
  exact s.inverts Json.nestingLimit ⟨hplain, hdepth⟩

/-- One part of every kind. The names hold quotes, control characters and
    letters of several alphabets. -/
def specimen : Snapshot where
  modulePath := some "a\"b\\c"
  buildFlags := ["-tags", "a\tb\n"]
  packages := #[⟨"päckage", []⟩, ⟨"日本", ["\x00\x1f"]⟩]
  files := #[⟨"a.go", 0, [
    .var ⟨"mu", 0, some (.pointer (.pointer (.named (some "sync") "Mutex"))), ⟨0, 3, 5⟩⟩,
    .var ⟨"x", 1, none, ⟨0, 4, 0⟩⟩,
    .struct ⟨"S", 0, [⟨["a", "b"], .other "map[string]int", ⟨0, 7, 2⟩, 0⟩,
      ⟨[], .named none "T", ⟨0, 8, 2⟩, 2⟩]⟩]⟩]
  globals := #[⟨"mu", 0, ⟨0, 3, 5⟩⟩, ⟨"x", 0, ⟨0, 4, 0⟩⟩]
  structs := #[⟨"S", 0, [⟨"a", ⟨0, 7, 2⟩⟩, ⟨"T", ⟨0, 8, 2⟩⟩]⟩]
  functions := #[⟨"f", 0, false, [
    ⟨⟨0, 10, 1⟩, some 1, .fieldAddr (.value 7) ⟨0, 1⟩⟩,
    ⟨⟨0, 11, 1⟩, none, .call ⟨.external "Lock", true, [.field ⟨0, 1⟩, .const]⟩⟩,
    ⟨⟨0, 12, 1⟩, some 4294967295, .defer ⟨.function 1, false, [.global 0, .function 1]⟩⟩,
    ⟨⟨0, 13, 1⟩, none, .spawn ⟨.dynamic, false, []⟩⟩,
    ⟨⟨0, 14, 1⟩, some 2, .view (.value 1)⟩,
    ⟨⟨0, 15, 1⟩, none, .other [.const]⟩,
    ⟨⟨0, 16, 1⟩, none, .ret [.value 2]⟩]⟩,
    ⟨"init", 0, true, []⟩]
  edges := [⟨0, 1⟩]
  comments := [⟨⟨0, 3, 20⟩, "// x is guarded 🔒"⟩]

/-- A snapshot with one part of every kind reads back. -/
theorem specimen_reads_back :
    (∀ n ∈ specimen.words, n < Json.Numeral.wordLimit) ∧
      specimen.toJson.depth ≤ Json.nestingLimit ∧
      Snapshot.ofText? specimen.toText = some specimen := by
  have hwords : ∀ n ∈ specimen.words, n < Json.Numeral.wordLimit := by decide
  have hdepth : specimen.toJson.depth ≤ Json.nestingLimit := by decide +kernel
  exact ⟨hwords, hdepth, snapshot_text_reads_back specimen hwords hdepth⟩

end LockDiscipline
