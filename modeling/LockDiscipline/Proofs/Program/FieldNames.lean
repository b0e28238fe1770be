import LockDiscipline.Guard.Resolution
import LockDiscipline.Proofs.Program.Calls

/- Names of fields. A struct type that is built has its fields twice: in one table,
   which the builder searches, and on the lines of its declaration, which annotations
   are looked up on. A line finds a name at the place that it has among the fields of
   the line (`indexOf?_specLine`), so all lines together find it where the table does
   (`findSome?_specLines`), also for names that stand there more than once. The lines
   cover the table one after the other (`flatMap_range'_specLines`). No later call
   changes a struct type, so this stays true whatever is built afterwards
   (`struct_fields_named_alike`). Indices have 32 bits: a struct type with more fields
   has names that both searches find at the index of another one
   (`wideLines_misnamed`). -/
namespace LockDiscipline

namespace Builder

variable {file first : Nat} {name : String}

/-! ## Where a name is found -/

theorem findIdx?_specFields (file : Nat) (spec : FieldSpec) (name : String) :
    (specFields file spec).findIdx? (·.name == name) = (specNames spec).findIdx? (· == name) := by
  rw [specFields, List.findIdx?_map]
  rfl

/-- An embedded field without a name of its own is called `_`, which no other name is
    mistaken for. -/
theorem embeddedField_eq_iff (hname : name ≠ "_") (ty : TypeExpr) :
    embeddedField ty = name ↔ ty.embeddedName? = some name := by
  unfold embeddedField
  cases ty.embeddedName? with
  | none => simp [Ne.symm hname]
  | some embedded => simp

/-- A line finds a name at the place that it has among the fields of the line. -/
theorem indexOf?_specLine (hname : name ≠ "_") (spec : FieldSpec) :
    (specLine file first spec).indexOf? name =
      ((specFields file spec).findIdx? (·.name == name)).map
        fun place => (first + place) % idModulus := by
  rw [findIdx?_specFields, specNames]
  unfold FieldLine.indexOf? FieldLine.isEmbedded specLine
  by_cases hembedded : spec.names.isEmpty = true
  · simp only [hembedded, if_true, ← embeddedField_eq_iff hname, List.findIdx?_singleton,
      beq_iff_eq]
    split <;> rfl
  · simp only [hembedded, Bool.false_eq_true, if_false, Nat.mod_add_mod]

/-- The lines find a name where the table of all their fields has it first. -/
theorem findSome?_specLines (hname : name ≠ "_") (specs : List FieldSpec) :
    (specLines file first specs).findSome? (·.indexOf? name) =
      ((specs.flatMap (specFields file)).findIdx? (·.name == name)).map
        fun place => (first + place) % idModulus := by
  induction specs generalizing first with
  | nil => rfl
  | cons spec specs ih =>
    rw [specLines, List.findSome?_cons, indexOf?_specLine hname, ih, List.flatMap_cons,
      List.findIdx?_append]
    cases (specFields file spec).findIdx? (·.name == name) with
    | some place => rfl
    | none =>
      -- the places of the later fields are counted from behind those of the line
      simp only [Option.map_none, Option.none_or, Option.map_map]
      congr 1
      funext place
      rw [Function.comp_apply, Nat.add_assoc, Nat.add_comm place]

theorem fieldNamed?_specLines (hname : name ≠ "_") (typeName : String) (id : Nat)
    (specs : List FieldSpec) :
    (⟨typeName, id, specLines file 0 specs⟩ : StructDecl).fieldNamed? name =
      ((specs.flatMap (specFields file)).findIdx? (·.name == name)).map
        fun place => ⟨id, place % idModulus⟩ := by
  have hrefs : (⟨typeName, id, specLines file 0 specs⟩ : StructDecl).fieldNamed? name =
      ((specLines file 0 specs).findSome? (·.indexOf? name)).map fun index => ⟨id, index⟩ :=
    List.map_findSome?.symm
  rw [hrefs, findSome?_specLines hname, Option.map_map]
  simp only [Function.comp_def, Nat.zero_add]

theorem fieldNamed_eq_ok_iff {s : Snapshot} {owner : Nat} {ty : StructType}
    (hty : s.structs[owner]? = some ty) {ref : FieldRef} :
    fieldNamed s owner name = .ok ref ↔
      (ty.fields.findIdx? (·.name == name)).map
        (fun place => (⟨owner, place % idModulus⟩ : FieldRef)) = some ref := by
  simp only [fieldNamed, hty]
  cases ty.fields.findIdx? (·.name == name) with
  | none => simp
  | some place => simp

/-- The table has a name that is found at its index, if there are no more fields than
    indices. -/
theorem name_at_fieldNamed {s : Snapshot} {owner : Nat} {ty : StructType}
    (hty : s.structs[owner]? = some ty) (hfew : ty.fields.length ≤ idModulus)
    {ref : FieldRef} (href : fieldNamed s owner name = .ok ref) :
    (ty.fields[ref.index]?).map (·.name) = some name := by
  obtain ⟨place, hplace, hat⟩ := Option.map_eq_some_iff.mp ((fieldNamed_eq_ok_iff hty).mp href)
  obtain ⟨hlt, hfound, -⟩ := List.findIdx?_eq_some_iff_getElem.mp hplace
  subst hat
  simp only [Nat.mod_eq_of_lt (Nat.lt_of_lt_of_le hlt hfew), List.getElem?_eq_getElem hlt,
    Option.map_some, eq_of_beq hfound]

/-! ## The lines cover the table -/

theorem flatMap_range'_specLines (specs : List FieldSpec)
    (hfew : first + (specs.flatMap (specFields file)).length ≤ idModulus) :
    (specLines file first specs).flatMap (fun line => List.range' line.firstIndex line.size) =
      List.range' first (specs.flatMap (specFields file)).length := by
  induction specs generalizing first with
  | nil => rfl
  | cons spec specs ih =>
    rw [List.flatMap_cons, List.length_append] at hfew ⊢
    have hpos : 0 < (specFields file spec).length := by
      rw [length_specFields]
      omega
    have hfirst : (specLine file first spec).firstIndex = first := Nat.mod_eq_of_lt (by omega)
    have hsize : (specLine file first spec).size = (specFields file spec).length :=
      (length_specFields file spec).symm
    rw [specLines, List.flatMap_cons, hfirst, hsize, ih (by omega), List.range'_append_1]

/-- There is a line for each spec, with its names and its type. -/
theorem map_specLines (specs : List FieldSpec) :
    (specLines file first specs).map (fun line => (line.names, line.ty)) =
      specs.map fun spec => (spec.names, spec.ty) := by
  induction specs generalizing first with
  | nil => rfl
  | cons spec specs ih =>
    rw [specLines, List.map_cons, List.map_cons, ih]
    rfl

/-- What a struct type comes to when it is built: its fields in a table, and a
    declaration at the end of its file with their lines. -/
theorem addStruct_eq {s : Snapshot} (hfile : file < s.files.size) (typeName : String)
    (specs : List FieldSpec) :
    ∃ next ty, addStruct s file typeName specs = .ok (next, s.structs.size % idModulus) ∧
      (next.files[file]?.bind (·.decls.getLast?)) =
        some (.struct ⟨typeName, s.structs.size % idModulus, specLines file 0 specs⟩) ∧
      next.structs = s.structs.push ty ∧ ty.fields = specs.flatMap (specFields file) := by
  refine ⟨_, ⟨typeName, s.files[file].package, specs.flatMap (specFields file)⟩,
    by rw [addStruct, Array.getElem?_eq_getElem hfile], ?_, rfl, rfl⟩
  simp only [declare, Array.getElem?_modify, if_true, Array.getElem?_eq_getElem hfile,
    Option.map_some, Option.bind_some, List.getLast?_concat]

/-- As long as there are ids left, the table is found under the id. -/
theorem addStruct_fits {s : Snapshot} (hfile : file < s.files.size)
    (hfew : s.structs.size < idModulus) (typeName : String) (specs : List FieldSpec) :
    ∃ next ty, addStruct s file typeName specs = .ok (next, s.structs.size) ∧
      (next.files[file]?.bind (·.decls.getLast?)) =
        some (.struct ⟨typeName, s.structs.size, specLines file 0 specs⟩) ∧
      next.structs[s.structs.size]? = some ty ∧ ty.fields = specs.flatMap (specFields file) := by
  obtain ⟨next, ty, hadd, hdecl, hstructs, hfields⟩ := addStruct_eq hfile typeName specs
  rw [Nat.mod_eq_of_lt hfew] at hadd hdecl
  exact ⟨next, ty, hadd, hdecl, by rw [hstructs, Array.getElem?_push_size], hfields⟩

end Builder

/-! ## The two searches agree -/

open Builder

/-- A struct type that is built, with fewer than 2^32 of them there, is declared with the
    lines that were given. From then on, whatever else is built, the builder has a field
    of a name other than `_` exactly if the declaration finds that field. If the type has
    at most 2^32 fields, the table has the name at the index that is found, and the lines
    cover the table from its start to its end, each field once. -/
theorem struct_fields_named_alike {s : Snapshot} {file : Nat} (hfile : file < s.files.size)
    (hfew : s.structs.size < idModulus) (typeName : String) (specs : List FieldSpec) :
    ∃ next decl ty, addStruct s file typeName specs = .ok (next, decl.id) ∧
      (next.files[file]?.bind (·.decls.getLast?)) = some (.struct decl) ∧
      next.structs[decl.id]? = some ty ∧
      decl.fields.map (fun line => (line.names, line.ty)) =
        specs.map (fun spec => (spec.names, spec.ty)) ∧
      (∀ steps name, name ≠ "_" → ∀ ref, decl.fieldNamed? name = some ref ↔
        fieldNamed (BuildStep.run next steps).2 decl.id name = .ok ref) ∧
      (ty.fields.length ≤ idModulus →
        (∀ name ref, fieldNamed next decl.id name = .ok ref →
          (ty.fields[ref.index]?).map (·.name) = some name) ∧
        decl.fields.flatMap (fun line => List.range' line.firstIndex line.size) =
          List.range ty.fields.length) := by
  obtain ⟨next, ty, hadd, hdecl, hty, hfields⟩ := addStruct_fits hfile hfew typeName specs
  refine ⟨next, _, ty, hadd, hdecl, hty, map_specLines specs, ?_, ?_⟩
  · intro steps name hname ref
    have hlater := (BuildStep.grows_run next steps).structs _ _ hty
    rw [fieldNamed?_specLines hname, fieldNamed_eq_ok_iff hlater, hfields]
  · intro hfit
    refine ⟨fun name ref href => name_at_fieldNamed hty hfit href, ?_⟩
    rw [hfields] at hfit ⊢
    rw [flatMap_range'_specLines specs (by omega), List.range_eq_range']

/-- A file with one struct type. -/
def storeFile : Snapshot :=
  (BuildStep.run .empty [.package "app", .file 0 "app/store.go", .struct 0 "Empty" []]).2

/-- Lines of every kind: a name that stands twice, a lock embedded behind a pointer whose
    name comes again below, and an embedded type without a name. -/
def storeLines : List FieldSpec :=
  [⟨["size", "next", "size"], .named none "int", 2⟩,
   ⟨[], .pointer (.named (some "sync") "Mutex"), 3⟩, ⟨[], .other "struct", 4⟩,
   ⟨["next", "Mutex"], .named none "int", 5⟩]

/-- Both searches find the embedded lock and not the later field of its name. -/
theorem storeLines_named_alike :
    0 < storeFile.files.size ∧ storeFile.structs.size < idModulus ∧
      ∃ (next : Snapshot) (decl : StructDecl),
      addStruct storeFile 0 "Store" storeLines = .ok (next, decl.id) ∧
      fieldNamed next decl.id "Mutex" = .ok ⟨1, 3⟩ ∧ decl.fieldNamed? "Mutex" = some ⟨1, 3⟩ ∧
      decl.fieldNamed? "gone" = none ∧
      decl.fields.flatMap (fun line => List.range' line.firstIndex line.size) = List.range 7 := by
  have hfile : 0 < storeFile.files.size := by decide
  have hfew : storeFile.structs.size < idModulus := by decide
  obtain ⟨next, decl, ty, hadd, -, hty, -, hnames, hfit⟩ :=
    struct_fields_named_alike hfile hfew "Store" storeLines
  have hsearch (name : String) : fieldNamed next decl.id name =
      (addStruct storeFile 0 "Store" storeLines).bind fun built =>
        fieldNamed built.1 built.2 name := by
    rw [hadd]
    rfl
  have hlength : ty.fields.length = 7 := by
    have hbuilt : (addStruct storeFile 0 "Store" storeLines).map (fun built =>
        built.1.structs[built.2]?.map (·.fields.length)) = .ok (some 7) := rfl
    rw [hadd, Except.map, hty] at hbuilt
    exact Option.some.inj (Except.ok.inj hbuilt)
  have hmutex : fieldNamed next decl.id "Mutex" = .ok ⟨1, 3⟩ := hsearch "Mutex"
  have hgone : fieldNamed next decl.id "gone" = .error (.noField "gone") := hsearch "gone"
  refine ⟨hfile, hfew, next, decl, hadd, hmutex, (hnames [] _ (by decide) _).mpr hmutex, ?_, ?_⟩
  · rw [Option.eq_none_iff_forall_ne_some]
    intro ref href
    cases hgone.symm.trans ((hnames [] _ (by decide) _).mp href)
  · rw [(hfit (by rw [hlength]; decide)).2, hlength]

/-! ## More fields than indices -/

/-- A line of `n` fields with one name, and a line with one more. -/
def wideLines (n : Nat) : List FieldSpec :=
  [⟨List.replicate n "a", .named none "int", 2⟩, ⟨["b"], .named none "int", 3⟩]

theorem flatMap_specFields_wideLines {n : Nat} (hn : 0 < n) (file : Nat) :
    (wideLines n).flatMap (specFields file) =
      List.replicate n ⟨"a", .ofLine file 2⟩ ++ [⟨"b", .ofLine file 3⟩] := by
  have hnames : (List.replicate n "a").isEmpty = false := by
    rw [List.isEmpty_eq_false_iff, ← List.length_pos_iff, List.length_replicate]
    exact hn
  have hfirst : specFields file ⟨List.replicate n "a", .named none "int", 2⟩ =
      List.replicate n ⟨"a", .ofLine file 2⟩ := by
    rw [specFields, specNames, hnames, if_neg Bool.false_ne_true, List.map_replicate]
  rw [wideLines, List.flatMap_cons, List.flatMap_singleton, hfirst]
  rfl

/-- The second name stands behind all the others. -/
theorem findIdx?_wideLines {n : Nat} (hn : 0 < n) (file : Nat) :
    ((wideLines n).flatMap (specFields file)).findIdx? (·.name == "b") = some n := by
  rw [flatMap_specFields_wideLines hn, List.findIdx?_append, List.findIdx?_replicate]
  simp

/-- Where indices come round behind the fields of the first line, both searches find the
    field of the second at the index of the first. -/
theorem misnamed_wideLines {s : Snapshot} {file n : Nat} (hfile : file < s.files.size)
    (hfew : s.structs.size < idModulus) (hn : 0 < n) (hround : n % idModulus = 0) :
    ∃ next decl ty, addStruct s file "Wide" (wideLines n) = .ok (next, decl.id) ∧
      (next.files[file]?.bind (·.decls.getLast?)) = some (.struct decl) ∧
      next.structs[decl.id]? = some ty ∧
      fieldNamed next decl.id "b" = .ok ⟨decl.id, 0⟩ ∧
      decl.fieldNamed? "b" = some ⟨decl.id, 0⟩ ∧ (ty.fields[0]?).map (·.name) = some "a" := by
  obtain ⟨next, ty, hadd, hdecl, hty, hfields⟩ := addStruct_fits hfile hfew "Wide" (wideLines n)
  refine ⟨next, _, ty, hadd, hdecl, hty, ?_, ?_, ?_⟩
  · rw [fieldNamed_eq_ok_iff hty, hfields, findIdx?_wideLines hn, Option.map_some, hround]
  · rw [fieldNamed?_specLines (by decide), findIdx?_wideLines hn, Option.map_some, hround]
  · rw [hfields, flatMap_specFields_wideLines hn, List.getElem?_append_left (by simpa using hn),
      List.getElem?_replicate, if_pos hn, Option.map_some]

/-! ## More struct types than ids -/

/-- `n` struct types without fields, in one file. -/
def emptyTypes (n : Nat) : List BuildStep :=
  [.package "app", .file 0 "app/wide.go"] ++ List.replicate n (.struct 0 "Empty" [])

/-- There are `n` types then, and none of them has a field. -/
theorem run_emptyTypes (n : Nat) :
    0 < (BuildStep.run .empty (emptyTypes n)).2.files.size ∧
      (BuildStep.run .empty (emptyTypes n)).2.structs.size = n ∧
      ∀ ty ∈ (BuildStep.run .empty (emptyTypes n)).2.structs.toList, ty.fields = [] := by
  induction n with
  | zero => decide
  | succ n ih =>
    obtain ⟨hfile, hsize, hempty⟩ := ih
    obtain ⟨next, ty, hadd, -, hstructs, hfields⟩ := addStruct_eq hfile "Empty" []
    have happly : BuildStep.apply (BuildStep.run .empty (emptyTypes n)).2 (.struct 0 "Empty" []) =
        .ok (next, .id ((BuildStep.run .empty (emptyTypes n)).2.structs.size % idModulus)) :=
      congrArg (Except.map _) hadd
    have hcalls : emptyTypes (n + 1) = emptyTypes n ++ [.struct 0 "Empty" []] := by
      rw [emptyTypes, List.replicate_succ', ← List.append_assoc]
      rfl
    have hgrows := (BuildStep.adds_outcome (BuildStep.run .empty (emptyTypes n)).2
      (.struct 0 "Empty" [])).grows
    rw [BuildStep.outcome_of_ok happly] at hgrows
    rw [hcalls, BuildStep.run_concat, BuildStep.outcome_of_ok happly]
    refine ⟨Nat.lt_of_lt_of_le hfile hgrows.files, ?_, ?_⟩
    · rw [hstructs, Array.size_push, hsize]
    · rw [hstructs, Array.toList_push]
      intro t ht
      rcases List.mem_append.mp ht with ht | ht
      · exact hempty t ht
      · rw [List.mem_singleton.mp ht, hfields]
        rfl

/-- Where ids come round, the next type has the id of the first one. -/
theorem misnamed_emptyTypes {n : Nat} (hn : 0 < n) (hround : n % idModulus = 0) :
    ∃ next decl, addStruct (BuildStep.run .empty (emptyTypes n)).2 0 "Late" (wideLines 1) =
        .ok (next, decl.id) ∧
      (next.files[0]?.bind (·.decls.getLast?)) = some (.struct decl) ∧
      fieldNamed next decl.id "b" = .error (.noField "b") ∧
      decl.fieldNamed? "b" = some ⟨decl.id, 1⟩ := by
  obtain ⟨hfile, hsize, hempty⟩ := run_emptyTypes n
  obtain ⟨next, ty, hadd, hdecl, hstructs, -⟩ := addStruct_eq hfile "Late" (wideLines 1)
  rw [hsize, hround] at hadd hdecl
  have hlt : 0 < (BuildStep.run .empty (emptyTypes n)).2.structs.size := by
    rw [hsize]
    exact hn
  -- id 0 still names the first type, which has no field
  have hfirst := hempty _ (Array.getElem_mem_toList hlt)
  have hty := Array.getElem?_push_lt (x := ty) hlt
  rw [← hstructs] at hty
  refine ⟨next, _, hadd, hdecl, ?_, ?_⟩
  · simp only [fieldNamed, hty, hfirst, List.findIdx?_nil]
  · rw [fieldNamed?_specLines (by decide), findIdx?_wideLines Nat.zero_lt_one]
    rfl

/-- In a type with 2^32 fields and one more the last one is found at the index of the
    first, by either search. Where there are 2^32 types, the field of the next one is
    found on its lines only. -/
theorem wideLines_misnamed :
    (∃ next decl ty, addStruct storeFile 0 "Wide" (wideLines idModulus) = .ok (next, decl.id) ∧
      (next.files[0]?.bind (·.decls.getLast?)) = some (.struct decl) ∧
      next.structs[decl.id]? = some ty ∧
      fieldNamed next decl.id "b" = .ok ⟨decl.id, 0⟩ ∧
      decl.fieldNamed? "b" = some ⟨decl.id, 0⟩ ∧ (ty.fields[0]?).map (·.name) = some "a") ∧
    ∃ next decl,
      addStruct (BuildStep.run .empty (emptyTypes idModulus)).2 0 "Late" (wideLines 1) =
        .ok (next, decl.id) ∧
      (next.files[0]?.bind (·.decls.getLast?)) = some (.struct decl) ∧
      fieldNamed next decl.id "b" = .error (.noField "b") ∧
      decl.fieldNamed? "b" = some ⟨decl.id, 1⟩ :=
  ⟨misnamed_wideLines (by decide) (by decide) (by decide) (Nat.mod_self idModulus),
    misnamed_emptyTypes (by decide) (Nat.mod_self idModulus)⟩

end LockDiscipline
