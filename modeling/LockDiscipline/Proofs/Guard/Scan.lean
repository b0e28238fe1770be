import LockDiscipline.Guard.Resolution
import LockDiscipline.Proofs.Places

/- Where locks are declared. A lock stands at a site: a file in scope, a
   declaration of the file and, for fields, a line of the struct. The locks are
   read in the order of their sites (`pairwise_scan`), and all of them are
   (`mem_scan`). `Declares` says what a site declares without the functions that
   read it: which types are locks, and what names stand for. -/
namespace LockDiscipline

/-! ## Types that are locks -/

/-- The type is a lock of this kind, behind any number of pointers. -/
inductive TypeExpr.IsLock : TypeExpr → LockKind → Prop
  | exclusive : IsLock (.named (some "sync") "Mutex") .exclusive
  | readWrite : IsLock (.named (some "sync") "RWMutex") .readWrite
  | pointer {ty : TypeExpr} {kind : LockKind} (target : IsLock ty kind) : IsLock (.pointer ty) kind

theorem TypeExpr.lockKind?_eq_some_iff {ty : TypeExpr} {kind : LockKind} :
    ty.lockKind? = some kind ↔ ty.IsLock kind := by
  constructor
  · intro h
    fun_induction lockKind? ty with
    | case1 ty ih => exact .pointer (ih h)
    | case2 =>
      cases h
      exact .exclusive
    | case3 =>
      cases h
      exact .readWrite
    | case4 => cases h
  · intro h
    induction h with
    | exclusive => rfl
    | readWrite => rfl
    | pointer _ ih => exact ih

/-! ## What names stand for -/

/-- In the files of the package, the first variable declared as `name` is `id`. -/
def Program.DeclaresVar (p : Program) (package : Nat) (name : String) (id : Nat) : Prop :=
  ∃ earlier v later,
    (p.snapshot.files.toList.filter (·.package == package)).flatMap SourceFile.decls =
      earlier ++ .var v :: later ∧
    v.name = name ∧ v.global = id ∧ ∀ w, .var w ∈ earlier → w.name ≠ name

theorem Program.packageVar?_eq_some_iff {p : Program} {package : Nat} {name : String} {id : Nat} :
    p.packageVar? package name = some id ↔ p.DeclaresVar package name id := by
  rw [packageVar?, List.findSome?_eq_some_iff]
  constructor
  · rintro ⟨earlier, decl, later, hsplit, hdecl, hearlier⟩
    cases decl with
    | struct s => cases hdecl
    | var v =>
      simp only [beq_iff_eq, Option.ite_none_right_eq_some, Option.some.injEq] at hdecl
      refine ⟨earlier, v, later, hsplit, hdecl.1, hdecl.2, ?_⟩
      intro w hw
      simpa using hearlier _ hw
  · rintro ⟨earlier, v, later, hsplit, hname, hid, hearlier⟩
    refine ⟨earlier, .var v, later, hsplit, by simp [hname, hid], ?_⟩
    intro decl hdecl
    cases decl with
    | struct s => rfl
    | var w => simpa using hearlier w hdecl

/-- On a line of a struct, `name` is the name of the field `index`, or that of
    the type which the line embeds. -/
inductive FieldLine.Addresses (line : FieldLine) (name : String) : Nat → Prop
  | named {place : Nat} (name_eq : line.names[place]? = some name)
      (first : ∀ earlier < place, line.names[earlier]? ≠ some name) :
      Addresses line name ((line.firstIndex + place) % idModulus)
  | embedded (names_eq : line.names = []) (ty : line.ty.embeddedName? = some name) :
      Addresses line name line.firstIndex

theorem findIdx?_beq_eq_some_iff {names : List String} {name : String} {place : Nat} :
    names.findIdx? (· == name) = some place ↔
      names[place]? = some name ∧ ∀ earlier < place, names[earlier]? ≠ some name := by
  rw [List.findIdx?_eq_some_iff_getElem]
  constructor
  · rintro ⟨hlt, hname, hfirst⟩
    refine ⟨List.getElem?_eq_some_iff.mpr ⟨hlt, beq_iff_eq.mp hname⟩, ?_⟩
    intro earlier hearlier hname
    obtain ⟨_, hname⟩ := List.getElem?_eq_some_iff.mp hname
    exact hfirst earlier hearlier (beq_iff_eq.mpr hname)
  · rintro ⟨hname, hfirst⟩
    obtain ⟨hlt, hname⟩ := List.getElem?_eq_some_iff.mp hname
    refine ⟨hlt, beq_iff_eq.mpr hname, ?_⟩
    intro earlier hearlier hname
    exact hfirst earlier hearlier
      (List.getElem?_eq_some_iff.mpr ⟨Nat.lt_trans hearlier hlt, beq_iff_eq.mp hname⟩)

theorem FieldLine.indexOf?_eq_some_iff {line : FieldLine} {name : String} {index : Nat} :
    line.indexOf? name = some index ↔ line.Addresses name index := by
  unfold indexOf? isEmbedded
  constructor
  · intro h
    split at h
    · next hnames =>
      rw [Option.ite_none_right_eq_some, Option.some.injEq] at h
      rw [← h.2]
      exact .embedded (List.isEmpty_iff.mp hnames) h.1
    · obtain ⟨place, hplace, rfl⟩ := Option.map_eq_some_iff.mp h
      obtain ⟨hname, hfirst⟩ := findIdx?_beq_eq_some_iff.mp hplace
      exact .named hname hfirst
  · intro h
    cases h with
    | @named place name_eq first =>
      have hnames : line.names.isEmpty = false := by
        rw [List.isEmpty_eq_false_iff]
        intro hnil
        rw [hnil] at name_eq
        cases name_eq
      rw [hnames, findIdx?_beq_eq_some_iff.mpr ⟨name_eq, first⟩]
      rfl
    | embedded names_eq ty => simp [names_eq, ty]

/-- In the struct declaration, `name` stands for the field `ref`; the first line
    that has the name decides. -/
def StructDecl.DeclaresField (s : StructDecl) (name : String) (ref : FieldRef) : Prop :=
  ∃ earlier line later index, s.fields = earlier ++ line :: later ∧ line.Addresses name index ∧
    ref = ⟨s.id, index⟩ ∧ ∀ e ∈ earlier, ∀ i, ¬ e.Addresses name i

theorem StructDecl.fieldNamed?_eq_some_iff {s : StructDecl} {name : String} {ref : FieldRef} :
    s.fieldNamed? name = some ref ↔ s.DeclaresField name ref := by
  have hnone : ∀ line : FieldLine, line.indexOf? name = none ↔ ∀ i, ¬ line.Addresses name i := by
    intro line
    simp only [Option.eq_none_iff_forall_ne_some, ne_eq, FieldLine.indexOf?_eq_some_iff]
  rw [fieldNamed?, List.findSome?_eq_some_iff]
  simp only [Option.map_eq_some_iff, Option.map_eq_none_iff, hnone, FieldLine.indexOf?_eq_some_iff]
  constructor
  · rintro ⟨earlier, line, later, hsplit, ⟨index, hindex, rfl⟩, hearlier⟩
    exact ⟨earlier, line, later, index, hsplit, hindex, rfl, hearlier⟩
  · rintro ⟨earlier, line, later, index, hsplit, hindex, rfl, hearlier⟩
    exact ⟨earlier, line, later, hsplit, ⟨index, hindex, rfl⟩, hearlier⟩

/-! ## Sites -/

/-- A place for a lock: a file, a declaration of it and a line of that, each by
    its place. A variable declaration has the one line 0. -/
structure LockSite where
  file : Nat
  decl : Nat
  line : Nat

namespace LockSite

/-- The site is read before the other. -/
def Before (a b : LockSite) : Prop :=
  a.file < b.file ∨ a.file = b.file ∧ (a.decl < b.decl ∨ a.decl = b.decl ∧ a.line < b.line)

/-- The site declares a lock of the discipline: in a file in scope, a variable
    whose type is a lock, or a field line whose type is one. Names stand for
    the variables of the package or for the fields of the struct. -/
inductive Declares (p : Program) (site : LockSite) : Discipline → LockDecl → Prop
  | var {f : SourceFile} {v : VarDecl} {ty : TypeExpr} {kind : LockKind}
      {resolve? : String → Option Location}
      (file : p.snapshot.files[site.file]? = some f) (scope : p.inScope f.package = true)
      (decl : f.decls[site.decl]? = some (.var v)) (line : site.line = 0)
      (ty_eq : v.ty = some ty) (lock : ty.IsLock kind)
      (names : ∀ name l, resolve? name = some l ↔
        ∃ id, p.DeclaresVar f.package name id ∧ l = .global id) :
      Declares p site .globals ⟨⟨.global v.global, kind, v.pos⟩, resolve?⟩
  | field {f : SourceFile} {s : StructDecl} {fields : FieldLine} {kind : LockKind}
      {resolve? : String → Option Location}
      (file : p.snapshot.files[site.file]? = some f) (scope : p.inScope f.package = true)
      (decl : f.decls[site.decl]? = some (.struct s)) (line : s.fields[site.line]? = some fields)
      (lock : fields.ty.IsLock kind)
      (names : ∀ name l, resolve? name = some l ↔
        ∃ ref, s.DeclaresField name ref ∧ l = .field ref) :
      Declares p site .fields ⟨⟨.field ⟨s.id, fields.firstIndex⟩, kind, fields.pos⟩, resolve?⟩

end LockSite

namespace Discipline

/-- The locks that a declaration declares, with their lines. -/
def lockLines (d : Discipline) (p : Program) (package : Nat) : Declaration → List (LockDecl × Nat)
  | .var v =>
    match d with
    | .globals => (v.lockDecl? p package).toList.map (·, 0)
    | .fields => []
  | .struct s =>
    match d with
    | .globals => []
    | .fields => s.fields.zipIdx.filterMap fun x => (s.lockDecl? x.1).map (·, x.2)

/-- The lock declarations with their sites, in the order in which they are read. -/
def scan (d : Discipline) (p : Program) : List (LockSite × LockDecl) :=
  (p.snapshot.files.toList.zipIdx.filter fun f => p.inScope f.1.package).flatMap fun f =>
    f.1.decls.zipIdx.flatMap fun x =>
      (d.lockLines p f.1.package x.1).map fun y => (⟨f.2, x.2, y.2⟩, y.1)

variable (d : Discipline) (p : Program)

theorem map_lockLines (package : Nat) (decl : Declaration) :
    (d.lockLines p package decl).map Prod.fst = d.lockDeclsOf p package decl := by
  cases decl with
  | var v =>
    cases d with
    | globals =>
      rw [lockLines, lockDeclsOf, List.map_map]
      exact List.map_id _
    | fields => rfl
  | struct s =>
    cases d with
    | globals => rfl
    | fields =>
      rw [lockLines, lockDeclsOf, List.map_filterMap]
      have hfields := List.filterMap_map (f := Prod.fst) (l := s.fields.zipIdx) (g := s.lockDecl?)
      rw [List.zipIdx_map_fst] at hfields
      rw [hfields]
      refine List.filterMap_congr ?_
      intro x _
      cases hx : s.lockDecl? x.1 <;> simp [hx]

/-- The scan reads the lock declarations of the program. -/
theorem map_scan : (d.scan p).map Prod.snd = d.lockDecls p := by
  rw [scan, lockDecls, Program.filesInScope, List.map_flatMap,
    ← map_fst_filter_zipIdx p.snapshot.files.toList fun f => p.inScope f.package, List.flatMap_map]
  refine List.flatMap_congr ?_
  intro f _
  rw [List.map_flatMap]
  nth_rewrite 2 [← List.zipIdx_map_fst 0 f.1.decls]
  rw [List.flatMap_map]
  refine List.flatMap_congr ?_
  intro x _
  rw [List.map_map, ← map_lockLines]
  rfl

theorem pairwise_lockLines (package : Nat) (decl : Declaration) :
    (d.lockLines p package decl).Pairwise fun a b => a.2 < b.2 := by
  cases decl with
  | var v =>
    cases d with
    | globals =>
      rw [lockLines]
      cases v.lockDecl? p package with
      | none => exact .nil
      | some lock => exact List.pairwise_singleton _ _
    | fields => exact .nil
  | struct s =>
    cases d with
    | globals => exact .nil
    | fields =>
      rw [lockLines, List.pairwise_filterMap]
      refine (pairwise_zipIdx s.fields).imp ?_
      intro x y hxy a ha b hb
      obtain ⟨_, -, rfl⟩ := Option.map_eq_some_iff.mp ha
      obtain ⟨_, -, rfl⟩ := Option.map_eq_some_iff.mp hb
      exact hxy

/-- The scan goes from site to site in their order. -/
theorem pairwise_scan : (d.scan p).Pairwise fun a b => a.1.Before b.1 := by
  rw [scan, List.pairwise_flatMap]
  constructor
  · intro f _
    rw [List.pairwise_flatMap]
    constructor
    · intro x _
      rw [List.pairwise_map]
      exact (d.pairwise_lockLines p f.1.package x.1).imp fun hlt => .inr ⟨rfl, .inr ⟨rfl, hlt⟩⟩
    · refine (pairwise_zipIdx f.1.decls).imp ?_
      intro x y hxy a ha b hb
      obtain ⟨_, -, rfl⟩ := List.mem_map.mp ha
      obtain ⟨_, -, rfl⟩ := List.mem_map.mp hb
      exact .inr ⟨rfl, .inl hxy⟩
  · refine ((pairwise_zipIdx _).sublist List.filter_sublist).imp ?_
    intro f g hfg a ha b hb
    obtain ⟨_, -, ha⟩ := List.mem_flatMap.mp ha
    obtain ⟨_, -, rfl⟩ := List.mem_map.mp ha
    obtain ⟨_, -, hb⟩ := List.mem_flatMap.mp hb
    obtain ⟨_, -, rfl⟩ := List.mem_map.mp hb
    exact .inl hfg

variable {d p}

theorem mem_scan_iff_lines {site : LockSite} {lock : LockDecl} :
    (site, lock) ∈ d.scan p ↔ ∃ f decl, p.snapshot.files[site.file]? = some f ∧
      p.inScope f.package = true ∧ f.decls[site.decl]? = some decl ∧
      (lock, site.line) ∈ d.lockLines p f.package decl := by
  obtain ⟨file, place, line⟩ := site
  simp only [scan, List.mem_flatMap, List.mem_filter, List.mem_zipIdx_iff_getElem?, List.mem_map,
    Prod.exists, Prod.mk.injEq, LockSite.mk.injEq, Array.getElem?_toList]
  constructor
  · rintro ⟨f, _, ⟨hf, hscope⟩, decl, _, hdecl, lock, _, hlock, ⟨rfl, rfl, rfl⟩, rfl⟩
    exact ⟨f, decl, hf, hscope, hdecl, hlock⟩
  · rintro ⟨f, decl, hf, hscope, hdecl, hlock⟩
    exact ⟨f, file, ⟨hf, hscope⟩, decl, place, hdecl, lock, line, hlock, ⟨rfl, rfl, rfl⟩, rfl⟩

end Discipline

/-- Two functions that resolve names alike are one. -/
theorem resolve?_eq {resolve resolve' : String → Option Location} {R : String → Location → Prop}
    (h : ∀ name l, resolve name = some l ↔ R name l)
    (h' : ∀ name l, resolve' name = some l ↔ R name l) : resolve = resolve' := by
  funext name
  exact Option.ext fun l => (h name l).trans (h' name l).symm

theorem VarDecl.lockDecl?_eq_some_iff {p : Program} {package : Nat} {v : VarDecl}
    {lock : LockDecl} :
    v.lockDecl? p package = some lock ↔ ∃ ty kind, v.ty = some ty ∧ ty.IsLock kind ∧
      lock.guard = ⟨.global v.global, kind, v.pos⟩ ∧
      ∀ name l, lock.resolve? name = some l ↔
        ∃ id, p.DeclaresVar package name id ∧ l = .global id := by
  have hnames : ∀ name l, (p.packageVar? package name).map Location.global = some l ↔
      ∃ id, p.DeclaresVar package name id ∧ l = .global id := by
    intro name l
    simp only [Option.map_eq_some_iff, Program.packageVar?_eq_some_iff, eq_comm (a := l)]
  simp only [lockDecl?, Option.map_eq_some_iff, Option.bind_eq_some_iff,
    TypeExpr.lockKind?_eq_some_iff]
  constructor
  · rintro ⟨kind, ⟨ty, hty, hkind⟩, rfl⟩
    exact ⟨ty, kind, hty, hkind, rfl, hnames⟩
  · rintro ⟨ty, kind, hty, hkind, hguard, hresolve⟩
    refine ⟨kind, ⟨ty, hty, hkind⟩, ?_⟩
    obtain ⟨guard, resolve?⟩ := lock
    simp only at hguard hresolve
    rw [hguard, resolve?_eq hresolve hnames]

theorem StructDecl.lockDecl?_eq_some_iff {s : StructDecl} {line : FieldLine} {lock : LockDecl} :
    s.lockDecl? line = some lock ↔ ∃ kind, line.ty.IsLock kind ∧
      lock.guard = ⟨.field ⟨s.id, line.firstIndex⟩, kind, line.pos⟩ ∧
      ∀ name l, lock.resolve? name = some l ↔
        ∃ ref, s.DeclaresField name ref ∧ l = .field ref := by
  have hnames : ∀ name l, (s.fieldNamed? name).map Location.field = some l ↔
      ∃ ref, s.DeclaresField name ref ∧ l = .field ref := by
    intro name l
    simp only [Option.map_eq_some_iff, fieldNamed?_eq_some_iff, eq_comm (a := l)]
  simp only [lockDecl?, Option.map_eq_some_iff, TypeExpr.lockKind?_eq_some_iff]
  constructor
  · rintro ⟨kind, hkind, rfl⟩
    exact ⟨kind, hkind, rfl, hnames⟩
  · rintro ⟨kind, hkind, hguard, hresolve⟩
    refine ⟨kind, hkind, ?_⟩
    obtain ⟨guard, resolve?⟩ := lock
    simp only at hguard hresolve
    rw [hguard, resolve?_eq hresolve hnames]

/-- The scan finds what the sites declare. -/
theorem Discipline.mem_scan {d : Discipline} {p : Program} {site : LockSite} {lock : LockDecl} :
    (site, lock) ∈ d.scan p ↔ site.Declares p d lock := by
  rw [mem_scan_iff_lines]
  constructor
  · rintro ⟨f, decl, hf, hscope, hdecl, hlock⟩
    obtain ⟨guard, resolve?⟩ := lock
    cases decl with
    | var v =>
      cases d with
      | fields => cases hlock
      | globals =>
        obtain ⟨_, hlock, heq⟩ := List.mem_map.mp hlock
        obtain ⟨rfl, hline⟩ := Prod.mk.inj heq
        obtain ⟨ty, kind, hty, hkind, hguard, hnames⟩ :=
          VarDecl.lockDecl?_eq_some_iff.mp (Option.mem_toList.mp hlock)
        simp only at hguard
        subst hguard
        exact .var hf hscope hdecl hline.symm hty hkind hnames
    | struct s =>
      cases d with
      | globals => cases hlock
      | fields =>
        obtain ⟨x, hx, hlock⟩ := List.mem_filterMap.mp hlock
        obtain ⟨_, hlock, heq⟩ := Option.map_eq_some_iff.mp hlock
        obtain ⟨rfl, hline⟩ := Prod.mk.inj heq
        obtain ⟨kind, hkind, hguard, hnames⟩ := StructDecl.lockDecl?_eq_some_iff.mp hlock
        simp only at hguard
        subst hguard
        rw [List.mem_zipIdx_iff_getElem?, hline] at hx
        exact .field hf hscope hdecl hx hkind hnames
  · intro h
    cases h with
    | @var f v ty kind resolve? file scope decl line ty_eq lock names =>
      refine ⟨f, .var v, file, scope, decl, ?_⟩
      rw [line]
      refine List.mem_map.mpr ⟨_, Option.mem_toList.mpr ?_, rfl⟩
      exact VarDecl.lockDecl?_eq_some_iff.mpr ⟨ty, kind, ty_eq, lock, rfl, names⟩
    | @field f s fields kind resolve? file scope decl line lock names =>
      refine ⟨f, .struct s, file, scope, decl, ?_⟩
      refine List.mem_filterMap.mpr ⟨(fields, site.line), List.mem_zipIdx_iff_getElem?.mpr line, ?_⟩
      exact Option.map_eq_some_iff.mpr
        ⟨_, StructDecl.lockDecl?_eq_some_iff.mpr ⟨kind, lock, rfl, names⟩, rfl⟩

end LockDiscipline
