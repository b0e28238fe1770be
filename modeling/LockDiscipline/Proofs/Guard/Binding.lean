import LockDiscipline.Proofs.Guard.Scan

/- What resolution makes of the annotations. Each lock declaration claims the
   locations that its annotation names, up to the first name that stands for
   nothing; a location goes to the first declaration that claims it
   (`get?_resolve`), and each declaration leaves at most one warning
   (`warnings_resolve`). -/
namespace LockDiscipline

/-! ## The guard map -/

namespace GuardMap

theorem lookup_eq_none_of_before {l : Location} {entries : List (Location × Guard)}
    (h : ∀ e ∈ entries, l.before e.1 = true) : entries.lookup l = none := by
  rw [List.lookup_eq_none_iff]
  intro e he
  rw [bne_iff_ne]
  rintro rfl
  have := h e he
  rw [Location.before_irrefl] at this
  cases this

/-- An entry that is put in is found where nothing was found before. -/
theorem lookup_insertEntry {entries : List (Location × Guard)} (h : Ordered entries)
    (l l' : Location) (g : Guard) :
    (insertEntry l g entries).lookup l' =
      (entries.lookup l').or (if l' = l then some g else none) := by
  induction entries with
  | nil =>
    rw [insertEntry, lookup_cons_eq, List.lookup_nil, Option.none_or]
  | cons e rest ih =>
    obtain ⟨hhead, hrest⟩ := List.pairwise_cons.mp h
    rw [insertEntry]
    split
    · next hbefore =>
      have hnone : (e :: rest).lookup l = none := by
        refine lookup_eq_none_of_before ?_
        intro x hx
        rcases List.mem_cons.mp hx with rfl | hx
        · exact hbefore
        · exact Location.before_trans hbefore (hhead x hx)
      rw [lookup_cons_eq]
      by_cases hl : l' = l
      · rw [if_pos hl, if_pos hl, hl, hnone, Option.none_or]
      · rw [if_neg hl, if_neg hl, Option.or_none]
    · split
      · next heq =>
        rw [lookup_cons_eq]
        by_cases hl : l' = l
        · rw [if_pos (hl.trans heq), Option.some_or]
        · rw [if_neg hl, Option.or_none]
      · rw [lookup_cons_eq, lookup_cons_eq, ih hrest]
        by_cases hl : l' = e.1
        · rw [if_pos hl, if_pos hl, Option.some_or]
        · rw [if_neg hl, if_neg hl]

theorem get?_insert (m : GuardMap) (l l' : Location) (g : Guard) :
    (m.insert l g).get? l' = (m.get? l').or (if l' = l then some g else none) :=
  lookup_insertEntry m.ordered l l' g

/-- The map has the entries that are found in it. -/
theorem mem_entries_iff {m : GuardMap} {l : Location} {g : Guard} :
    (l, g) ∈ m.entries ↔ m.get? l = some g := by
  rw [get?, List.lookup_eq_some_iff]
  constructor
  · intro h
    obtain ⟨earlier, later, hsplit⟩ := List.append_of_mem h
    refine ⟨earlier, later, hsplit, ?_⟩
    intro e he
    have hordered := m.ordered
    rw [hsplit] at hordered
    have hbefore := (List.pairwise_append.mp hordered).2.2 e he _ List.mem_cons_self
    rw [bne_iff_ne]
    rintro rfl
    rw [Location.before_irrefl] at hbefore
    cases hbefore
  · intro h
    obtain ⟨earlier, later, hsplit, -⟩ := h
    simp [hsplit]

end GuardMap

/-! ## What a declaration claims -/

namespace LockDecl

variable (p : Program) (decl : LockDecl)

/-- The annotation on the line of the declaration. -/
def note : LockNote := LockNote.parse (p.commentAt decl.guard.pos)

/-- The name stands for something where the lock is declared. -/
def Resolves (name : String) : Prop := ∃ l, decl.resolve? name = some l

/-- `resolved` is the longest prefix of `names` whose names all resolve. -/
structure ResolvedPrefix (names resolved : List String) : Prop where
  begins : resolved <+: names
  resolves : ∀ name ∈ resolved, decl.Resolves name
  longest : ∀ other, other <+: names → (∀ name ∈ other, decl.Resolves name) →
    other.length ≤ resolved.length

/-- The annotation names the location in its resolved prefix. -/
def Claims (l : Location) : Prop :=
  ∃ names resolved name, decl.note p = .names names ∧ decl.ResolvedPrefix names resolved ∧
    name ∈ resolved ∧ decl.resolve? name = some l

/-- The warning about the annotation: that there is none, or its first name that
    does not resolve. -/
def warning? : Option Warning :=
  match decl.note p with
  | .missing => some (.missingNote decl.guard.pos)
  | .optOut => none
  | .names names =>
    (names.find? fun name => (decl.resolve? name).isNone).map (.unresolvedName decl.guard.pos)

/-- The names of the annotation up to the first that does not resolve. -/
def boundNames (names : List String) : List String :=
  names.takeWhile fun name => (decl.resolve? name).isSome

theorem isSome_resolve?_iff {name : String} :
    (decl.resolve? name).isSome = true ↔ decl.Resolves name := Option.isSome_iff_exists

theorem resolvedPrefix_boundNames (names : List String) :
    decl.ResolvedPrefix names (decl.boundNames names) := by
  refine ⟨List.takeWhile_prefix _, ?_, ?_⟩
  · intro name hname
    rw [← isSome_resolve?_iff]
    exact List.all_eq_true.mp (List.all_takeWhile) name hname
  · rintro other ⟨rest, rfl⟩ hother
    have hall : ∀ name ∈ other, (decl.resolve? name).isSome = true :=
      fun name hname => decl.isSome_resolve?_iff.mpr (hother name hname)
    rw [boundNames, List.takeWhile_append_of_pos hall, List.length_append]
    exact Nat.le_add_right _ _

theorem ResolvedPrefix.eq {names resolved : List String} {decl : LockDecl}
    (h : decl.ResolvedPrefix names resolved) : resolved = decl.boundNames names := by
  have hbound := decl.resolvedPrefix_boundNames names
  have hlength : resolved.length = (decl.boundNames names).length :=
    Nat.le_antisymm (hbound.longest _ h.begins h.resolves) (h.longest _ hbound.begins hbound.resolves)
  exact (List.prefix_of_prefix_length_le h.begins hbound.begins (Nat.le_of_eq hlength)).eq_of_length
    hlength

/-- One of the names that are bound stands for the location. -/
def binds (l : Location) : Bool :=
  match decl.note p with
  | .names names => (decl.boundNames names).any fun name => decl.resolve? name == some l
  | _ => false

theorem binds_iff {l : Location} : decl.binds p l = true ↔ decl.Claims p l := by
  unfold binds
  constructor
  · intro h
    split at h
    · next names hnote =>
      obtain ⟨name, hname, hl⟩ := List.any_eq_true.mp h
      exact ⟨names, _, name, hnote, decl.resolvedPrefix_boundNames names, hname, beq_iff_eq.mp hl⟩
    · cases h
  · rintro ⟨names, resolved, name, hnote, hresolved, hname, hl⟩
    rw [hnote]
    rw [hresolved.eq] at hname
    exact List.any_eq_true.mpr ⟨name, hname, beq_iff_eq.mpr hl⟩

/-- The lock that the declaration gives to the location. -/
def offer? (l : Location) : Option Guard := if decl.binds p l then some decl.guard else none

end LockDecl

/-! ## One declaration after the other -/

namespace Resolution

variable (p : Program)

theorem get?_bindNames (decl : LockDecl) (r : Resolution) (names : List String) (l : Location) :
    (bindNames decl r names).guards.get? l = (r.guards.get? l).or
      (if (decl.boundNames names).any fun name => decl.resolve? name == some l then some decl.guard
        else none) := by
  induction names generalizing r with
  | nil => simp [bindNames, LockDecl.boundNames]
  | cons name names ih =>
    rw [bindNames]
    split
    · next hname => simp [LockDecl.boundNames, hname]
    · next l' hname =>
      rw [ih, GuardMap.get?_insert, Option.or_assoc]
      congr 1
      by_cases hl : l = l'
      · subst hl
        simp [LockDecl.boundNames, hname]
      · simp [LockDecl.boundNames, hname, hl, Ne.symm hl]

theorem warnings_bindNames (decl : LockDecl) (r : Resolution) (names : List String) :
    (bindNames decl r names).warnings = r.warnings ++
      ((names.find? fun name => (decl.resolve? name).isNone).map
        (Warning.unresolvedName decl.guard.pos)).toList := by
  induction names generalizing r with
  | nil => simp [bindNames]
  | cons name names ih =>
    rw [bindNames]
    split
    · next hname => simp [hname]
    · next l hname => simp [ih, hname]

/-- A declaration guards what it claims and nothing guards yet. -/
theorem get?_bind (r : Resolution) (decl : LockDecl) (l : Location) :
    (bind p.commentIndex r decl).guards.get? l = (r.guards.get? l).or (decl.offer? p l) := by
  unfold bind LockDecl.offer? LockDecl.binds LockDecl.note Program.commentAt
  cases LockNote.parse (p.commentIndex.textAt decl.guard.pos) with
  | missing => simp
  | optOut => simp
  | names names => exact get?_bindNames decl r names l

theorem warnings_bind (r : Resolution) (decl : LockDecl) :
    (bind p.commentIndex r decl).warnings = r.warnings ++ (decl.warning? p).toList := by
  unfold bind LockDecl.warning? LockDecl.note Program.commentAt
  cases LockNote.parse (p.commentIndex.textAt decl.guard.pos) with
  | missing => simp
  | optOut => simp
  | names names => exact warnings_bindNames decl r names

theorem get?_foldl (decls : List LockDecl) (r : Resolution) (l : Location) :
    (decls.foldl (bind p.commentIndex) r).guards.get? l =
      (r.guards.get? l).or (decls.findSome? fun decl => decl.offer? p l) := by
  induction decls generalizing r with
  | nil => simp
  | cons decl decls ih =>
    rw [List.foldl_cons, ih, get?_bind, List.findSome?_cons, Option.or_assoc]
    cases decl.offer? p l <;> rfl

theorem warnings_foldl (decls : List LockDecl) (r : Resolution) :
    (decls.foldl (bind p.commentIndex) r).warnings = r.warnings ++ decls.filterMap (LockDecl.warning? p) := by
  induction decls generalizing r with
  | nil => simp
  | cons decl decls ih =>
    rw [List.foldl_cons, ih, warnings_bind, List.append_assoc, List.filterMap_cons]
    cases decl.warning? p <;> rfl

end Resolution

namespace Discipline

variable (d : Discipline) (p : Program)

/-- The first declaration that claims a location guards it. -/
theorem get?_resolve (l : Location) :
    (d.resolve p).guards.get? l = (d.lockDecls p).findSome? fun decl => decl.offer? p l := by
  rw [resolve, Resolution.get?_foldl]
  exact Option.none_or

/-- What is guarded is guarded by a lock that some site declares and whose
    annotation has a name for it. -/
theorem exists_declares {e : Location × Guard} (h : e ∈ (d.resolve p).guards.entries) :
    ∃ site decl, LockSite.Declares p site d decl ∧ decl.guard = e.2 ∧
      ∃ name, decl.resolve? name = some e.1 := by
  rw [GuardMap.mem_entries_iff, get?_resolve] at h
  obtain ⟨decl, hdecl, hoffer⟩ := List.exists_of_findSome?_eq_some h
  rw [← map_scan] at hdecl
  obtain ⟨⟨site, _⟩, hscan, rfl⟩ := List.mem_map.mp hdecl
  rw [LockDecl.offer?, Option.ite_none_right_eq_some, LockDecl.binds_iff, Option.some.injEq] at hoffer
  obtain ⟨⟨_, _, name, -, -, -, hname⟩, hguard⟩ := hoffer
  exact ⟨site, _, mem_scan.mp hscan, hguard, name, hname⟩

theorem warnings_resolve :
    (d.resolve p).warnings = (d.lockDecls p).filterMap (LockDecl.warning? p) := by
  rw [resolve, Resolution.warnings_foldl]
  exact List.nil_append _

end Discipline

/-- Resolution guards exactly the locations that declarations claim, each by the
    first one that claims it, and warns exactly about the annotations that are
    missing or have a name that does not resolve, in the order of the sites. -/
theorem resolve_exact (d : Discipline) (p : Program) :
    ∃ scan : List (LockSite × LockDecl),
      (∀ site decl, (site, decl) ∈ scan ↔ site.Declares p d decl) ∧
      scan.Pairwise (fun a b => a.1.Before b.1) ∧
      (∀ l guard, (d.resolve p).guards.get? l = some guard ↔
        ∃ earlier site decl later, scan = earlier ++ (site, decl) :: later ∧
          decl.Claims p l ∧ decl.guard = guard ∧ ∀ e ∈ earlier, ¬ e.2.Claims p l) ∧
      (d.resolve p).warnings = scan.filterMap fun e => e.2.warning? p := by
  refine ⟨d.scan p, fun site decl => Discipline.mem_scan, d.pairwise_scan p, ?_, ?_⟩
  · intro l guard
    have hoffer : ∀ decl : LockDecl, decl.offer? p l = some guard ↔
        decl.Claims p l ∧ decl.guard = guard := by
      intro decl
      rw [LockDecl.offer?, Option.ite_none_right_eq_some, LockDecl.binds_iff, Option.some.injEq]
    have hnone : ∀ decl : LockDecl, decl.offer? p l = none ↔ ¬ decl.Claims p l := by
      intro decl
      rw [LockDecl.offer?, ← LockDecl.binds_iff]
      simp
    rw [d.get?_resolve, ← d.map_scan, List.findSome?_map, List.findSome?_eq_some_iff]
    simp only [Function.comp_apply, hoffer, hnone]
    constructor
    · rintro ⟨earlier, ⟨site, decl⟩, later, hsplit, ⟨hclaims, hguard⟩, hearlier⟩
      exact ⟨earlier, site, decl, later, hsplit, hclaims, hguard, hearlier⟩
    · rintro ⟨earlier, site, decl, later, hsplit, hclaims, hguard, hearlier⟩
      exact ⟨earlier, (site, decl), later, hsplit, ⟨hclaims, hguard⟩, hearlier⟩
  · rw [d.warnings_resolve, ← d.map_scan, List.filterMap_map]
    rfl

end LockDiscipline
