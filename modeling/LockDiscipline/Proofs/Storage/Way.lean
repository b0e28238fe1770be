import LockDiscipline.Storage.FileTree
import LockDiscipline.Proofs.Storage.Path

/- The places that a path passes. A piece of a path moves from place to place whatever
   stands there (`move`), and `way` lists the places that pieces pass. Where a path leads
   to a folder, folders stand all along its way (`follow?_eq_some`), and an entry of the
   folder is reached by its name (`resolve?_join`). A place that lies above the end of a
   way and not above its start has been passed (`mem_way_of_prefix`). -/
namespace LockDiscipline.FileTree

variable {t : FileTree} {place mid target : List String} {piece : List Char}
  {pieces rest : List (List Char)}

/-- Where a piece leads: nowhere else, to the folder above, or to an entry. -/
def move (place : List String) (piece : List Char) : List String :=
  if Path.isIdle piece then place
  else if piece = ['.', '.'] then place.dropLast
  else place ++ [String.ofList piece]

/-- The places that pieces pass, from the first to the last. -/
def way (place : List String) : List (List Char) → List (List String)
  | [] => [place]
  | piece :: rest => place :: way (move place piece) rest

/-- Where the pieces of a path are followed from. -/
def origin (cwd : List String) (p : Path) : List String := if p.isAbsolute then [] else cwd

/-! ## Places on a way -/

theorem mem_way_self (place : List String) (pieces : List (List Char)) :
    place ∈ way place pieces := by
  cases pieces <;> exact List.mem_cons_self

/-- The places on a way are where the beginnings of its pieces lead. -/
theorem way_eq_map_inits (place : List String) (pieces : List (List Char)) :
    way place pieces = pieces.inits.map (List.foldl move place) := by
  induction pieces generalizing place with
  | nil => rfl
  | cons piece rest ih =>
    rw [way, ih, List.inits_cons, List.map_cons, List.map_map]
    rfl

theorem mem_way_of_beginning {before : List (List Char)} (hbefore : before <+: pieces)
    (h : mid ∈ way place before) : mid ∈ way place pieces := by
  rw [way_eq_map_inits, List.mem_map] at h ⊢
  obtain ⟨first, hfirst, hmid⟩ := h
  refine ⟨first, ?_, hmid⟩
  rw [List.mem_inits] at hfirst ⊢
  exact hfirst.trans hbefore

theorem foldl_mem_way (place : List String) (pieces : List (List Char)) :
    pieces.foldl move place ∈ way place pieces := by
  rw [way_eq_map_inits]
  exact List.mem_map_of_mem ((List.mem_inits _ _).mpr (List.prefix_refl pieces))

theorem move_of_idle (place : List String) (h : Path.isIdle piece = true) :
    move place piece = place :=
  if_pos h

/-- Idle pieces pass no further place. -/
theorem mem_way_filter :
    mid ∈ way place (pieces.filter (!Path.isIdle ·)) ↔ mid ∈ way place pieces := by
  induction pieces generalizing place with
  | nil => rfl
  | cons piece rest ih =>
    by_cases hidle : Path.isIdle piece = true
    · rw [List.filter_cons_of_neg (by simp [hidle]), ih, way, move_of_idle place hidle,
        List.mem_cons]
      refine ⟨.inr, ?_⟩
      intro h
      rcases h with rfl | h
      · exact mem_way_self mid rest
      · exact h
    · rw [List.filter_cons_of_pos (by simp [hidle]), way, way, List.mem_cons, List.mem_cons, ih]

theorem foldl_move_filter (place : List String) (pieces : List (List Char)) :
    (pieces.filter (!Path.isIdle ·)).foldl move place = pieces.foldl move place := by
  induction pieces generalizing place with
  | nil => rfl
  | cons piece rest ih =>
    by_cases hidle : Path.isIdle piece = true
    · rw [List.filter_cons_of_neg (by simp [hidle]), ih, List.foldl_cons, move_of_idle place hidle]
    · rw [List.filter_cons_of_pos (by simp [hidle]), List.foldl_cons, List.foldl_cons, ih]

/-- What follows a place on a way is a way from there to the same end. -/
theorem exists_way_of_split {before after : List (List String)}
    (h : way place pieces = before ++ mid :: after) :
    ∃ rest, way mid rest = mid :: after ∧ rest.foldl move mid = pieces.foldl move place := by
  induction pieces generalizing place before with
  | nil =>
    cases before with
    | nil =>
      obtain ⟨rfl, rfl⟩ := List.cons.inj h
      exact ⟨[], rfl, rfl⟩
    | cons first before =>
      have hnil : [] = before ++ mid :: after := (List.cons.inj h).2
      simp at hnil
  | cons piece rest ih =>
    cases before with
    | nil =>
      obtain ⟨rfl, rfl⟩ := List.cons.inj h
      exact ⟨piece :: rest, rfl, rfl⟩
    | cons first before => exact ih (List.cons.inj h).2

/-- A place above a step is the new place or lies above the old one. -/
theorem prefix_move (h : mid <+: move place piece) : mid = move place piece ∨ mid <+: place := by
  by_cases hidle : Path.isIdle piece = true
  · rw [move_of_idle place hidle] at h
    exact .inr h
  · by_cases hup : piece = ['.', '.']
    · rw [move, if_neg hidle, if_pos hup] at h
      exact .inr (h.trans (List.dropLast_prefix place))
    · rw [move, if_neg hidle, if_neg hup] at h ⊢
      exact List.prefix_concat_iff.mp h

/-- A place that lies above the end of a way and not above its start has been passed. -/
theorem mem_way_of_prefix (hend : mid <+: pieces.foldl move place) (hstart : ¬ mid <+: place) :
    mid ∈ way place pieces := by
  induction pieces generalizing place with
  | nil => exact absurd hend hstart
  | cons piece rest ih =>
    rw [way]
    apply List.mem_cons_of_mem
    by_cases hnext : mid <+: move place piece
    · rw [(prefix_move hnext).resolve_right hstart]
      exact mem_way_self _ rest
    · exact ih hend hnext

theorem prefix_move_of_down (place : List String) (hdown : piece ≠ ['.', '.']) :
    place <+: move place piece := by
  by_cases hidle : Path.isIdle piece = true
  · rw [move_of_idle place hidle]
  · rw [move, if_neg hidle, if_neg hdown]
    exact List.prefix_append place _

/-- Without `..` a way only goes down. -/
theorem prefix_foldl_of_mem_way (hdown : ['.', '.'] ∉ pieces) (h : mid ∈ way place pieces) :
    mid <+: pieces.foldl move place := by
  induction pieces generalizing place mid with
  | nil =>
    rw [way, List.mem_singleton] at h
    rw [h, List.foldl_nil]
  | cons piece rest ih =>
    have hrest : ['.', '.'] ∉ rest := fun hmem => hdown (List.mem_cons_of_mem _ hmem)
    have hpiece : piece ≠ ['.', '.'] := fun hup => hdown (hup ▸ List.mem_cons_self)
    rw [way, List.mem_cons] at h
    rcases h with rfl | h
    · exact (prefix_move_of_down mid hpiece).trans (ih hrest (mem_way_self _ rest))
    · exact ih hrest h

/-! ## Following a path -/

/-- One step: the pieces behind are followed from where the first one leads. -/
theorem follow?_cons_eq_some (h : t.follow? place (piece :: rest) = some target) :
    t.isFolderAt place = true ∧ t.follow? (move place piece) rest = some target := by
  by_cases hplace : t.isFolderAt place = true
  · refine ⟨hplace, ?_⟩
    rw [follow?, if_pos hplace] at h
    by_cases hidle : Path.isIdle piece = true
    · rwa [if_pos hidle, ← move_of_idle place hidle] at h
    · rw [if_neg hidle] at h
      rw [move, if_neg hidle]
      by_cases hup : piece = ['.', '.']
      · rwa [if_pos hup] at h ⊢
      · rw [if_neg hup] at h ⊢
        exact (Option.ite_none_right_eq_some.mp h).2
  · rw [follow?, if_neg hplace] at h
    cases h

theorem at?_isSome_of_isFolderAt (h : t.isFolderAt place = true) : (t.at? place).isSome = true := by
  rw [isFolderAt] at h
  cases hat : t.at? place with
  | none =>
    rw [hat] at h
    cases h
  | some entry => rfl

theorem follow?_cons_of_folders (hplace : t.isFolderAt place = true)
    (hnext : t.isFolderAt (move place piece) = true) :
    t.follow? place (piece :: rest) = t.follow? (move place piece) rest := by
  rw [follow?, if_pos hplace]
  by_cases hidle : Path.isIdle piece = true
  · rw [if_pos hidle, move_of_idle place hidle]
  · rw [move, if_neg hidle] at hnext ⊢
    rw [if_neg hidle]
    by_cases hup : piece = ['.', '.']
    · rw [if_pos hup, if_pos hup]
    · rw [if_neg hup] at hnext
      rw [if_neg hup, if_neg hup]
      exact if_pos (at?_isSome_of_isFolderAt hnext)

/-- Pieces lead where they move to, and to a folder only past folders. -/
theorem follow?_eq_some (h : t.follow? place pieces = some target) :
    target = pieces.foldl move place ∧
      (t.isFolderAt target = true → ∀ mid ∈ way place pieces, t.isFolderAt mid = true) := by
  induction pieces generalizing place with
  | nil =>
    obtain rfl : place = target := Option.some.inj h
    refine ⟨rfl, ?_⟩
    intro hfolder mid hmid
    rwa [List.mem_singleton.mp hmid]
  | cons piece rest ih =>
    obtain ⟨hplace, hrest⟩ := follow?_cons_eq_some h
    obtain ⟨htarget, hway⟩ := ih hrest
    refine ⟨htarget, ?_⟩
    intro hfolder mid hmid
    rcases List.mem_cons.mp hmid with rfl | hmid
    · exact hplace
    · exact hway hfolder mid hmid

theorem follow?_append (h : ∀ mid ∈ way place pieces, t.isFolderAt mid = true) :
    t.follow? place (pieces ++ rest) = t.follow? (pieces.foldl move place) rest := by
  induction pieces generalizing place with
  | nil => rfl
  | cons piece pieces ih =>
    have hnext : ∀ mid ∈ way (move place piece) pieces, t.isFolderAt mid = true :=
      fun mid hmid => h mid (List.mem_cons_of_mem _ hmid)
    rw [List.cons_append, follow?_cons_of_folders (h place List.mem_cons_self)
      (hnext _ (mem_way_self _ pieces)), ih hnext, List.foldl_cons]

/-! ## Paths -/

theorem resolve?_of_text_ne (t : FileTree) (cwd : List String) {p : Path} (h : p.text ≠ "") :
    t.resolve? cwd p = t.follow? (origin cwd p) p.pieces := by
  rw [resolve?, if_neg (by simp [h]), origin]
  by_cases habsolute : p.isAbsolute = true
  · rw [if_pos habsolute, if_pos habsolute]
  · rw [if_neg habsolute, if_neg habsolute]

theorem text_ne_empty_of_resolve? {cwd : List String} {p : Path}
    (h : t.resolve? cwd p = some place) : p.text ≠ "" := by
  intro htext
  rw [resolve?, if_pos (by simp [htext])] at h
  cases h

/-- Where a path leads to a folder, there are folders all along its way. -/
theorem folders_of_resolve? {cwd : List String} {p : Path} (h : t.resolve? cwd p = some place)
    (hplace : t.isFolderAt place = true) :
    place = p.moves.foldl move (origin cwd p) ∧
      ∀ mid ∈ way (origin cwd p) p.moves, t.isFolderAt mid = true := by
  rw [resolve?_of_text_ne t cwd (text_ne_empty_of_resolve? h)] at h
  obtain ⟨htarget, hway⟩ := follow?_eq_some h
  refine ⟨by rw [Path.moves, foldl_move_filter, htarget], ?_⟩
  intro mid hmid
  exact hway hplace mid (mem_way_filter.mp hmid)

/-- A path that is the name of an entry. -/
structure IsEntryName (name : Path) : Prop where
  cut : '/' ∉ name.text.toList
  moving : Path.isIdle name.text.toList = false
  down : name.text.toList ≠ ['.', '.']

theorem IsEntryName.text_ne {name : Path} (h : IsEntryName name) : name.text ≠ "" := by
  intro htext
  have hmoving := h.moving
  rw [htext] at hmoving
  cases hmoving

theorem follow?_name {name : Path} (h : IsEntryName name) (hplace : t.isFolderAt place = true) :
    t.follow? place [name.text.toList] =
      if (t.at? (place ++ [name.text])).isSome then some (place ++ [name.text]) else none := by
  rw [follow?, if_pos hplace, if_neg (by simp [h.moving]), if_neg h.down, String.ofList_toList]
  rfl

/-- An entry of a folder that a path leads to is reached by its name, if it is there. -/
theorem resolve?_join {cwd : List String} {p name : Path} (hname : IsEntryName name)
    (hway : ∀ mid ∈ way (origin cwd p) p.moves, t.isFolderAt mid = true)
    (hplace : place = p.moves.foldl move (origin cwd p)) :
    t.resolve? cwd (p.join name) =
      if (t.at? (place ++ [name.text])).isSome then some (place ++ [name.text]) else none := by
  obtain ⟨before, hpieces, hbefore⟩ := p.exists_pieces_join hname.cut
  have horigin : origin cwd (p.join name) = origin cwd p := by
    rw [origin, origin, p.isAbsolute_join hname.cut]
  have hend : before.foldl move (origin cwd p) = place := by
    rw [← foldl_move_filter, hbefore, hplace]
  have hfolders : ∀ mid ∈ way (origin cwd p) before, t.isFolderAt mid = true := by
    intro mid hmid
    rw [← mem_way_filter, hbefore] at hmid
    exact hway mid hmid
  have hlast : t.isFolderAt place = true := by
    rw [hplace]
    exact hway _ (foldl_mem_way _ _)
  rw [resolve?_of_text_ne t cwd (p.text_join_ne_empty hname.cut hname.text_ne), horigin, hpieces,
    follow?_append hfolders, hend, follow?_name hname hlast]

end LockDiscipline.FileTree
