import LockDiscipline.Manifest.Search
import LockDiscipline.Proofs.Storage.Way

/- The search for the manifest goes up by the text of the start path (`climbs_findIn?`).
   It passes the places on the way of that path backwards, so what it finds is the
   manifest in the last of them that has one (`find?_map_resolve?`). Without `..` these
   places are the start folder and folders above it. With `..` the way comes back out of
   folders that are not above the start, and the search goes down into them again. -/
namespace LockDiscipline.Manifest

open FileTree

/-- The run of a search from a folder: a manifest stands in it, or the search goes on one
    level up, or there is no level above. -/
inductive Climbs (disk : Disk Id) : Path → Option Path → Prop
  | found {folder : Path} (hpresent : (disk.look (folder.join fileName)).run.isPresent = true) :
      Climbs disk folder (some (folder.join fileName))
  | climb {folder up : Path} {result : Option Path}
      (habsent : (disk.look (folder.join fileName)).run.isPresent = false)
      (hup : folder.parent? = some up) (hrest : Climbs disk up result) : Climbs disk folder result
  | top {folder : Path} (habsent : (disk.look (folder.join fileName)).run.isPresent = false)
      (hup : folder.parent? = none) : Climbs disk folder none

/-- A manifest stands in the folder at a place. -/
def holds (t : FileTree) (place : List String) : Bool :=
  (t.at? (place ++ [fileName.text])).isSome

/-- A manifest was found in the folder at `place` or in the nearest one above it that has
    one. -/
def Upward (t : FileTree) (cwd place : List String) (result : Option Path) : Prop :=
  ∀ path, result = some path →
    ∃ folder, t.resolve? cwd path = some (folder ++ [fileName.text]) ∧ folder <+: place ∧
      ∀ mid, folder <+: mid → mid <+: place → mid ≠ folder → holds t mid = false

/-- The last folder with a manifest on the way of a path to `place` is not above `place`. -/
def Strays (t : FileTree) (cwd place : List String) (start : Path) : Prop :=
  ∃ folder, (way (origin cwd start) start.moves).reverse.find? (holds t) = some folder ∧
    ¬ folder <+: place

variable {t : FileTree} {cwd place : List String} {start : Path}

/-! ## The loop -/

theorem findIn?_cons (disk : Disk Id) (folder : Path) (rest : List Path) :
    (findIn? disk (folder :: rest)).run =
      if (disk.look (folder.join fileName)).run.isPresent then some (folder.join fileName)
      else (findIn? disk rest).run := by
  by_cases hpresent : (disk.look (folder.join fileName)).run.isPresent = true
  · rw [if_pos hpresent]
    exact if_pos hpresent
  · rw [if_neg hpresent]
    exact if_neg hpresent

theorem climbs_ite {disk : Disk Id} {folder : Path} {result : Option Path}
    (h : (disk.look (folder.join fileName)).run.isPresent = false → Climbs disk folder result) :
    Climbs disk folder
      (if (disk.look (folder.join fileName)).run.isPresent then some (folder.join fileName)
       else result) := by
  by_cases hpresent : (disk.look (folder.join fileName)).run.isPresent = true
  · rw [if_pos hpresent]
    exact .found hpresent
  · rw [if_neg hpresent]
    exact h (Bool.eq_false_iff.mpr hpresent)

/-- The search ends, and with what the climb by single levels gives. -/
theorem climbs_findIn? (disk : Disk Id) (folder : Path) :
    Climbs disk folder (findIn? disk (folder :: folder.parents)).run := by
  -- by induction on the paths above, which are those above the next one with it in front
  generalize hparents : folder.parents = above
  induction above generalizing folder with
  | nil =>
    have htop : folder.parent? = none := by rw [Path.parent?, hparents, List.head?_nil]
    rw [findIn?_cons]
    exact climbs_ite fun habsent => .top habsent htop
  | cons up above ih =>
    have hup : folder.parent? = some up := by rw [Path.parent?, hparents, List.head?_cons]
    have habove : up.parents = above := by
      have heq := Path.parents_eq hup
      rw [hparents] at heq
      exact (List.cons.inj heq).2.symm
    rw [findIn?_cons]
    exact climbs_ite fun habsent => .climb habsent hup (ih up habove)

/-- A climb ends in one way only. -/
theorem Climbs.unique {disk : Disk Id} {folder : Path} {result other : Option Path}
    (h : Climbs disk folder result) (hother : Climbs disk folder other) : result = other := by
  induction h with
  | found hpresent =>
    cases hother with
    | found => rfl
    | climb habsent => rw [hpresent] at habsent; cases habsent
    | top habsent => rw [hpresent] at habsent; cases habsent
  | climb habsent hup _ ih =>
    cases hother with
    | found hpresent => rw [hpresent] at habsent; cases habsent
    | climb _ hup' hrest =>
      rw [hup, Option.some.injEq] at hup'
      exact ih (hup' ▸ hrest)
    | top _ hup' => rw [hup] at hup'; cases hup'
  | top habsent hup =>
    cases hother with
    | found hpresent => rw [hpresent] at habsent; cases habsent
    | climb _ hup' => rw [hup] at hup'; cases hup'
    | top => rfl

theorem findIn?_eq_find? {disk : Disk Id} {folders : List Path} {p : Path → Bool}
    (h : ∀ folder ∈ folders, (disk.look (folder.join fileName)).run.isPresent = p folder) :
    (findIn? disk folders).run = (folders.find? p).map (·.join fileName) := by
  induction folders with
  | nil => rfl
  | cons folder rest ih =>
    have hrest := ih fun other hother => h other (List.mem_cons_of_mem folder hother)
    rw [findIn?_cons, List.find?_cons, hrest, h folder List.mem_cons_self]
    cases p folder <;> rfl

/-! ## The folders that are searched -/

theorem isEntryName_fileName : IsEntryName fileName := ⟨by decide, by decide, by decide⟩

theorem entry_isPresent (t : FileTree) (cwd : List String) (p : Path) :
    (t.entry cwd p).isPresent = ((t.resolve? cwd p).bind t.at?).isSome := by
  rw [FileTree.entry]
  cases (t.resolve? cwd p).bind t.at? with
  | none => rfl
  | some node => cases node <;> rfl

/-- Where a folder of the search is. -/
def placeOf (cwd : List String) (folder : Path) : List String :=
  folder.moves.foldl move (origin cwd folder)

theorem origin_eq_of_mem (h : start.text ≠ "") {folder : Path}
    (hfolder : folder ∈ start :: start.parents) : origin cwd folder = origin cwd start := by
  rcases List.mem_cons.mp hfolder with rfl | hfolder
  · rfl
  · rw [origin, origin, Path.isAbsolute_of_mem_parents h hfolder]

/-- The search passes the way of the start path backwards. -/
theorem map_placeOf (h : start.text ≠ "") :
    (start :: start.parents).map (placeOf cwd) =
      (way (origin cwd start) start.moves).reverse ++
        List.replicate start.split.1.spare (origin cwd start) := by
  have horigin : (start :: start.parents).map (placeOf cwd) =
      ((start :: start.parents).map Path.moves).map (List.foldl move (origin cwd start)) := by
    rw [List.map_map]
    apply List.map_congr_left
    intro folder hfolder
    rw [placeOf, origin_eq_of_mem h hfolder]
    rfl
  rw [horigin, Path.map_moves_self_parents h, List.map_append, List.map_reverse,
    ← way_eq_map_inits, List.map_replicate, List.foldl_nil]

/-- In a folder of the search, the file is found where it stands. -/
theorem resolve?_join_fileName (hstart : t.resolve? cwd start = some place)
    (hplace : t.isFolderAt place = true) {folder : Path}
    (hfolder : folder ∈ start :: start.parents) :
    t.resolve? cwd (folder.join fileName) =
      if holds t (placeOf cwd folder) then some (placeOf cwd folder ++ [fileName.text])
      else none := by
  have htext := text_ne_empty_of_resolve? hstart
  apply resolve?_join isEntryName_fileName ?_ rfl
  intro mid hmid
  rw [origin_eq_of_mem htext hfolder] at hmid
  exact (folders_of_resolve? hstart hplace).2 mid
    (mem_way_of_beginning (Path.moves_prefix_of_mem htext hfolder) hmid)

theorem look_isPresent (hstart : t.resolve? cwd start = some place)
    (hplace : t.isFolderAt place = true) {folder : Path}
    (hfolder : folder ∈ start :: start.parents) :
    ((t.disk cwd).look (folder.join fileName)).run.isPresent = holds t (placeOf cwd folder) := by
  have hpresent := entry_isPresent t cwd (folder.join fileName)
  rw [resolve?_join_fileName hstart hplace hfolder] at hpresent
  by_cases hholds : holds t (placeOf cwd folder) = true
  · rw [if_pos hholds, Option.bind_some] at hpresent
    exact hpresent
  · rw [if_neg hholds, Option.bind_none] at hpresent
    rw [Bool.eq_false_iff.mpr hholds]
    exact hpresent

theorem entry_eq_folder (hstart : t.resolve? cwd start = some place)
    (hplace : t.isFolderAt place = true) : t.entry cwd start = .folder := by
  rw [FileTree.entry, hstart, Option.bind_some]
  rw [isFolderAt] at hplace
  cases hat : t.at? place with
  | none =>
    rw [hat] at hplace
    cases hplace
  | some node =>
    rw [hat] at hplace
    cases node with
    | text _ => cases hplace
    | unreadable => cases hplace
    | folder _ => rfl

/-- The start is a folder, so the search begins there. -/
theorem find?_run (hstart : t.resolve? cwd start = some place)
    (hplace : t.isFolderAt place = true) :
    (find? (t.disk cwd) start).run = (findIn? (t.disk cwd) (start :: start.parents)).run := by
  change (findIn? (t.disk cwd) (searchFolders start (t.entry cwd start).isFile)).run = _
  rw [entry_eq_folder hstart hplace]
  rfl

/-- Where a way started once more is nothing new. -/
theorem find?_reverse_append_replicate (t : FileTree) (origin : List String)
    (moves : List (List Char)) (n : Nat) :
    ((way origin moves).reverse ++ List.replicate n origin).find? (holds t) =
      (way origin moves).reverse.find? (holds t) := by
  rw [List.find?_append]
  cases hfind : (way origin moves).reverse.find? (holds t) with
  | some folder => rfl
  | none =>
    rw [Option.none_or, List.find?_eq_none]
    intro place hmem
    rw [List.eq_of_mem_replicate hmem]
    exact List.find?_eq_none.mp hfind origin (List.mem_reverse.mpr (mem_way_self origin moves))

/-- What is found is the manifest in the last folder on the way that has one. -/
theorem find?_map_resolve? (hstart : t.resolve? cwd start = some place)
    (hplace : t.isFolderAt place = true) :
    (find? (t.disk cwd) start).run.map (t.resolve? cwd) =
      ((way (origin cwd start) start.moves).reverse.find? (holds t)).map
        fun folder => some (folder ++ [fileName.text]) := by
  have htext := text_ne_empty_of_resolve? hstart
  have hplaces : ((start :: start.parents).map (placeOf cwd)).find? (holds t) =
      (way (origin cwd start) start.moves).reverse.find? (holds t) := by
    rw [map_placeOf htext, find?_reverse_append_replicate]
  rw [find?_run hstart hplace, findIn?_eq_find? fun folder => look_isPresent hstart hplace,
    ← hplaces, List.find?_map, Option.map_map, Option.map_map]
  apply Option.map_congr
  intro folder hfolder
  have hholds := List.find?_some hfolder
  have hmem := List.mem_of_find?_eq_some hfolder
  calc t.resolve? cwd (folder.join fileName)
      = if holds t (placeOf cwd folder) then some (placeOf cwd folder ++ [fileName.text])
        else none :=
        resolve?_join_fileName hstart hplace hmem
    _ = some (placeOf cwd folder ++ [fileName.text]) := if_pos hholds

/-! ## Upward -/

/-- Between the last folder with a manifest on a way and the end of the way, no folder has
    one: the way has passed each of them on. -/
theorem absent_between {moves : List (List Char)} {origin folder : List String}
    (hfolder : (way origin moves).reverse.find? (holds t) = some folder) {mid : List String}
    (hbelow : folder <+: mid) (habove : mid <+: moves.foldl move origin) (hne : mid ≠ folder) :
    holds t mid = false := by
  obtain ⟨-, after, before, hsplit, hafter⟩ := List.find?_eq_some_iff_append.mp hfolder
  have hway : way origin moves = before.reverse ++ folder :: after.reverse := by
    rw [← List.reverse_reverse (way origin moves), hsplit]
    simp
  obtain ⟨rest, hrest, hend⟩ := exists_way_of_split hway
  have hnot : ¬ mid <+: folder := fun h => hne (h.eq_of_length_le hbelow.length_le)
  have hmid : mid ∈ way folder rest := mem_way_of_prefix (hend ▸ habove) hnot
  rw [hrest, List.mem_cons, List.mem_reverse] at hmid
  have hpassed := hafter mid (hmid.resolve_left hne)
  rwa [Bool.not_eq_true'] at hpassed

theorem upward_iff (hstart : t.resolve? cwd start = some place)
    (hplace : t.isFolderAt place = true) :
    Upward t cwd place (find? (t.disk cwd) start).run ↔ ¬ Strays t cwd place start := by
  have hend := (folders_of_resolve? hstart hplace).1
  have hfound := find?_map_resolve? hstart hplace
  constructor
  · intro hupward hstrays
    obtain ⟨folder, hfolder, hnot⟩ := hstrays
    rw [hfolder, Option.map_some, Option.map_eq_some_iff] at hfound
    obtain ⟨path, hpath, hresolve⟩ := hfound
    obtain ⟨folder', hresolve', habove, -⟩ := hupward path hpath
    rw [hresolve, Option.some.injEq, List.append_cancel_right_eq] at hresolve'
    exact hnot (hresolve' ▸ habove)
  · intro hstrays path hpath
    rw [hpath, Option.map_some] at hfound
    obtain ⟨folder, hfolder, hresolve⟩ := Option.map_eq_some_iff.mp hfound.symm
    have habove : folder <+: place := by
      by_contra hnot
      exact hstrays ⟨folder, hfolder, hnot⟩
    refine ⟨folder, hresolve.symm, habove, ?_⟩
    intro mid hbelow hmid hne
    exact absent_between hfolder hbelow (hend ▸ hmid) hne

theorem not_strays_of_down (hstart : t.resolve? cwd start = some place)
    (hplace : t.isFolderAt place = true) (hdown : ['.', '.'] ∉ start.pieces) :
    ¬ Strays t cwd place start := by
  intro hstrays
  obtain ⟨folder, hfolder, hnot⟩ := hstrays
  have hmoves : ['.', '.'] ∉ start.moves := fun hmem => hdown (List.mem_of_mem_filter hmem)
  have hway : folder ∈ way (origin cwd start) start.moves :=
    List.mem_reverse.mp (List.mem_of_find?_eq_some hfolder)
  apply hnot
  rw [(folders_of_resolve? hstart hplace).1]
  exact prefix_foldl_of_mem_way hmoves hway

/-- From a folder, the search ends as the climb by single levels does. What it finds is
    upward of the start exactly when the last folder with a manifest on the way of the start
    path is, and so it is whenever that path has no `..`. -/
theorem search_upward_iff (hstart : t.resolve? cwd start = some place)
    (hplace : t.isFolderAt place = true) :
    (∀ result, Climbs (t.disk cwd) start result ↔ result = (find? (t.disk cwd) start).run) ∧
      (Upward t cwd place (find? (t.disk cwd) start).run ↔ ¬ Strays t cwd place start) ∧
      (['.', '.'] ∉ start.pieces → Upward t cwd place (find? (t.disk cwd) start).run) := by
  have hclimbs : Climbs (t.disk cwd) start (find? (t.disk cwd) start).run := by
    rw [find?_run hstart hplace]
    exact climbs_findIn? (t.disk cwd) start
  refine ⟨?_, upward_iff hstart hplace, ?_⟩
  · intro result
    refine ⟨fun h => h.unique hclimbs, ?_⟩
    intro h
    rw [h]
    exact hclimbs
  · intro hdown
    exact (upward_iff hstart hplace).mpr (not_strays_of_down hstart hplace hdown)

/-- A project with its manifest at the top. -/
def project : FileTree :=
  .folder [("work", .folder [("mutex-check.toml", .text ""), ("a", .folder [("b", .folder [])])])]

theorem project_search_upward :
    project.resolve? ["work"] ⟨"./a/../a/b"⟩ = some ["work", "a", "b"] ∧
      project.isFolderAt ["work", "a", "b"] = true ∧
      (find? (project.disk ["work"]) ⟨"./a/../a/b"⟩).run = some ⟨"./a/../mutex-check.toml"⟩ ∧
      Upward project ["work"] ["work", "a", "b"] (some ⟨"./a/../mutex-check.toml"⟩) := by
  have hstart : project.resolve? ["work"] ⟨"./a/../a/b"⟩ = some ["work", "a", "b"] := by
    decide +kernel
  have hfind : (find? (project.disk ["work"]) ⟨"./a/../a/b"⟩).run =
      some ⟨"./a/../mutex-check.toml"⟩ := by
    decide +kernel
  have hlast : (way (origin ["work"] ⟨"./a/../a/b"⟩) (Path.moves ⟨"./a/../a/b"⟩)).reverse.find?
      (holds project) = some ["work"] := by
    decide +kernel
  have hupward := (search_upward_iff hstart (by decide +kernel)).2.1
  rw [hfind] at hupward
  refine ⟨hstart, by decide +kernel, hfind, hupward.mpr ?_⟩
  intro hstrays
  obtain ⟨folder, hfolder, hnot⟩ := hstrays
  rw [hlast, Option.some.injEq] at hfolder
  exact hnot (hfolder ▸ by decide)

/-- A project whose only manifest is one level down. -/
def nested : FileTree :=
  .folder [("work", .folder [("sub", .folder [("mutex-check.toml", .text "")])])]

/-- From `sub/..`, which is the folder above `sub`, the search goes down into `sub`. -/
theorem nested_search_strays :
    nested.resolve? ["work"] ⟨"sub/.."⟩ = some ["work"] ∧ nested.isFolderAt ["work"] = true ∧
      (find? (nested.disk ["work"]) ⟨"sub/.."⟩).run = some ⟨"sub/mutex-check.toml"⟩ ∧
      ¬ Upward nested ["work"] ["work"] (some ⟨"sub/mutex-check.toml"⟩) := by
  refine ⟨by decide +kernel, by decide +kernel, by decide +kernel, ?_⟩
  intro hupward
  obtain ⟨folder, hresolve, habove, -⟩ := hupward ⟨"sub/mutex-check.toml"⟩ rfl
  have hfound : nested.resolve? ["work"] ⟨"sub/mutex-check.toml"⟩ =
      some (["work", "sub"] ++ ["mutex-check.toml"]) := by
    decide +kernel
  rw [hfound, Option.some.injEq] at hresolve
  have hfolder : ["work", "sub"] = folder := List.append_cancel_right hresolve
  rw [← hfolder] at habove
  revert habove
  decide

end LockDiscipline.Manifest
