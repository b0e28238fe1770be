import LockDiscipline.Loading
import LockDiscipline.Storage.FileTree
import LockDiscipline.Proofs.Program.Ranges
import LockDiscipline.Proofs.Text.Cuts

/- Which packages are scanned. A module file declares its module on the first line
   that is neither blank nor a comment (`ModuleLine.DeclaredIn`). What is read from
   that line is the path, but together with a comment that stands behind it
   (`declaredModule?_text`), and a package is scanned when its path starts with the
   text that was read. So the packages scanned are those of the module exactly as
   long as there is no such comment and no other package whose path only starts
   with the same characters (`module_scope_exact_iff`). -/
namespace LockDiscipline

open Text

/-- The path is that of the module, or lies below it. -/
def Inside (modulePath path : String) : Prop :=
  path = modulePath ∨ modulePath.toList ++ ['/'] <+: path.toList

instance (modulePath path : String) : Decidable (Inside modulePath path) :=
  inferInstanceAs (Decidable (_ ∨ _))

/-- A line of a module file that declares nothing: blank, or a comment. -/
inductive IdleLine : List Char → Prop
  | blank {line : List Char} (blank : AllBlank line) : IdleLine line
  | comment {before : List Char} (blank : AllBlank before) (text : List Char) :
    IdleLine (before ++ '/' :: '/' :: text)

/-- A line of a module file that declares the module `path`, bare or in quotes, with
    blanks around it, and perhaps with a comment behind a blank. -/
structure ModuleLine where
  path : String
  quoted : Bool
  comment : Option (List Char)
  before : List Char
  gap : List Char
  after : List Char
  path_ne : path ≠ ""
  path_plain : Plain ['"'] path.toList
  blank_before : AllBlank before
  blank_gap : AllBlank gap
  gap_ne : gap ≠ []
  blank_after : AllBlank after
  after_ne : comment ≠ none → after ≠ []

namespace ModuleLine

/-- The quote on either side of the path. -/
def quote (l : ModuleLine) : List Char := if l.quoted then ['"'] else []

/-- The comment with its mark. -/
def remark (l : ModuleLine) : List Char :=
  match l.comment with
  | none => []
  | some text => '/' :: '/' :: text

/-- The line as it stands in the file. -/
def text (l : ModuleLine) : List Char :=
  l.before ++ "module".toList ++
    (l.gap ++ (l.quote ++ l.path.toList ++ l.quote ++ l.after ++ l.remark))

/-- The line is the first of a module file that is not idle; any lines may follow. -/
def DeclaredIn (l : ModuleLine) (file : String) : Prop :=
  ∃ idle more, file.toList.splitOn '\n' = idle ++ l.text :: more ∧ ∀ line ∈ idle, IdleLine line

/-- What is read from the line. A comment is taken for a part of the path, less the blanks
    and the quotes at its end. -/
def read (l : ModuleLine) : List Char :=
  match l.comment with
  | none => l.path.toList
  | some text =>
    l.path.toList ++ l.quote ++ l.after ++ '/' :: '/' :: (trimEnd text).rdropWhile (· == '"')

/-- A package with this path is taken for one of the module, or not, against `Inside`: there
    is no comment, and the path goes on behind that of the module without a slash; or there
    is one, and the path lies inside the module or starts with the path and the comment. -/
def Misjudges (l : ModuleLine) (path : String) : Prop :=
  match l.comment with
  | none => l.path.toList <+: path.toList ∧ ¬ Inside l.path path
  | some _ => Inside l.path path ∨ l.read <+: path.toList

end ModuleLine

/-! ## Reading a line -/

theorem declaredModule?_trim (line : List Char) :
    declaredModule? (trim line) = declaredModule? line := by
  unfold declaredModule?
  rw [trim_trim]

theorem declaredModule?_of_head_ne {line : List Char} (h : (trim line).head? ≠ some 'm') :
    declaredModule? line = none := by
  have hafter : after? "module" (trim line) = none := by
    apply after?_eq_none
    intro rest hrest
    apply h
    rw [← hrest]
    rfl
  rw [declaredModule?, hafter]
  rfl

theorem IdleLine.declaredModule?_eq {line : List Char} (h : IdleLine line) :
    declaredModule? line = none := by
  apply declaredModule?_of_head_ne
  cases h with
  | blank hblank =>
    rw [trim_eq_nil_of_allBlank hblank]
    decide
  | comment hblank text =>
    have htrim : trim (_ ++ '/' :: '/' :: text) = '/' :: trimEnd ('/' :: text) :=
      (trim_append_of_allBlank hblank _).trans (trim_cons (by decide) _)
    rw [htrim]
    simp

/-- Behind the word `module` the blanks and quotes at both ends are skipped. -/
theorem declaredModule?_of_module {before more name : List Char} (hbefore : AllBlank before)
    (hname : stripBoth '"' (trim more) = name) (hne : name ≠ []) :
    declaredModule? (before ++ "module".toList ++ more) = some (String.ofList name) := by
  have hword : trim ("module".toList ++ more) = "module".toList ++ trimEnd more := by
    show trim ('m' :: 'o' :: 'd' :: 'u' :: 'l' :: 'e' :: more) = _
    rw [trim_cons (by decide), trimEnd_cons (by decide), trimEnd_cons (by decide),
      trimEnd_cons (by decide), trimEnd_cons (by decide), trimEnd_cons (by decide)]
    rfl
  have hafter : after? "module" (trim (before ++ "module".toList ++ more)) =
      some (trimEnd more) := by
    rw [List.append_assoc, trim_append_of_allBlank hbefore, after?_eq_some_iff, hword]
  obtain ⟨first, rest, rfl⟩ := List.exists_cons_of_ne_nil hne
  simp only [declaredModule?, hafter, Option.bind_eq_bind, Option.bind_some, trim_trimEnd, hname]

namespace ModuleLine

variable (l : ModuleLine)

theorem path_toList_ne : l.path.toList ≠ [] := by
  simpa using l.path_ne

theorem mem_quote {l : ModuleLine} {c : Char} (h : c ∈ l.quote) : c = '"' := by
  unfold quote at h
  split at h
  · exact List.mem_singleton.mp h
  · cases h

/-- Between the quotes, which are not blank, nothing is. -/
theorem not_blank_of_mem {l : ModuleLine} {c : Char} (h : c ∈ l.quote ++ l.path.toList ++ l.quote) :
    isBlank c = false := by
  rw [List.mem_append, List.mem_append] at h
  rcases h with (h | h) | h
  · rw [mem_quote h]
    decide
  · exact (l.path_plain c h).1
  · rw [mem_quote h]
    decide

/-- Quotes in front of the path are skipped, and nothing else. -/
theorem stripBoth_quote_path (tail : List Char) :
    stripBoth '"' (l.quote ++ l.path.toList ++ tail) =
      (l.path.toList ++ tail).rdropWhile (· == '"') := by
  obtain ⟨first, rest, hpath⟩ := List.exists_cons_of_ne_nil l.path_toList_ne
  have hfirst : (first == '"') = false := by
    have hplain := (l.path_plain first (hpath ▸ List.mem_cons_self ..)).2
    simpa using hplain
  have hquote : l.quote.dropWhile (· == '"') = [] := by
    rw [List.dropWhile_eq_nil_iff]
    intro c hc
    simp [mem_quote hc]
  have hdrop : (l.quote ++ l.path.toList ++ tail).dropWhile (· == '"') = l.path.toList ++ tail := by
    rw [hpath, List.append_assoc, List.cons_append,
      dropWhile_append_cons (p := (· == '"')) hfirst, hquote]
    rfl
  rw [stripBoth, hdrop]
  rfl

theorem rdropWhile_path_quote :
    (l.path.toList ++ l.quote).rdropWhile (· == '"') = l.path.toList := by
  obtain ⟨init, last, hpath⟩ : ∃ init last, l.path.toList = init ++ [last] :=
    ⟨_, _, (List.dropLast_append_getLast l.path_toList_ne).symm⟩
  have hlast : (last == '"') = false := by
    have hmem : last ∈ l.path.toList := by simp [hpath]
    simpa using (l.path_plain last hmem).2
  have hquote : l.quote.rdropWhile (· == '"') = [] := by
    rw [List.rdropWhile_eq_nil_iff]
    intro c hc
    simp [mem_quote hc]
  rw [hpath, List.append_assoc, List.singleton_append,
    rdropWhile_append_cons (p := (· == '"')) hlast, hquote]

/-- The path is read, and a comment with it. -/
theorem stripBoth_trim :
    stripBoth '"' (trim (l.quote ++ l.path.toList ++ l.quote ++ l.after ++ l.remark)) = l.read := by
  have hne : l.quote ++ l.path.toList ++ l.quote ≠ [] := by
    simp [l.path_toList_ne]
  have hplain : ∀ c ∈ l.quote ++ l.path.toList ++ l.quote, isBlank c = false :=
    fun c hc => not_blank_of_mem hc
  unfold remark read
  cases l.comment with
  | none =>
    have htrim : trim (l.quote ++ l.path.toList ++ l.quote ++ l.after) =
        l.quote ++ l.path.toList ++ l.quote :=
      (trim_surrounded allBlank_nil l.blank_after _).trans (trim_of_not_blank hne hplain)
    simp only [List.append_nil, htrim, stripBoth_quote_path, rdropWhile_path_quote]
  | some text =>
    have hslash : ('/' == '"') = false := by decide
    have htrim : trim (l.quote ++ l.path.toList ++ l.quote ++ l.after ++ '/' :: '/' :: text) =
        l.quote ++ l.path.toList ++ (l.quote ++ l.after ++ '/' :: '/' :: trimEnd text) := by
      rw [trim, List.append_assoc _ l.after, trimStart_append_of_not_blank hne hplain,
        ← List.append_assoc _ l.after, trimEnd_append_cons (by decide), trimEnd_cons (by decide)]
      simp only [List.append_assoc]
    have hstrip := rdropWhile_append_cons (p := (· == '"')) hslash
      (l.path.toList ++ l.quote ++ l.after ++ ['/']) (trimEnd text)
    simp only [htrim, stripBoth_quote_path]
    simpa only [List.append_assoc, List.singleton_append] using hstrip

theorem read_ne : l.read ≠ [] := by
  unfold read
  cases l.comment with
  | none => exact l.path_toList_ne
  | some text => simp

theorem declaredModule?_text : declaredModule? l.text = some (String.ofList l.read) := by
  apply declaredModule?_of_module l.blank_before _ l.read_ne
  rw [trim_append_of_allBlank l.blank_gap, stripBoth_trim]

/-- The first line that is not idle is the one that is read. -/
theorem DeclaredIn.moduleOfText?_eq {l : ModuleLine} {file : String} (h : l.DeclaredIn file) :
    moduleOfText? file = some (String.ofList l.read) := by
  obtain ⟨idle, more, hlines, hidle⟩ := h
  have hnone : idle.findSome? declaredModule? = none := by
    rw [List.findSome?_eq_none_iff]
    exact fun line hline => (hidle line hline).declaredModule?_eq
  rw [moduleOfText?, findSome?_lines declaredModule?_trim (by decide), hlines,
    List.findSome?_append, hnone, Option.none_or, List.findSome?_cons, declaredModule?_text]

/-! ## Packages of the module -/

/-- Behind the path a comment is read on, and what is read on does not start with a slash. -/
theorem exists_read_eq {l : ModuleLine} (h : l.comment ≠ none) :
    ∃ c rest, l.read = l.path.toList ++ c :: rest ∧ c ≠ '/' := by
  obtain ⟨text, htext⟩ := Option.ne_none_iff_exists'.mp h
  obtain ⟨blank, after, hafter⟩ := List.exists_cons_of_ne_nil (l.after_ne h)
  have hblank : blank ≠ '/' := by
    intro heq
    have hmem := l.blank_after blank (hafter ▸ List.mem_cons_self ..)
    rw [heq] at hmem
    exact absurd hmem (by decide)
  simp only [read, htext, quote, hafter]
  by_cases hquoted : l.quoted = true
  · rw [if_pos hquoted, List.append_assoc, List.append_assoc]
    exact ⟨'"', _, rfl, by decide⟩
  · rw [if_neg hquoted, List.append_nil, List.append_assoc]
    exact ⟨blank, _, rfl, hblank⟩

theorem not_inside_of_read_prefix {l : ModuleLine} (h : l.comment ≠ none) {path : String}
    (hread : l.read <+: path.toList) : ¬ Inside l.path path := by
  obtain ⟨c, rest, heq, hc⟩ := exists_read_eq h
  obtain ⟨behind, hbehind⟩ := hread
  rw [heq, List.append_assoc, List.cons_append] at hbehind
  intro hinside
  rcases hinside with hpath | ⟨below, hbelow⟩
  · rw [hpath, List.append_right_eq_self] at hbehind
    cases hbehind
  · rw [← hbehind, List.append_assoc] at hbelow
    exact hc (List.cons.inj (List.append_cancel_left hbelow)).1.symm

theorem inside_prefix {modulePath path : String} (h : Inside modulePath path) :
    modulePath.toList <+: path.toList := by
  rcases h with rfl | h
  · exact List.prefix_refl _
  · exact (List.prefix_append _ _).trans h

/-- What is read tells the packages of the module from others, except for paths that the
    line misjudges. -/
theorem read_prefix_iff_inside_iff (path : String) :
    (l.read <+: path.toList ↔ Inside l.path path) ↔ ¬ l.Misjudges path := by
  cases hcomment : l.comment with
  | none =>
    have hread : l.read = l.path.toList := by simp only [read, hcomment]
    have hinside : Inside l.path path → l.path.toList <+: path.toList := inside_prefix
    simp only [Misjudges, hcomment, hread]
    refine ⟨fun h hbeside => hbeside.2 (h.mp hbeside.1), fun h => ⟨?_, hinside⟩⟩
    exact fun hstarts => Classical.not_not.mp fun hnot => h ⟨hstarts, hnot⟩
  | some text =>
    have hnot : l.read <+: path.toList → ¬ Inside l.path path :=
      not_inside_of_read_prefix (by simp [hcomment])
    simp only [Misjudges, hcomment, not_or]
    refine ⟨?_, fun h => ⟨fun hread => absurd hread h.2, fun hinside => absurd hinside h.1⟩⟩
    intro h
    exact ⟨fun hinside => hnot (h.mpr hinside) hinside, fun hread => hnot hread (h.mp hread)⟩

end ModuleLine

theorem Program.inScope_iff_prefix {p : Program} {modulePath : String}
    (h : p.scope = some modulePath) {id : Nat} {pkg : Package}
    (hpkg : p.snapshot.packages[id]? = some pkg) :
    p.inScope id = true ↔ modulePath.toList <+: pkg.path.toList := by
  simp only [inScope, hpkg, h, List.isPrefixOf_iff_prefix]

/-- Without an override the scope of a program is what the module file declares. -/
theorem LoadConfig.programOf_eq_ok {c : LoadConfig} (h : c.modulePath = none) (modulePath : String)
    {s : Snapshot} (hs : s.Sound) :
    ∃ p, c.programOf (some modulePath) s = .ok p ∧ p.snapshot = s ∧ p.scope = some modulePath := by
  obtain ⟨p, hp⟩ := Program.exists_ofSnapshot_eq_ok_iff.mpr (Snapshot.fault?_eq_none_iff.mpr hs)
  refine ⟨p.restrictTo modulePath, ?_, (Program.ofSnapshot_eq_ok hp).1, rfl⟩
  rw [programOf, hp, h]
  rfl

theorem LoadConfig.load_run {disk : Disk Id} {c : LoadConfig} {text : String} {s : Snapshot}
    (hsnapshot : disk.look c.snapshotPath = Entry.text text)
    (hread : Snapshot.ofText? text = some s) :
    (c.load disk).run = c.programOf (rootModule? disk c.root).run s := by
  simp only [load, hsnapshot, Id.run, bind, pure, Entry.text?, hread]

/-- A program is loaded from every sound snapshot, and without an override a package is
    scanned exactly if its path starts with what is read from the line of the module file
    that declares the module. These are the packages of the module exactly if the line
    misjudges none of them. -/
theorem module_scope_exact_iff {disk : Disk Id} {c : LoadConfig} {text file : String} {s : Snapshot}
    {line : ModuleLine} (hoverride : c.modulePath = none)
    (hsnapshot : disk.look c.snapshotPath = Entry.text text)
    (hread : Snapshot.ofText? text = some s) (hs : s.Sound)
    (hfile : disk.look (c.root.join ⟨"go.mod"⟩) = Entry.text file) (hline : line.DeclaredIn file) :
    ∃ p, (c.load disk).run = .ok p ∧ p.snapshot = s ∧
      (∀ id pkg, s.packages[id]? = some pkg →
        (p.inScope id = true ↔ line.read <+: pkg.path.toList)) ∧
      ((∀ id pkg, s.packages[id]? = some pkg →
          (p.inScope id = true ↔ Inside line.path pkg.path)) ↔
        ∀ pkg ∈ s.packages, ¬ line.Misjudges pkg.path) := by
  obtain ⟨p, hp, rfl, hscope⟩ := LoadConfig.programOf_eq_ok hoverride (String.ofList line.read) hs
  have hload : (c.load disk).run = .ok p := by
    have hmodule : (rootModule? disk c.root).run = some (String.ofList line.read) := by
      show (disk.look (c.root.join ⟨"go.mod"⟩)).text?.bind moduleOfText? = _
      rw [hfile]
      exact hline.moduleOfText?_eq
    rw [LoadConfig.load_run hsnapshot hread, hmodule, hp]
  have hbegins : ∀ id pkg, p.snapshot.packages[id]? = some pkg →
      (p.inScope id = true ↔ line.read <+: pkg.path.toList) := by
    intro id pkg hpkg
    rw [Program.inScope_iff_prefix hscope hpkg, String.toList_ofList]
  refine ⟨p, hload, rfl, hbegins, ?_, ?_⟩
  · intro hexact pkg hmem
    obtain ⟨id, hid⟩ := Array.getElem?_of_mem hmem
    rw [← line.read_prefix_iff_inside_iff, ← hbegins id pkg hid]
    exact hexact id pkg hid
  · intro hnone id pkg hid
    rw [hbegins id pkg hid, line.read_prefix_iff_inside_iff]
    exact hnone pkg (Array.mem_of_getElem? hid)

/-! ## An application and its neighbours -/

/-- The application, a package below it, and one that it lies below. -/
def appText : String :=
  "\x7b\"packages\": [[\"example.com/app\"], [\"example.com/app/store\"], [\"example.com\"]]\x7d"

/-- The application, and a package whose path starts with the same characters. -/
def appleText : String := "\x7b\"packages\": [[\"example.com/app\"], [\"example.com/apple\"]]\x7d"

/-- A root folder with a snapshot and a module file. It is the working directory. -/
def rootDisk (text file : String) : Disk Id :=
  (FileTree.folder [("go.mod", .text file),
    (".mutex-check", .folder [("program.json", .text text)])]).disk []

/-- The working directory is the root folder, and nothing is overridden. -/
def rootConfig : LoadConfig := ⟨⟨"."⟩, none, none, []⟩

theorem app_ne : "example.com/app" ≠ "" := by decide

theorem app_plain : Plain ['"'] "example.com/app".toList := by decide

/-- A module line with quotes, blanks and a return. -/
def quotedLine : ModuleLine :=
  ⟨"example.com/app", true, none, ['\t', ' '], [' ', ' '], [' ', '\r'], app_ne, app_plain,
    by decide, by decide, List.cons_ne_nil _ _, by decide, fun _ => List.cons_ne_nil _ _⟩

/-- A module file that starts with a comment and a blank line. -/
def quotedFile : String := "// the app\r\n \n\t module  \"example.com/app\" \r\ngo 1.22\n"

theorem quotedLine_declaredIn : quotedLine.DeclaredIn quotedFile := by
  refine ⟨["// the app\r".toList, [' ']], ["go 1.22".toList, []], by decide +kernel, ?_⟩
  intro line hline
  rcases List.mem_pair.mp hline with rfl | rfl
  · exact .comment allBlank_nil " the app\r".toList
  · exact .blank (by decide)

/-- The packages of the application are scanned, and no other. -/
theorem quotedLine_scope_exact :
    quotedLine.DeclaredIn quotedFile ∧
    ∃ p, (rootConfig.load (rootDisk appText quotedFile)).run = .ok p ∧
      p.snapshot.packages.toList.map Package.path =
        ["example.com/app", "example.com/app/store", "example.com"] ∧
      ∀ id pkg, p.snapshot.packages[id]? = some pkg →
        (p.inScope id = true ↔ Inside "example.com/app" pkg.path) := by
  obtain ⟨s, hread, hpaths, hs⟩ : ∃ s, Snapshot.ofText? appText = some s ∧
      s.packages.toList.map Package.path =
        ["example.com/app", "example.com/app/store", "example.com"] ∧ s.Sound :=
    ⟨{ Snapshot.empty with
        packages :=
          #[⟨"example.com/app", []⟩, ⟨"example.com/app/store", []⟩, ⟨"example.com", []⟩] },
      by decide +kernel, by decide, Snapshot.fault?_eq_none_iff.mp (by decide)⟩
  have hdisk : (rootDisk appText quotedFile).look rootConfig.snapshotPath = Entry.text appText :=
    rfl
  obtain ⟨p, hload, rfl, -, hexact⟩ :=
    module_scope_exact_iff rfl hdisk hread hs rfl quotedLine_declaredIn
  refine ⟨quotedLine_declaredIn, p, hload, hpaths, hexact.mpr ?_⟩
  intro pkg hpkg
  have hpath := List.mem_map_of_mem (f := Package.path) (Array.mem_toList_iff.mpr hpkg)
  rw [hpaths] at hpath
  have hnone : ∀ path ∈ ["example.com/app", "example.com/app/store", "example.com"],
      ¬ ("example.com/app".toList <+: path.toList ∧ ¬ Inside "example.com/app" path) := by
    decide
  exact hnone pkg.path hpath

/-- A module line with a comment. -/
def remarkLine : ModuleLine :=
  ⟨"example.com/app", false, some " the app".toList, [], [' '], [' '], app_ne, app_plain,
    allBlank_nil, by decide, List.cons_ne_nil _ _, by decide, fun _ => List.cons_ne_nil _ _⟩

/-- A module line and nothing else. -/
def bareLine : ModuleLine :=
  ⟨"example.com/app", false, none, [], [' '], [], app_ne, app_plain, allBlank_nil, by decide,
    List.cons_ne_nil _ _, allBlank_nil, fun hsome => absurd rfl hsome⟩

/-- A neighbour of the application is scanned, and with a comment on the module line the
    application itself is not. -/
theorem apple_scanned_for_app :
    bareLine.DeclaredIn "module example.com/app\n" ∧
    (rootConfig.load (rootDisk appleText "module example.com/app\n")).run.toOption.map
      (fun p => (p.inScope 0, p.inScope 1)) = some (true, true) ∧
    ¬ Inside "example.com/app" "example.com/apple" ∧
    remarkLine.DeclaredIn "module example.com/app // the app\n" ∧
    (rootConfig.load (rootDisk appleText "module example.com/app // the app\n")).run.toOption.map
      (fun p => (p.inScope 0, p.inScope 1)) = some (false, false) ∧
    Inside "example.com/app" "example.com/app" := by
  refine ⟨⟨[], [[]], by decide +kernel, by simp⟩, by decide +kernel, by decide +kernel,
    ⟨[], [[]], by decide +kernel, by simp⟩, by decide +kernel, .inl rfl⟩

end LockDiscipline
