import LockDiscipline.Guard.LockNote
import LockDiscipline.Proofs.Text.Cuts

/- Annotations in any layout. Names are listed with commas between them, blanks and
   line feeds are put in anywhere, and each line is written bare or with comment
   marks (`Layout`). What counts of such a comment is the list of names with its
   commas (`essence_text`, `essence_lines`), so it says the same in every
   layout. Conversely names that are read are never empty and hold neither commas nor
   blanks (`note_read_in_any_layout`). -/
namespace LockDiscipline.LockNote

open Text

variable {c : Char} {cs before after : List Char}

/-! ## Layouts -/

/-- Names in order, with commas: at least one between two names and any number
    behind the last. -/
inductive Listed : List String → List Char → Prop
  | last (name : String) (behind : Nat) :
    Listed [name] (name.toList ++ List.replicate behind ',')
  | cons (name : String) (between : Nat) {names : List String} {text : List Char}
    (rest : Listed names text) :
    Listed (name :: names) (name.toList ++ List.replicate (between + 1) ',' ++ text)

/-- A text with blanks put in, line feeds among them. -/
inductive Spaced : List Char → List Char → Prop
  | nil : Spaced [] []
  | blank {c : Char} {text spaced : List Char} (blank : isBlank c = true)
    (rest : Spaced text spaced) : Spaced text (c :: spaced)
  | keep (c : Char) {text spaced : List Char} (rest : Spaced text spaced) :
    Spaced (c :: text) (c :: spaced)

/-- The comment marks of a line: none, `//`, `/*` and `*/`, or one of these two. -/
inductive Marks where
  | bare
  | line
  | block
  | opened
  | closed
deriving Repr, DecidableEq

/-- The line with its marks. -/
def Marks.write (body : List Char) : Marks → List Char
  | .bare => body
  | .line => '/' :: '/' :: body
  | .block => '/' :: '*' :: (body ++ ['*', '/'])
  | .opened => '/' :: '*' :: body
  | .closed => body ++ ['*', '/']

/-- A line of a comment: a text without line feeds, its marks, and blanks around it. -/
structure NoteLine where
  body : List Char
  marks : Marks
  before : List Char
  after : List Char
  one_line : '\n' ∉ body := by decide
  blank_before : AllBlank before := by decide
  blank_after : AllBlank after := by decide

/-- The line as it stands in the comment. -/
def NoteLine.text (l : NoteLine) : List Char := l.before ++ l.marks.write l.body ++ l.after

/-- The comment lists the names: behind some commas they are listed, the list is
    spaced, and its lines are written one by one. -/
def Layout (names : List String) (comment : String) : Prop :=
  ∃ (commas : Nat) (text spaced : List Char) (lines : List NoteLine),
    Listed names text ∧ Spaced (List.replicate commas ',' ++ text) spaced ∧
    spaced = ['\n'].intercalate (lines.map NoteLine.body) ∧
    comment.toList = ['\n'].intercalate (lines.map NoteLine.text)

/-- A name that can be listed: not empty, and without blanks, commas and slashes. It may
    hold stars, although they occur in comment marks. -/
structure IsName (name : String) : Prop where
  nonempty : name ≠ ""
  plain : Plain [',', '/'] name.toList

/-- The names, joined by commas, hold both words that take a lock out of the check. -/
def OptsOut (names : List String) : Prop :=
  "nolint".toList <:+: (",".intercalate names).toList ∧
    "mutex_check".toList <:+: (",".intercalate names).toList

instance : DecidablePred OptsOut := fun _ => inferInstanceAs (Decidable (_ ∧ _))

/-! ## Marks -/

theorem stripMarks_eq_of_trim_eq {cs cs' : List Char} (h : trim cs = trim cs') :
    stripMarks cs = stripMarks cs' := by
  unfold stripMarks
  rw [h]

theorem stripMarks_of_line {rest : List Char} (h : trim cs = '/' :: '/' :: rest) :
    stripMarks cs = rest := by
  have hafter : after? "//" (trim cs) = some rest := after?_eq_some_iff.mpr h.symm
  simp only [stripMarks, hafter]

theorem stripMarks_of_opened {rest : List Char} (h : trim cs = '/' :: '*' :: rest) :
    stripMarks cs = (before? "*/" rest).getD rest := by
  have hline : after? "//" (trim cs) = none := by
    apply after?_eq_none
    intro other hother
    rw [h] at hother
    cases hother
  have hopened : after? "/*" (trim cs) = some rest := after?_eq_some_iff.mpr h.symm
  simp only [stripMarks, hline, hopened]

/-- A line that does not start with a slash can only lose a mark at its end. -/
theorem stripMarks_of_head_ne (h : (trim cs).head? ≠ some '/') :
    stripMarks cs = (before? "*/" (trim cs)).getD (trim cs) := by
  have hnone : ∀ mark : String, mark.toList.head? = some '/' → after? mark (trim cs) = none := by
    intro mark hmark
    apply after?_eq_none
    intro rest hrest
    apply h
    rw [← hrest, List.head?_append, hmark]
    rfl
  simp only [stripMarks, hnone "//" rfl, hnone "/*" rfl]

theorem before?_closing_of_not_mem (h : '/' ∉ cs) : before? "*/" cs = none := by
  apply before?_eq_none
  intro rest hrest
  apply h
  rw [← hrest]
  exact List.mem_append_right rest (by decide)

theorem before?_closing (cs : List Char) : before? "*/" (cs ++ ['*', '/']) = some cs :=
  before?_eq_some_iff.mpr rfl

theorem trimEnd_closing (cs : List Char) : trimEnd (cs ++ ['*', '/']) = cs ++ ['*', '/'] := by
  have hend : trimEnd (cs ++ ['*'] ++ ['/']) = cs ++ ['*'] ++ ['/'] := trimEnd_concat (by decide) _
  rwa [List.append_assoc] at hend

/-- Whatever its marks, a line without slashes of its own loses them and blanks only. -/
theorem filter_stripMarks_write (marks : Marks) (h : '/' ∉ cs) :
    (stripMarks (marks.write cs)).filter (!isBlank ·) = cs.filter (!isBlank ·) := by
  have hslash : isBlank '/' = false := by decide
  have hstar : isBlank '*' = false := by decide
  have hstart : '/' ∉ trimStart cs := fun hmem => h ((List.dropWhile_sublist isBlank).subset hmem)
  have hend : '/' ∉ trimEnd cs := fun hmem => h ((trimEnd_sublist cs).subset hmem)
  have htrim : '/' ∉ trim cs := fun hmem => h ((trim_sublist cs).subset hmem)
  cases marks with
  | bare =>
    have hhead : (trim cs).head? ≠ some '/' := fun hhead => htrim (List.mem_of_mem_head? hhead)
    rw [Marks.write, stripMarks_of_head_ne hhead, before?_closing_of_not_mem htrim,
      Option.getD_none, filter_trim]
  | line =>
    have hline : trim ('/' :: '/' :: cs) = '/' :: '/' :: trimEnd cs := by
      rw [trim_cons hslash, trimEnd_cons hslash]
    rw [Marks.write, stripMarks_of_line hline, filter_trimEnd]
  | block =>
    have hblock : trim ('/' :: '*' :: (cs ++ ['*', '/'])) = '/' :: '*' :: (cs ++ ['*', '/']) := by
      rw [trim_cons hslash, trimEnd_cons hstar, trimEnd_closing]
    rw [Marks.write, stripMarks_of_opened hblock, before?_closing, Option.getD_some]
  | opened =>
    have hopened : trim ('/' :: '*' :: cs) = '/' :: '*' :: trimEnd cs := by
      rw [trim_cons hslash, trimEnd_cons hstar]
    rw [Marks.write, stripMarks_of_opened hopened, before?_closing_of_not_mem hend,
      Option.getD_none, filter_trimEnd]
  | closed =>
    have hclosed : trim (cs ++ ['*', '/']) = trimStart cs ++ ['*', '/'] := by
      rw [trim, trimStart_append_cons hstar, trimEnd_closing]
    have hhead : (trim (cs ++ ['*', '/'])).head? ≠ some '/' := by
      rw [hclosed]
      cases hfirst : trimStart cs with
      | nil => decide
      | cons first rest =>
        rw [hfirst, List.mem_cons, not_or] at hstart
        exact fun hhead => hstart.1 (Option.some.inj hhead).symm
    rw [Marks.write, stripMarks_of_head_ne hhead, hclosed, before?_closing, Option.getD_some,
      filter_trimStart]

/-! ## What counts of a comment -/

/-- The characters of a line that count. -/
def counted (line : List Char) : List Char := (stripMarks line).filter (!isBlank ·)

theorem counted_eq_of_trim_eq {line line' : List Char} (h : trim line = trim line') :
    counted line = counted line' := by
  rw [counted, counted, stripMarks_eq_of_trim_eq h]

theorem essence_eq (cs : List Char) : essence cs = (cs.splitOn '\n').flatMap counted := by
  rw [essence, List.filter_flatMap]
  exact flatMap_lines (fun line => counted_eq_of_trim_eq (trim_trim line)) (by decide) cs

theorem essence_append_lf (cs rest : List Char) :
    essence (cs ++ '\n' :: rest) = essence cs ++ essence rest := by
  rw [essence_eq, List.splitOn_append_cons_self, List.flatMap_append, ← essence_eq, ← essence_eq]

theorem essence_of_one_line (h : '\n' ∉ cs) : essence cs = counted cs := by
  rw [essence_eq, List.splitOn_eq_singleton h, List.flatMap_singleton]

theorem essence_cons_of_blank (h : isBlank c = true) (cs : List Char) :
    essence (c :: cs) = essence cs := by
  by_cases hc : c = '\n'
  · subst hc
    exact essence_append_lf [] cs
  · obtain ⟨first, more, hpieces⟩ := List.exists_cons_of_ne_nil (List.splitOn_ne_nil '\n' cs)
    rw [essence_eq, essence_eq, List.splitOn_cons_eq_if_modifyHead, if_neg (by simp [hc]), hpieces,
      List.modifyHead_cons, List.flatMap_cons, List.flatMap_cons,
      counted_eq_of_trim_eq (trim_cons_of_blank h first)]

theorem essence_append_of_allBlank (h : AllBlank before) (cs : List Char) :
    essence (before ++ cs) = essence cs := by
  induction before with
  | nil => rfl
  | cons c before ih =>
    rw [List.cons_append, essence_cons_of_blank (h c (List.mem_cons_self ..)),
      ih fun c hc => h c (List.mem_cons_of_mem _ hc)]

/-- Blanks behind a line do not count. Where they hold a line feed the line ends there, and
    blank lines follow. -/
theorem essence_append_blanks (hcs : '\n' ∉ cs) (h : AllBlank after) :
    essence (cs ++ after) = essence cs := by
  induction after generalizing cs with
  | nil => rw [List.append_nil]
  | cons c after ih =>
    have hafter : AllBlank after := fun c hc => h c (List.mem_cons_of_mem _ hc)
    by_cases hc : c = '\n'
    · subst hc
      have hblank : essence after = [] := by
        rw [← List.append_nil after, essence_append_of_allBlank hafter]
        rfl
      rw [essence_append_lf, hblank, List.append_nil]
    · have hline : '\n' ∉ cs ++ [c] := by
        rw [List.mem_append, List.mem_singleton, not_or]
        exact ⟨hcs, Ne.symm hc⟩
      rw [← List.singleton_append, ← List.append_assoc, ih hline hafter, essence_of_one_line hline,
        essence_of_one_line hcs, counted_eq_of_trim_eq]
      exact trim_concat_of_blank (h c (List.mem_cons_self ..)) cs

/-! ## What counts of a layout -/

theorem not_mem_write {marks : Marks} (h : '\n' ∉ cs) : '\n' ∉ marks.write cs := by
  cases marks <;> simp [Marks.write, h]

/-- Of a line the text counts, less its blanks. -/
theorem NoteLine.essence_text (l : NoteLine) (h : '/' ∉ l.body) :
    essence l.text = l.body.filter (!isBlank ·) := by
  have hwritten : '\n' ∉ l.marks.write l.body := not_mem_write l.one_line
  rw [NoteLine.text, List.append_assoc, essence_append_of_allBlank l.blank_before,
    essence_append_blanks hwritten l.blank_after, essence_of_one_line hwritten]
  exact filter_stripMarks_write l.marks h

/-- What adds up over line feeds adds up over lines. -/
theorem intercalate_lf_eq_flatMap {f : List Char → List Char} (hnil : f [] = [])
    (happend : ∀ cs rest, f (cs ++ '\n' :: rest) = f cs ++ f rest) (texts : List (List Char)) :
    f (['\n'].intercalate texts) = texts.flatMap f := by
  induction texts with
  | nil => exact hnil
  | cons text texts ih =>
    cases texts with
    | nil => simp
    | cons next texts =>
      rw [List.intercalate_cons_cons, List.append_assoc, List.singleton_append, happend, ih]
      rfl

/-- Of the lines together the spaced list counts, less its blanks. -/
theorem essence_lines (lines : List NoteLine) (h : ∀ l ∈ lines, '/' ∉ l.body) :
    essence (['\n'].intercalate (lines.map NoteLine.text)) =
      (['\n'].intercalate (lines.map NoteLine.body)).filter (!isBlank ·) := by
  have hfilter : ∀ cs rest : List Char, (cs ++ '\n' :: rest).filter (!isBlank ·) =
      cs.filter (!isBlank ·) ++ rest.filter (!isBlank ·) := by
    intro cs rest
    rw [List.filter_append, List.filter_cons_of_neg (by decide)]
  rw [intercalate_lf_eq_flatMap rfl essence_append_lf, intercalate_lf_eq_flatMap rfl hfilter,
    List.flatMap_map, List.flatMap_map]
  exact List.flatMap_congr fun l hl => l.essence_text (h l hl)

/-! ## Names and commas -/

theorem parts_append_comma (cs rest : List Char) :
    parts (cs ++ ',' :: rest) = parts cs ++ parts rest := by
  rw [parts, List.splitOn_append_cons_self, List.filter_append]
  rfl

theorem parts_replicate_append (commas : Nat) (cs : List Char) :
    parts (List.replicate commas ',' ++ cs) = parts cs := by
  induction commas with
  | zero => rfl
  | succ commas ih => exact (parts_append_comma [] _).trans ih

theorem IsName.parts_eq {name : String} (h : IsName name) : parts name.toList = [name.toList] := by
  have hcomma : ',' ∉ name.toList := fun hmem => (h.plain _ hmem).2 (by simp)
  rw [parts, List.splitOn_eq_singleton hcomma]
  simp [h.nonempty]

namespace Listed

variable {names : List String} {text : List Char}

/-- The parts between the commas are the names. -/
theorem parts_eq (h : Listed names text) (hnames : ∀ name ∈ names, IsName name) :
    parts text = names.map String.toList := by
  induction h with
  | last name behind =>
    have hname := (hnames name (List.mem_singleton_self name)).parts_eq
    cases behind with
    | zero => simpa using hname
    | succ behind =>
      rw [List.replicate_succ, parts_append_comma, hname, ← List.append_nil (List.replicate _ _),
        parts_replicate_append]
      rfl
  | cons name between rest ih =>
    have hname := (hnames name (List.mem_cons_self ..)).parts_eq
    rw [List.append_assoc, List.replicate_succ, List.cons_append, parts_append_comma, hname,
      parts_replicate_append, ih fun other hother => hnames other (List.mem_cons_of_mem _ hother)]
    rfl

theorem mem_text (h : Listed names text) (hc : c ∈ text) :
    c = ',' ∨ ∃ name ∈ names, c ∈ name.toList := by
  induction h with
  | last name behind =>
    rcases List.mem_append.mp hc with hc | hc
    · exact .inr ⟨name, List.mem_singleton_self name, hc⟩
    · exact .inl (List.eq_of_mem_replicate hc)
  | cons name between rest ih =>
    rcases List.mem_append.mp hc with hc | hc
    · rcases List.mem_append.mp hc with hc | hc
      · exact .inr ⟨name, List.mem_cons_self .., hc⟩
      · exact .inl (List.eq_of_mem_replicate hc)
    · refine (ih hc).imp_right ?_
      intro h
      obtain ⟨other, hother, hc⟩ := h
      exact ⟨other, List.mem_cons_of_mem _ hother, hc⟩

/-- Neither names nor commas are blank or slashes. -/
theorem plain_text (h : Listed names text) (hnames : ∀ name ∈ names, IsName name) (hc : c ∈ text) :
    isBlank c = false ∧ c ≠ '/' := by
  rcases h.mem_text hc with rfl | ⟨name, hname, hc⟩
  · decide
  · obtain ⟨hblank, hexcluded⟩ := (hnames name hname).plain c hc
    exact ⟨hblank, fun hslash => hexcluded (by simp [hslash])⟩

end Listed

theorem Spaced.filter_eq {text spaced : List Char} (h : Spaced text spaced) :
    spaced.filter (!isBlank ·) = text.filter (!isBlank ·) := by
  induction h with
  | nil => rfl
  | blank blank rest ih => rw [List.filter_cons_of_neg (by simp [blank]), ih]
  | keep c rest ih => rw [List.filter_cons, List.filter_cons, ih]

/-- Every text is a spacing of its characters that are not blank. -/
theorem spaced_filter (spaced : List Char) : Spaced (spaced.filter (!isBlank ·)) spaced := by
  induction spaced with
  | nil => exact .nil
  | cons c spaced ih =>
    by_cases hc : isBlank c = true
    · rw [List.filter_cons_of_neg (by simp [hc])]
      exact .blank hc ih
    · rw [List.filter_cons_of_pos (by simp [hc])]
      exact .keep c ih

theorem Spaced.mem_or_blank {text spaced : List Char} (h : Spaced text spaced) (hc : c ∈ spaced) :
    c ∈ text ∨ isBlank c = true := by
  induction h with
  | nil => cases hc
  | blank blank rest ih =>
    rcases List.mem_cons.mp hc with rfl | hc
    · exact .inr blank
    · exact ih hc
  | keep c rest ih =>
    rcases List.mem_cons.mp hc with rfl | hc
    · exact .inl (List.mem_cons_self ..)
    · exact (ih hc).imp_left (List.mem_cons_of_mem _)

/-- What counts of a layout is the list with its commas. -/
theorem Layout.essence_eq {names : List String} {comment : String} (h : Layout names comment)
    (hnames : ∀ name ∈ names, IsName name) :
    ∃ commas text, Listed names text ∧
      essence comment.toList = List.replicate commas ',' ++ text := by
  obtain ⟨commas, text, spaced, lines, hlisted, hspaced, hbodies, hcomment⟩ := h
  have hplain : ∀ c ∈ List.replicate commas ',' ++ text, isBlank c = false ∧ c ≠ '/' := by
    intro c hc
    rcases List.mem_append.mp hc with hc | hc
    · rw [List.eq_of_mem_replicate hc]
      decide
    · exact hlisted.plain_text hnames hc
  have hslash : '/' ∉ spaced := by
    intro hmem
    rcases hspaced.mem_or_blank hmem with hmem | hblank
    · exact (hplain _ hmem).2 rfl
    · exact absurd hblank (by decide)
  refine ⟨commas, text, hlisted, ?_⟩
  have hlines : ∀ l ∈ lines, '/' ∉ l.body := by
    intro l hl hmem
    apply hslash
    rw [hbodies, mem_intercalate_iff (by decide)]
    exact ⟨l.body, List.mem_map_of_mem hl, hmem⟩
  rw [hcomment, essence_lines lines hlines, ← hbodies, hspaced.filter_eq, List.filter_eq_self]
  intro c hc
  simp [(hplain c hc).1]

/-! ## Reading -/

/-- A word without commas stands in one of the parts, or not at all. -/
theorem infix_iff_parts {word : List Char} (hword : word ≠ []) (hcomma : ',' ∉ word)
    (text : List Char) : word <:+: text ↔ ∃ part ∈ parts text, word <:+: part := by
  have hpieces := infix_intercalate_iff hword hcomma (text.splitOn ',')
  rw [List.intercalate_splitOn] at hpieces
  rw [hpieces]
  refine exists_congr fun part => ?_
  rw [parts, List.mem_filter]
  refine ⟨?_, fun h => ⟨h.1.1, h.2⟩⟩
  intro h
  have hpart : part ≠ [] := fun hnil => hword (List.infix_nil.mp (hnil ▸ h.2))
  exact ⟨⟨h.1, by simpa using hpart⟩, h.2⟩

/-- A word without commas occurs in a text exactly if it stands in the join of its parts. -/
theorem occurs_iff_of_parts_eq {names : List String} {text word : List Char}
    (h : parts text = names.map String.toList) (hword : word ≠ []) (hcomma : ',' ∉ word) :
    occurs word text = true ↔ word <:+: (",".intercalate names).toList := by
  have hjoin : (",".intercalate names).toList = [','].intercalate (names.map String.toList) :=
    String.toList_intercalate
  rw [Text.occurs_iff, infix_iff_parts hword hcomma, h, hjoin, infix_intercalate_iff hword hcomma]

/-- The words for opting out come first, then the parts. -/
theorem ofEssence_eq (text : List Char) :
    ofEssence text =
      if occurs "nolint".toList text && occurs "mutex_check".toList text then .optOut
      else if parts text = [] then .missing
      else .names ((parts text).map String.ofList) := by
  cases text with
  | nil => decide
  | cons c text =>
    rw [ofEssence, List.isEmpty_cons, if_neg Bool.false_ne_true]
    cases parts (c :: text) <;> rfl

/-- What a comment says whose parts are names. -/
theorem ofEssence_of_parts_eq {names : List String} {text : List Char} (hne : names ≠ [])
    (h : parts text = names.map String.toList) :
    (¬ OptsOut names → ofEssence text = .names names) ∧
    (OptsOut names → ofEssence text = .optOut) := by
  have hout : (occurs "nolint".toList text && occurs "mutex_check".toList text) = true ↔
      OptsOut names := by
    rw [Bool.and_eq_true, occurs_iff_of_parts_eq h (by decide) (by decide),
      occurs_iff_of_parts_eq h (by decide) (by decide)]
    rfl
  have hparts : parts text ≠ [] := by
    rw [h]
    exact fun hnil => hne (List.map_eq_nil_iff.mp hnil)
  have hnames : (parts text).map String.ofList = names := by
    rw [h, List.map_map]
    exact (List.map_congr_left fun name _ => String.ofList_toList).trans (List.map_id names)
  rw [ofEssence_eq, if_neg hparts, hnames]
  exact ⟨fun hnot => if_neg (mt hout.mp hnot), fun hoptOut => if_pos (hout.mpr hoptOut)⟩

theorem mem_parts {part text : List Char} (h : part ∈ parts text) :
    part ≠ [] ∧ ∀ c ∈ part, c ≠ ',' ∧ c ∈ text := by
  rw [parts, List.mem_filter] at h
  refine ⟨by simpa using h.2, ?_⟩
  intro c hc
  have hcomma : c ≠ ',' := fun heq => not_mem_of_mem_splitOn h.1 (heq ▸ hc)
  have hmem := (mem_intercalate_iff hcomma (text.splitOn ',')).mpr ⟨part, h.1, hc⟩
  rw [List.intercalate_splitOn] at hmem
  exact ⟨hcomma, hmem⟩

/-- Names that are read are not empty and hold neither commas nor blanks. -/
theorem names_of_parse_eq {comment : String} {names : List String}
    (h : parse comment = .names names) :
    names ≠ [] ∧ ∀ name ∈ names, name ≠ "" ∧ ∀ c ∈ name.toList, c ≠ ',' ∧ isBlank c = false := by
  rw [parse, ofEssence_eq] at h
  split at h
  · cases h
  split at h
  · cases h
  next hparts =>
  cases h
  refine ⟨fun hnil => hparts (List.map_eq_nil_iff.mp hnil), ?_⟩
  intro name hname
  obtain ⟨part, hpart, rfl⟩ := List.mem_map.mp hname
  obtain ⟨hne, hchars⟩ := mem_parts hpart
  refine ⟨by simpa using hne, ?_⟩
  intro c hc
  rw [String.toList_ofList] at hc
  have hcounts := List.of_mem_filter (hchars c hc).2
  exact ⟨(hchars c hc).1, by simpa using hcounts⟩

/-- An annotation is read alike in every layout: as the names that are listed, or as opting
    out if their join holds both words for it. And names are only ever read as such. -/
theorem note_read_in_any_layout :
    (∀ names comment, names ≠ [] → (∀ name ∈ names, IsName name) → Layout names comment →
      (¬ OptsOut names → parse comment = .names names) ∧
      (OptsOut names → parse comment = .optOut)) ∧
    (∀ comment names, parse comment = .names names →
      names ≠ [] ∧
      ∀ name ∈ names, name ≠ "" ∧ ∀ c ∈ name.toList, c ≠ ',' ∧ isBlank c = false) := by
  refine ⟨?_, fun comment names h => names_of_parse_eq h⟩
  intro names comment hne hnames hlayout
  obtain ⟨commas, text, hlisted, hessence⟩ := hlayout.essence_eq hnames
  rw [parse, hessence]
  apply ofEssence_of_parts_eq hne
  rw [parts_replicate_append, hlisted.parts_eq hnames]

/-- Names broken over lines of every kind: opened, bare with a return behind it, empty, and
    closed with a line feed behind it. -/
def tornLines : List NoteLine :=
  [⟨" , co".toList, .opened, ['\t'], [], by decide, by decide, by decide⟩,
   ⟨"unt,,".toList, .bare, [], ['\r'], by decide, by decide, by decide⟩,
   ⟨[], .line, [], [], by decide, by decide, by decide⟩,
   ⟨"max_ size".toList, .closed, [], [' ', '\n'], by decide, by decide, by decide⟩]

theorem tornLines_layout :
    Layout ["count", "max_size"] "\t/* , co\nunt,,\r\n//\nmax_ size*/ \n" := by
  refine ⟨1, "count,,max_size".toList, " , co\nunt,,\n\nmax_ size".toList, tornLines,
    .cons "count" 1 (.last "max_size" 0), ?_, by decide, by decide⟩
  exact spaced_filter " , co\nunt,,\n\nmax_ size".toList

theorem optOut_layout : Layout ["nolint:mutex_check"] "//nolint:mutex_ check" := by
  refine ⟨0, "nolint:mutex_check".toList, "nolint:mutex_ check".toList,
    [⟨"nolint:mutex_ check".toList, .line, [], [], by decide, by decide, by decide⟩],
    .last "nolint:mutex_check" 0, ?_, by decide, by decide⟩
  exact spaced_filter "nolint:mutex_ check".toList

theorem tornLines_read :
    (∀ name ∈ ["count", "max_size"], IsName name) ∧
    Layout ["count", "max_size"] "\t/* , co\nunt,,\r\n//\nmax_ size*/ \n" ∧
    parse "\t/* , co\nunt,,\r\n//\nmax_ size*/ \n" = .names ["count", "max_size"] ∧
    OptsOut ["nolint:mutex_check"] ∧ parse "//nolint:mutex_ check" = .optOut := by
  have hnames : ∀ name ∈ ["count", "max_size"], IsName name := by
    intro name hname
    rcases List.mem_pair.mp hname with rfl | rfl
    · exact ⟨by decide, by decide⟩
    · exact ⟨by decide, by decide⟩
  have hname : ∀ name ∈ ["nolint:mutex_check"], IsName name := by
    intro name hname
    rw [List.mem_singleton.mp hname]
    exact ⟨by decide, by decide⟩
  have hread := note_read_in_any_layout.1 _ _ (by decide) hnames tornLines_layout
  have hout := note_read_in_any_layout.1 _ _ (by decide) hname optOut_layout
  exact ⟨hnames, tornLines_layout, hread.1 (by decide), by decide, hout.2 (by decide)⟩

end LockDiscipline.LockNote
