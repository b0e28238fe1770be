import LockDiscipline.Text.Lines
import Mathlib.Data.List.Basic
import Mathlib.Data.List.DropRight
import Mathlib.Data.List.Infix
import Mathlib.Data.List.TakeWhile

/- How texts are cut: trimmed, cut into lines, and cut at a separator. Trimming
   takes blanks from the two ends and nothing else (`trim_surrounded`). For whoever
   trims the lines of a text they are its pieces between line feeds (`flatMap_lines`,
   `findSome?_lines`). No piece holds the character at which the text was cut
   (`not_mem_of_mem_splitOn`). -/
namespace LockDiscipline.Text

variable {c : Char} {cs before after : List Char}

/-- The text holds blanks only. -/
def AllBlank (cs : List Char) : Prop := ∀ c ∈ cs, isBlank c = true

instance : DecidablePred AllBlank := fun cs => List.decidableBAll (isBlank · = true) cs

/-- Text without blanks and without the excluded characters. -/
def Plain (excluded cs : List Char) : Prop := ∀ c ∈ cs, isBlank c = false ∧ c ∉ excluded

instance (excluded : List Char) : DecidablePred (Plain excluded) := fun cs =>
  List.decidableBAll (fun c => isBlank c = false ∧ c ∉ excluded) cs

/-! ## Trimming -/

theorem trimStart_append_of_allBlank (h : AllBlank before) (cs : List Char) :
    trimStart (before ++ cs) = trimStart cs :=
  List.dropWhile_append_of_pos h

theorem trimEnd_append_of_allBlank (h : AllBlank after) (cs : List Char) :
    trimEnd (cs ++ after) = trimEnd cs := by
  unfold trimEnd
  rw [List.reverse_append, List.dropWhile_append_of_pos]
  intro c hc
  exact h c (List.mem_reverse.mp hc)

/-- What is taken from the end stops at a character that is not taken. -/
theorem rdropWhile_append_cons {p : Char → Bool} (h : p c = false) (before after : List Char) :
    (before ++ c :: after).rdropWhile p = before ++ c :: after.rdropWhile p := by
  unfold List.rdropWhile
  rw [List.reverse_append, List.reverse_cons, List.append_assoc, List.dropWhile_append]
  by_cases hafter : (after.reverse.dropWhile p).isEmpty = true
  · rw [if_pos hafter, List.singleton_append, List.dropWhile_cons_of_neg (by simp [h]),
      List.isEmpty_iff.mp hafter]
    simp
  · rw [if_neg hafter]
    simp

theorem dropWhile_append_cons {p : Char → Bool} (h : p c = false) (before after : List Char) :
    (before ++ c :: after).dropWhile p = before.dropWhile p ++ c :: after := by
  rw [List.dropWhile_append]
  by_cases hbefore : (before.dropWhile p).isEmpty = true
  · rw [if_pos hbefore, List.dropWhile_cons_of_neg (by simp [h]), List.isEmpty_iff.mp hbefore]
    rfl
  · rw [if_neg hbefore]

theorem trimEnd_append_cons (h : isBlank c = false) (before after : List Char) :
    trimEnd (before ++ c :: after) = before ++ c :: trimEnd after :=
  rdropWhile_append_cons h before after

theorem trimEnd_cons (h : isBlank c = false) (cs : List Char) :
    trimEnd (c :: cs) = c :: trimEnd cs :=
  trimEnd_append_cons h [] cs

theorem trimEnd_concat (h : isBlank c = false) (cs : List Char) : trimEnd (cs ++ [c]) = cs ++ [c] :=
  trimEnd_append_cons h cs []

theorem trimStart_append_cons (h : isBlank c = false) (before after : List Char) :
    trimStart (before ++ c :: after) = trimStart before ++ c :: after :=
  dropWhile_append_cons h before after

theorem trimStart_append_of_not_blank (hne : cs ≠ []) (h : ∀ c ∈ cs, isBlank c = false)
    (rest : List Char) : trimStart (cs ++ rest) = cs ++ rest := by
  cases cs with
  | nil => exact absurd rfl hne
  | cons c cs => exact trimStart_append_cons (h c (List.mem_cons_self ..)) [] (cs ++ rest)

/-- A text without blanks is not trimmed. -/
theorem trim_of_not_blank (hne : cs ≠ []) (h : ∀ c ∈ cs, isBlank c = false) : trim cs = cs := by
  have hstart := trimStart_append_of_not_blank hne h []
  rw [List.append_nil] at hstart
  rw [trim, hstart, ← List.dropLast_append_getLast hne]
  exact trimEnd_concat (h _ (List.getLast_mem hne)) _

theorem trim_cons (h : isBlank c = false) (cs : List Char) : trim (c :: cs) = c :: trimEnd cs := by
  rw [trim, trimStart, List.dropWhile_cons_of_neg (by simp [h]), trimEnd_cons h]

/-- Blanks around a text are no part of it. -/
theorem trim_surrounded (hbefore : AllBlank before) (hafter : AllBlank after) (cs : List Char) :
    trim (before ++ cs ++ after) = trim cs := by
  unfold trim
  rw [List.append_assoc, trimStart_append_of_allBlank hbefore]
  by_cases hcs : AllBlank cs
  · have hall : AllBlank (cs ++ after) := List.forall_mem_append.mpr ⟨hcs, hafter⟩
    rw [trimStart, trimStart, List.dropWhile_eq_nil_iff.mpr hall, List.dropWhile_eq_nil_iff.mpr hcs]
  · have hleft : trimStart (cs ++ after) = trimStart cs ++ after := by
      unfold trimStart
      rw [List.dropWhile_append, if_neg]
      rw [List.isEmpty_iff, List.dropWhile_eq_nil_iff]
      exact hcs
    rw [hleft, trimEnd_append_of_allBlank hafter]

theorem allBlank_nil : AllBlank [] := by
  intro c hc
  cases hc

theorem allBlank_singleton (h : isBlank c = true) : AllBlank [c] := by
  intro d hd
  rwa [List.mem_singleton.mp hd]

theorem trim_append_of_allBlank (h : AllBlank before) (cs : List Char) :
    trim (before ++ cs) = trim cs := by
  have htrim := trim_surrounded h allBlank_nil cs
  rwa [List.append_nil] at htrim

theorem trim_cons_of_blank (h : isBlank c = true) (cs : List Char) : trim (c :: cs) = trim cs :=
  trim_append_of_allBlank (allBlank_singleton h) cs

theorem trim_concat_of_blank (h : isBlank c = true) (cs : List Char) :
    trim (cs ++ [c]) = trim cs :=
  trim_surrounded allBlank_nil (allBlank_singleton h) cs

theorem trim_eq_nil_of_allBlank (h : AllBlank cs) : trim cs = [] := by
  rw [trim, trimStart, List.dropWhile_eq_nil_iff.mpr h]
  rfl

theorem exists_eq_trimEnd_append (cs : List Char) :
    ∃ after, AllBlank after ∧ cs = trimEnd cs ++ after := by
  refine ⟨(cs.reverse.takeWhile isBlank).reverse, ?_, ?_⟩
  · exact fun c hc => List.mem_takeWhile_imp (List.mem_reverse.mp hc)
  · rw [trimEnd, ← List.reverse_append, List.takeWhile_append_dropWhile, List.reverse_reverse]

theorem trim_trimEnd (cs : List Char) : trim (trimEnd cs) = trim cs := by
  obtain ⟨after, hafter, hcs⟩ := exists_eq_trimEnd_append cs
  calc trim (trimEnd cs)
      = trim (trimEnd cs ++ after) := (trim_surrounded allBlank_nil hafter _).symm
    _ = trim cs := by rw [← hcs]

theorem trim_trimStart (cs : List Char) : trim (trimStart cs) = trim cs := by
  have hbefore : AllBlank (cs.takeWhile isBlank) := fun c hc => List.mem_takeWhile_imp hc
  calc trim (trimStart cs)
      = trim (cs.takeWhile isBlank ++ trimStart cs) := (trim_append_of_allBlank hbefore _).symm
    _ = trim cs := by rw [trimStart, List.takeWhile_append_dropWhile]

theorem trim_trim (cs : List Char) : trim (trim cs) = trim cs :=
  (trim_trimEnd (trimStart cs)).trans (trim_trimStart cs)

theorem trimEnd_sublist (cs : List Char) : (trimEnd cs).Sublist cs := by
  have hreverse := (List.dropWhile_sublist isBlank (l := cs.reverse)).reverse
  rwa [List.reverse_reverse] at hreverse

theorem trim_sublist (cs : List Char) : (trim cs).Sublist cs :=
  (trimEnd_sublist _).trans (List.dropWhile_sublist isBlank)

/-- What is dropped at the start is dropped anyway. -/
theorem filter_dropWhile {α : Type} (p : α → Bool) (l : List α) :
    (l.dropWhile p).filter (!p ·) = l.filter (!p ·) := by
  have hdropped : (l.takeWhile p).filter (!p ·) = [] := by
    rw [List.filter_eq_nil_iff]
    intro a ha
    simp [List.mem_takeWhile_imp ha]
  calc (l.dropWhile p).filter (!p ·)
      = (l.takeWhile p ++ l.dropWhile p).filter (!p ·) := by
        rw [List.filter_append, hdropped, List.nil_append]
    _ = l.filter (!p ·) := by rw [List.takeWhile_append_dropWhile]

/-- No character that counts is lost by trimming. -/
theorem filter_trimStart (cs : List Char) :
    (trimStart cs).filter (!isBlank ·) = cs.filter (!isBlank ·) :=
  filter_dropWhile isBlank cs

theorem filter_trimEnd (cs : List Char) :
    (trimEnd cs).filter (!isBlank ·) = cs.filter (!isBlank ·) := by
  rw [trimEnd, List.filter_reverse]
  exact (congrArg List.reverse (filter_trimStart cs.reverse)).trans (by simp)

theorem filter_trim (cs : List Char) :
    (trim cs).filter (!isBlank ·) = cs.filter (!isBlank ·) := by
  rw [trim, filter_trimEnd, filter_trimStart]

/-! ## Lines -/

/-- The return before a line feed is a blank, so trimming does not see it. -/
theorem trim_dropReturn (line : List Char) :
    trim (dropReturn line).reverse = trim line.reverse := by
  unfold dropReturn
  split
  · next rest =>
    rw [List.reverse_cons]
    exact (trim_concat_of_blank (by decide) _).symm
  · rfl

theorem modifyHead_nil_append (pieces : List (List Char)) :
    pieces.modifyHead (([] : List Char).reverse ++ ·) = pieces := by
  cases pieces <;> rfl

/-- The lines of a text behind the line that was begun, once they are trimmed, are the
    pieces between line feeds; an empty last piece is no line. -/
theorem map_trim_splitOn_lf (line cs : List Char) :
    ∃ last, (last = [] ∨ last = [[]]) ∧
      ((cs.splitOn '\n').modifyHead (line.reverse ++ ·)).map trim =
        (linesFrom line cs).map trim ++ last := by
  induction cs generalizing line with
  | nil =>
    cases line with
    | nil => exact ⟨[[]], .inr rfl, rfl⟩
    | cons c line => exact ⟨[], .inl rfl, by simp [linesFrom]⟩
  | cons c cs ih =>
    rw [List.splitOn_cons_eq_if_modifyHead]
    by_cases hc : c = '\n'
    · subst hc
      obtain ⟨last, hlast, hlines⟩ := ih []
      refine ⟨last, hlast, ?_⟩
      rw [modifyHead_nil_append] at hlines
      rw [if_pos (beq_self_eq_true _), List.modifyHead_cons, List.map_cons, hlines, linesFrom,
        List.map_cons, trim_dropReturn, List.append_nil]
      rfl
    · obtain ⟨last, hlast, hlines⟩ := ih (c :: line)
      refine ⟨last, hlast, ?_⟩
      rw [if_neg (by simp [hc]), List.modifyHead_modifyHead, linesFrom, ← hlines]
      · congr 2
        funext piece
        simp
      · exact hc

theorem map_trim_lines (cs : List Char) :
    ∃ last, (last = [] ∨ last = [[]]) ∧
      (cs.splitOn '\n').map trim = (lines cs).map trim ++ last := by
  have hlines := map_trim_splitOn_lf [] cs
  rwa [modifyHead_nil_append] at hlines

variable {α : Type}

/-- Whoever trims the lines and takes nothing from an empty one can cut at the line
    feeds instead. -/
theorem flatMap_lines {f : List Char → List α} (htrim : ∀ line, f (trim line) = f line)
    (hnil : f [] = []) (cs : List Char) : (lines cs).flatMap f = (cs.splitOn '\n').flatMap f := by
  obtain ⟨last, hlast, hlines⟩ := map_trim_lines cs
  have hnothing : last.flatMap f = [] := by
    rcases hlast with rfl | rfl
    · rfl
    · simp [hnil]
  have hcomp : (fun line => f (trim line)) = f := funext htrim
  calc (lines cs).flatMap f
      = ((lines cs).map trim ++ last).flatMap f := by
        rw [List.flatMap_append, hnothing, List.append_nil, List.flatMap_map, hcomp]
    _ = (cs.splitOn '\n').flatMap f := by rw [← hlines, List.flatMap_map, hcomp]

theorem findSome?_lines {f : List Char → Option α} (htrim : ∀ line, f (trim line) = f line)
    (hnil : f [] = none) (cs : List Char) :
    (lines cs).findSome? f = (cs.splitOn '\n').findSome? f := by
  obtain ⟨last, hlast, hlines⟩ := map_trim_lines cs
  have hnothing : last.findSome? f = none := by
    rcases hlast with rfl | rfl
    · rfl
    · simp [hnil]
  have hcomp : f ∘ trim = f := funext htrim
  calc (lines cs).findSome? f
      = ((lines cs).map trim ++ last).findSome? f := by
        rw [List.findSome?_append, hnothing, Option.or_none, List.findSome?_map, hcomp]
    _ = (cs.splitOn '\n').findSome? f := by rw [← hlines, List.findSome?_map, hcomp]

/-! ## Marks -/

theorem after?_eq_some_iff {mark : String} {rest : List Char} :
    after? mark cs = some rest ↔ mark.toList ++ rest = cs :=
  List.isPrefixOf?_eq_some_iff_append_eq

theorem before?_eq_some_iff {mark : String} {rest : List Char} :
    before? mark cs = some rest ↔ rest ++ mark.toList = cs :=
  List.isSuffixOf?_eq_some_iff_append_eq

theorem after?_eq_none {mark : String} (h : ∀ rest, mark.toList ++ rest ≠ cs) :
    after? mark cs = none :=
  Option.eq_none_iff_forall_ne_some.mpr fun rest hrest => h rest (after?_eq_some_iff.mp hrest)

theorem before?_eq_none {mark : String} (h : ∀ rest, rest ++ mark.toList ≠ cs) :
    before? mark cs = none :=
  Option.eq_none_iff_forall_ne_some.mpr fun rest hrest => h rest (before?_eq_some_iff.mp hrest)

/-! ## Pieces -/

/-- No piece holds the character at which the text was cut. -/
theorem not_mem_of_mem_splitOn {sep : Char} {piece : List Char} (h : piece ∈ cs.splitOn sep) :
    sep ∉ piece := by
  induction cs generalizing piece with
  | nil =>
    rw [List.splitOn_nil, List.mem_singleton] at h
    simp [h]
  | cons c cs ih =>
    rw [List.splitOn_cons_eq_if_modifyHead] at h
    by_cases hc : c = sep
    · rw [if_pos (by simp [hc]), List.mem_cons] at h
      rcases h with rfl | h
      · simp
      · exact ih h
    · rw [if_neg (by simp [hc])] at h
      obtain ⟨first, more, hpieces⟩ := List.exists_cons_of_ne_nil (List.splitOn_ne_nil sep cs)
      rw [hpieces] at h ih
      rcases List.mem_cons.mp h with rfl | h
      · rw [List.mem_cons, not_or]
        exact ⟨Ne.symm hc, ih (List.mem_cons_self ..)⟩
      · exact ih (List.mem_cons_of_mem _ h)

/-- A word without the separator does not reach across it. -/
theorem infix_append_sep_iff {sep : Char} {word : List Char} (hword : word ≠ []) (hsep : sep ∉ word)
    (cs rest : List Char) : word <:+: cs ++ sep :: rest ↔ word <:+: cs ∨ word <:+: rest := by
  refine ⟨?_, ?_⟩
  · intro h
    rcases List.infix_append_iff.mp h with h | h | ⟨left, right, hparts, hleft, hright⟩
    · exact .inl h
    · rcases List.infix_cons_iff.mp h with h | h
      · cases word with
        | nil => exact absurd rfl hword
        | cons c word =>
          rw [(List.cons_prefix_cons.mp h).1] at hsep
          exact absurd (List.mem_cons_self ..) hsep
      · exact .inr h
    · -- the part behind the cut is empty, since it would start with the separator
      cases right with
      | nil =>
        rw [hparts, List.append_nil]
        exact .inl hleft.isInfix
      | cons c right =>
        rw [hparts, (List.cons_prefix_cons.mp hright).1] at hsep
        exact absurd (List.mem_append_right _ (List.mem_cons_self ..)) hsep
  · intro h
    rcases h with h | h
    · exact h.trans (List.prefix_append _ _).isInfix
    · exact h.trans ((List.suffix_cons _ _).trans (List.suffix_append _ _)).isInfix

/-- A word without the separator stands in one of the pieces, or not at all. -/
theorem infix_intercalate_iff {sep : Char} {word : List Char} (hword : word ≠ [])
    (hsep : sep ∉ word) (pieces : List (List Char)) :
    word <:+: [sep].intercalate pieces ↔ ∃ piece ∈ pieces, word <:+: piece := by
  induction pieces with
  | nil => simp [hword]
  | cons piece pieces ih =>
    cases pieces with
    | nil => simp
    | cons next pieces =>
      rw [List.intercalate_cons_cons, List.append_assoc, List.singleton_append,
        infix_append_sep_iff hword hsep, List.exists_mem_cons_iff]
      exact or_congr_right ih

theorem mem_intercalate_iff {sep : Char} (h : c ≠ sep) (pieces : List (List Char)) :
    c ∈ [sep].intercalate pieces ↔ ∃ piece ∈ pieces, c ∈ piece := by
  have hword : sep ∉ [c] := fun hmem => h (List.mem_singleton.mp hmem).symm
  simpa only [List.singleton_infix_iff] using
    infix_intercalate_iff (List.cons_ne_nil c []) hword pieces

theorem occurs_iff {word : List Char} : occurs word cs = true ↔ word <:+: cs := by
  induction cs with
  | nil => simp [occurs]
  | cons c cs ih =>
    rw [occurs, Bool.or_eq_true, List.isPrefixOf_iff_prefix, ih, List.infix_cons_iff]

end LockDiscipline.Text
