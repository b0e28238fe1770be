import LockDiscipline.Storage.Path
import LockDiscipline.Proofs.Text.Cuts

/- Going up by the text of a path. Some pieces of a path move and the others are
   idle (`moves`). The paths above a path lose its moves one by one from the end
   (`map_moves_self_parents`) and start where it starts (`isAbsolute_of_mem_parents`); they
   are what going up one level gives again and again (`parents_eq`). A name that is
   joined to a path is one more move (`exists_pieces_join`). -/
namespace LockDiscipline.Path

open Text

/-- The pieces of a path that move. -/
def moves (p : Path) : List (List Char) := p.pieces.filter (!isIdle ·)

/-- What a start is among the pieces. -/
def Lead.opening : Lead → List (List Char)
  | .plain => []
  | .root => [[]]
  | .here => [['.']]

/-- How many paths without moves are above a start: above `.` is the empty path. -/
def Lead.spare : Lead → Nat
  | .here => 1
  | _ => 0

/-- Pieces that can stand behind a start: they are cut at slashes, and where the start is
    nothing special the first of them moves. -/
structure Sound (lead : Lead) (body : List (List Char)) : Prop where
  cut : ∀ piece ∈ body, '/' ∉ piece
  moving : lead = .plain → ∀ piece, body.head? = some piece → isIdle piece = false

theorem Sound.of_prefix {lead : Lead} {body before : List (List Char)} (h : Sound lead body)
    (hbefore : before <+: body) : Sound lead before := by
  refine ⟨fun piece hpiece => h.cut piece (hbefore.subset hpiece), ?_⟩
  intro hlead piece hpiece
  obtain ⟨rest, rfl⟩ := hbefore
  apply h.moving hlead
  rw [List.head?_append, hpiece]
  rfl

/-! ## Starts and pieces -/

theorem pieces_mk (cs : List Char) : pieces ⟨String.ofList cs⟩ = cs.splitOn '/' := by
  rw [pieces, String.toList_ofList]

theorem text_eq_intercalate (p : Path) : p.text.toList = ['/'].intercalate p.pieces :=
  (List.intercalate_splitOn '/').symm

/-- How the pieces of a path begin tells its start. -/
theorem split_cases (p : Path) :
    (∃ next rest, p.pieces = [] :: next :: rest ∧ p.split = (.root, next :: rest)) ∨
    (∃ rest, p.pieces = ['.'] :: rest ∧ p.split = (.here, rest)) ∨
    (p.split = (.plain, p.pieces) ∧
      (p.text = "" ∨ ∃ first rest, p.pieces = first :: rest ∧ isIdle first = false)) := by
  obtain ⟨first, rest, hpieces⟩ :=
    List.exists_cons_of_ne_nil (List.splitOn_ne_nil '/' p.text.toList)
  change p.pieces = first :: rest at hpieces
  by_cases hidle : isIdle first = true
  · rw [isIdle, Bool.or_eq_true, beq_iff_eq, beq_iff_eq] at hidle
    rcases hidle with rfl | rfl
    · cases rest with
      | nil =>
        refine .inr (.inr ⟨by simp only [split, hpieces], .inl ?_⟩)
        rw [← String.toList_eq_nil_iff, text_eq_intercalate, hpieces]
        rfl
      | cons next rest => exact .inl ⟨next, rest, hpieces, by simp only [split, hpieces]⟩
    · exact .inr (.inl ⟨rest, hpieces, by simp only [split, hpieces]⟩)
  · rw [Bool.not_eq_true] at hidle
    refine .inr (.inr ⟨?_, .inr ⟨first, rest, hpieces, hidle⟩⟩)
    rw [split, hpieces]
    split
    · next h =>
      rw [(List.cons.inj h).1] at hidle
      cases hidle
    · next h =>
      rw [(List.cons.inj h).1] at hidle
      cases hidle
    · rfl

theorem pieces_eq_split (p : Path) : p.pieces = p.split.1.opening ++ p.split.2 := by
  rcases p.split_cases with ⟨next, rest, hpieces, hsplit⟩ | ⟨rest, hpieces, hsplit⟩ | ⟨hsplit, -⟩
  · rw [hsplit, hpieces]
    rfl
  · rw [hsplit, hpieces]
    rfl
  · rw [hsplit]
    rfl

theorem moves_eq_split (p : Path) : p.moves = p.split.2.filter (!isIdle ·) := by
  have hopening : ∀ lead : Lead, lead.opening.filter (!isIdle ·) = [] := by
    intro lead
    cases lead <;> rfl
  rw [moves, pieces_eq_split, List.filter_append, hopening, List.nil_append]

theorem sound_split {p : Path} (h : p.text ≠ "") : Sound p.split.1 p.split.2 := by
  have hcut : ∀ piece ∈ p.split.2, '/' ∉ piece := by
    intro piece hpiece
    have hmem : piece ∈ p.pieces := by
      rw [pieces_eq_split]
      exact List.mem_append_right _ hpiece
    exact not_mem_of_mem_splitOn hmem
  refine ⟨hcut, ?_⟩
  intro hlead piece hpiece
  rcases p.split_cases with ⟨next, rest, -, hsplit⟩ | ⟨rest, -, hsplit⟩ | ⟨hsplit, hfirst⟩
  · rw [hsplit] at hlead
    cases hlead
  · rw [hsplit] at hlead
    cases hlead
  · obtain ⟨first, rest, hpieces, hmoving⟩ := hfirst.resolve_left h
    rw [hsplit, hpieces, List.head?_cons, Option.some.injEq] at hpiece
    rwa [← hpiece]

theorem sound_reverse_split {p : Path} (h : p.text ≠ "") :
    Sound p.split.1 p.split.2.reverse.reverse := by
  rw [List.reverse_reverse]
  exact sound_split h

theorem head?_intercalate {piece : List Char} (hne : piece ≠ []) (rest : List (List Char)) :
    (['/'].intercalate (piece :: rest)).head? = piece.head? := by
  obtain ⟨c, more, rfl⟩ := List.exists_cons_of_ne_nil hne
  cases rest with
  | nil => simp
  | cons next rest =>
    rw [List.intercalate_cons_cons]
    rfl

theorem isAbsolute_iff (p : Path) : p.isAbsolute = true ↔ p.split.1 = .root := by
  rw [isAbsolute, beq_iff_eq]
  rcases p.split_cases with ⟨next, rest, hpieces, hsplit⟩ | ⟨rest, hpieces, hsplit⟩ |
    ⟨hsplit, htext | ⟨first, rest, hpieces, hmoving⟩⟩
  · rw [hsplit, text_eq_intercalate, hpieces, List.intercalate_cons_cons]
    simp
  · rw [hsplit, text_eq_intercalate, hpieces, head?_intercalate (by decide)]
    simp
  · rw [hsplit, htext]
    simp
  · have hfirst : first ≠ [] := by
      intro hnil
      rw [hnil] at hmoving
      cases hmoving
    have hslash : '/' ∉ first :=
      not_mem_of_mem_splitOn (hpieces ▸ List.mem_cons_self .. : first ∈ p.pieces)
    rw [hsplit, text_eq_intercalate, hpieces, head?_intercalate hfirst]
    refine ⟨fun hhead => absurd (List.mem_of_mem_head? hhead) hslash, ?_⟩
    intro hroot
    cases hroot

/-! ## Spelling a path -/

theorem pieces_spell (lead : Lead) {body : List (List Char)} (hne : body ≠ [])
    (hcut : ∀ piece ∈ body, '/' ∉ piece) : (spell lead body).pieces = lead.opening ++ body := by
  have hbody : (['/'].intercalate body).splitOn '/' = body := List.splitOn_intercalate '/' hcut hne
  cases lead with
  | plain =>
    rw [spell, pieces_mk, hbody]
    rfl
  | root =>
    have hroot : ([] ++ '/' :: ['/'].intercalate body).splitOn '/' = [] :: body := by
      rw [List.splitOn_append_cons_self, hbody]
      rfl
    rw [spell, pieces_mk]
    exact hroot
  | here =>
    have hhere : (['.'] ++ '/' :: ['/'].intercalate body).splitOn '/' = ['.'] :: body := by
      rw [List.splitOn_append_cons_self, hbody]
      rfl
    rw [spell, List.isEmpty_eq_false_iff.mpr hne, if_neg Bool.false_ne_true, pieces_mk]
    exact hhere

theorem split_spell {lead : Lead} {body : List (List Char)} (h : Sound lead body)
    (hne : body ≠ []) : (spell lead body).split = (lead, body) := by
  have hpieces := pieces_spell lead hne h.cut
  obtain ⟨first, rest, rfl⟩ := List.exists_cons_of_ne_nil hne
  cases lead with
  | root => simp only [split, hpieces, Lead.opening, List.singleton_append]
  | here => simp only [split, hpieces, Lead.opening, List.singleton_append]
  | plain =>
    rw [Lead.opening, List.nil_append] at hpieces
    have hfirst : isIdle first = false := h.moving rfl first rfl
    rcases split_cases (spell .plain (first :: rest)) with
      ⟨_, _, hother, -⟩ | ⟨_, hother, -⟩ | ⟨hsplit, -⟩
    · rw [hpieces] at hother
      rw [(List.cons.inj hother).1] at hfirst
      cases hfirst
    · rw [hpieces] at hother
      rw [(List.cons.inj hother).1] at hfirst
      cases hfirst
    · rw [hsplit, hpieces]

/-- What is spelled starts with `lead` and has the moves of `body`. -/
theorem moves_spell {lead : Lead} {body : List (List Char)} (h : Sound lead body) :
    (spell lead body).moves = body.filter (!isIdle ·) := by
  by_cases hne : body = []
  · subst hne
    cases lead <;> decide
  · rw [moves_eq_split, split_spell h hne]

theorem isAbsolute_spell {lead : Lead} {body : List (List Char)} (h : Sound lead body) :
    (spell lead body).isAbsolute = true ↔ lead = .root := by
  by_cases hne : body = []
  · subst hne
    cases lead <;> decide
  · rw [isAbsolute_iff, split_spell h hne]

/-! ## Going up -/

theorem above_of_idle (lead : Lead) {reversed : List (List Char)}
    (h : reversed.dropWhile isIdle = []) :
    above lead reversed = if lead = .here then [⟨""⟩] else [] := by
  rw [above]
  split
  · rfl
  · next hmoving =>
    rw [h] at hmoving
    cases hmoving

theorem above_of_moving (lead : Lead) {reversed rest : List (List Char)} {piece : List Char}
    (h : reversed.dropWhile isIdle = piece :: rest) :
    above lead reversed =
      spell lead (rest.dropWhile isIdle).reverse :: above lead (rest.dropWhile isIdle) := by
  rw [above]
  split
  · next hidle =>
    rw [h] at hidle
    cases hidle
  · next hmoving =>
    rw [h] at hmoving
    rw [(List.cons.inj hmoving).2]

theorem parents_spell {lead : Lead} {body : List (List Char)} (h : Sound lead body) :
    (spell lead body).parents = above lead body.reverse := by
  by_cases hne : body = []
  · subst hne
    have hlead : (spell lead []).split.1 = lead := by cases lead <;> decide
    have hidle : (spell lead []).split.2.reverse.dropWhile isIdle = [] := by cases lead <;> decide
    rw [parents, hlead, above_of_idle lead hidle, above_of_idle lead rfl]
  · rw [parents, split_spell h hne]

theorem Sound.of_suffix {lead : Lead} {reversed rest : List (List Char)}
    (h : Sound lead reversed.reverse) (hrest : rest <:+ reversed) : Sound lead rest.reverse :=
  h.of_prefix (List.reverse_prefix.mpr hrest)

/-- What is left after the last move, with the idle pieces before it dropped as well. -/
theorem dropWhile_suffix_of_moving {reversed rest : List (List Char)} {piece : List Char}
    (h : reversed.dropWhile isIdle = piece :: rest) : rest.dropWhile isIdle <:+ reversed := by
  have hrest : rest <:+ reversed.dropWhile isIdle := by
    rw [h]
    exact List.suffix_cons piece rest
  exact (List.dropWhile_suffix isIdle).trans (hrest.trans (List.dropWhile_suffix isIdle))

/-- Induction over the moves of pieces that are given in reverse. -/
@[elab_as_elim]
theorem moves_induction {motive : List (List Char) → Prop} (reversed : List (List Char))
    (idle : ∀ reversed, reversed.dropWhile isIdle = [] → motive reversed)
    (moving : ∀ reversed piece rest, reversed.dropWhile isIdle = piece :: rest →
      motive (rest.dropWhile isIdle) → motive reversed) : motive reversed := by
  induction hlength : reversed.length using Nat.strongRecOn generalizing reversed with
  | ind length ih =>
    cases hdrop : reversed.dropWhile isIdle with
    | nil => exact idle reversed hdrop
    | cons piece rest =>
      have hshorter : (rest.dropWhile isIdle).length < length := by
        have hrest := (List.dropWhile_suffix isIdle (l := rest)).length_le
        have hall := (List.dropWhile_suffix isIdle (l := reversed)).length_le
        rw [hdrop, List.length_cons] at hall
        omega
      exact moving reversed piece rest hdrop (ih _ hshorter _ rfl)

/-- The paths above lose the moves one by one from the end. -/
theorem moves_cons_map_above (lead : Lead) (reversed : List (List Char))
    (h : Sound lead reversed.reverse) :
    (reversed.filter (!isIdle ·)).reverse :: (above lead reversed).map moves =
      (reversed.filter (!isIdle ·)).tails.map List.reverse ++ List.replicate lead.spare [] := by
  induction reversed using moves_induction with
  | idle reversed hdrop =>
    rw [above_of_idle lead hdrop, ← filter_dropWhile, hdrop]
    cases lead <;> decide
  | moving reversed piece rest hdrop ih =>
    have hrest := h.of_suffix (dropWhile_suffix_of_moving hdrop)
    have hmoving : isIdle piece = false := by
      have hhead := List.head?_dropWhile_not isIdle reversed
      rw [hdrop] at hhead
      exact hhead
    have hmoves : reversed.filter (!isIdle ·) =
        piece :: (rest.dropWhile isIdle).filter (!isIdle ·) := by
      rw [← filter_dropWhile isIdle reversed, hdrop, List.filter_cons_of_pos (by simp [hmoving]),
        filter_dropWhile]
    rw [above_of_moving lead hdrop, hmoves, List.map_cons, moves_spell hrest, List.filter_reverse,
      ih hrest, List.tails_cons, List.map_cons, List.cons_append]

/-- A path and the paths above it have the beginnings of its moves, the longest first. -/
theorem map_moves_self_parents {p : Path} (h : p.text ≠ "") :
    (p :: p.parents).map moves = p.moves.inits.reverse ++ List.replicate p.split.1.spare [] := by
  have habove := moves_cons_map_above p.split.1 p.split.2.reverse (sound_reverse_split h)
  rw [List.filter_reverse, List.reverse_reverse, List.map_reverse_tails, List.reverse_reverse,
    ← moves_eq_split] at habove
  exact habove

theorem moves_prefix_of_mem {p q : Path} (h : p.text ≠ "") (hq : q ∈ p :: p.parents) :
    q.moves <+: p.moves := by
  have hmem : q.moves ∈ (p :: p.parents).map moves := List.mem_map_of_mem hq
  rw [map_moves_self_parents h, List.mem_append, List.mem_reverse, List.mem_inits] at hmem
  rcases hmem with hmem | hmem
  · exact hmem
  · rw [List.eq_of_mem_replicate hmem]
    exact List.nil_prefix

theorem isAbsolute_of_mem_above {lead : Lead} {reversed : List (List Char)} {q : Path}
    (h : Sound lead reversed.reverse) (hq : q ∈ above lead reversed) :
    q.isAbsolute = true ↔ lead = .root := by
  induction reversed using moves_induction with
  | idle reversed hdrop =>
    rw [above_of_idle lead hdrop] at hq
    cases lead with
    | plain => cases hq
    | root => cases hq
    | here =>
      rw [if_pos rfl, List.mem_singleton] at hq
      rw [hq]
      decide
  | moving reversed piece rest hdrop ih =>
    have hrest := h.of_suffix (dropWhile_suffix_of_moving hdrop)
    rw [above_of_moving lead hdrop, List.mem_cons] at hq
    rcases hq with rfl | hq
    · exact isAbsolute_spell hrest
    · exact ih hrest hq

/-- The paths above a path start where it starts. -/
theorem isAbsolute_of_mem_parents {p q : Path} (h : p.text ≠ "") (hq : q ∈ p.parents) :
    q.isAbsolute = p.isAbsolute := by
  rw [Bool.eq_iff_iff, isAbsolute_of_mem_above (sound_reverse_split h) hq, isAbsolute_iff]

theorem parents_empty : parents ⟨""⟩ = [] := above_of_idle .plain rfl

/-- The paths above are what going up one level gives again and again. -/
theorem parents_eq {p q : Path} (h : p.parent? = some q) : p.parents = q :: q.parents := by
  rw [parent?] at h
  by_cases htext : p.text = ""
  · rw [show p = ⟨""⟩ from congrArg Path.mk htext, parents_empty] at h
    cases h
  · have hsound := sound_reverse_split htext
    rw [parents] at h ⊢
    cases hdrop : p.split.2.reverse.dropWhile isIdle with
    | nil =>
      rw [above_of_idle _ hdrop] at h ⊢
      by_cases hlead : p.split.1 = .here
      · rw [if_pos hlead, List.head?_cons, Option.some.injEq] at h
        rw [if_pos hlead, ← h, parents_empty]
      · rw [if_neg hlead] at h
        cases h
    | cons piece rest =>
      rw [above_of_moving _ hdrop] at h ⊢
      rw [List.head?_cons, Option.some.injEq] at h
      rw [← h, parents_spell (hsound.of_suffix (dropWhile_suffix_of_moving hdrop)),
        List.reverse_reverse]

/-! ## Joining a name -/

theorem isAbsolute_of_no_slash {name : Path} (hname : '/' ∉ name.text.toList) :
    name.isAbsolute = false := by
  rw [isAbsolute, beq_eq_false_iff_ne]
  intro hhead
  exact hname (List.mem_of_mem_head? hhead)

/-- A name stands alone behind the empty path and behind one slash elsewhere. -/
theorem join_cases (p : Path) {name : Path} (hname : '/' ∉ name.text.toList) :
    (p.text = "" ∧ p.join name = name) ∨
    ∃ before, (p.join name).text.toList = before ++ '/' :: name.text.toList ∧
      (p.text.toList = before ++ ['/'] ∨ (p.text.toList = before ∧ before ≠ [])) := by
  rw [join, isAbsolute_of_no_slash hname, if_neg Bool.false_ne_true]
  by_cases hempty : p.text = ""
  · refine .inl ⟨hempty, ?_⟩
    rw [if_pos (by simp [hempty]), hempty, String.empty_append]
  · refine .inr ?_
    by_cases hlast : p.text.toList.getLast? = some '/'
    · obtain ⟨before, hbefore⟩ := List.getLast?_eq_some_iff.mp hlast
      refine ⟨before, ?_, .inl hbefore⟩
      rw [if_pos (by simp [hlast]), String.toList_append, hbefore, List.append_assoc,
        List.singleton_append]
    · refine ⟨p.text.toList, ?_, .inr ⟨rfl, mt String.toList_eq_nil_iff.mp hempty⟩⟩
      rw [if_neg (by simp [hempty, hlast]), String.toList_append, String.toList_append,
        List.append_assoc]
      rfl

/-- A name that is joined to a path is one more piece behind the moves of the path. -/
theorem exists_pieces_join (p : Path) {name : Path} (hname : '/' ∉ name.text.toList) :
    ∃ before, (p.join name).pieces = before ++ [name.text.toList] ∧
      before.filter (!isIdle ·) = p.moves := by
  have hpieces : name.text.toList.splitOn '/' = [name.text.toList] :=
    List.splitOn_eq_singleton hname
  rcases p.join_cases hname with ⟨hempty, hjoin⟩ | ⟨before, hjoin, hbefore⟩
  · refine ⟨[], by rw [hjoin]; exact hpieces, ?_⟩
    rw [moves, pieces, hempty]
    rfl
  · refine ⟨before.splitOn '/', ?_, ?_⟩
    · rw [pieces, hjoin, List.splitOn_append_cons_self, hpieces]
    · rcases hbefore with hslash | ⟨hbefore, -⟩
      · rw [moves, pieces, hslash, List.splitOn_append_cons_self]
        simp [isIdle]
      · rw [moves, pieces, hbefore]

/-- A name that is joined to a path leaves where the path starts. -/
theorem isAbsolute_join (p : Path) {name : Path} (hname : '/' ∉ name.text.toList) :
    (p.join name).isAbsolute = p.isAbsolute := by
  rcases p.join_cases hname with ⟨hempty, hjoin⟩ | ⟨before, hjoin, hbefore⟩
  · rw [hjoin, isAbsolute_of_no_slash hname, isAbsolute, hempty]
    rfl
  · rw [isAbsolute, isAbsolute, hjoin]
    rcases hbefore with hslash | ⟨hbefore, hne⟩
    · rw [hslash, List.head?_append, List.head?_append, List.head?_cons, List.head?_cons]
    · rw [hbefore, List.head?_append_of_ne_nil _ hne]

theorem text_join_ne_empty (p : Path) {name : Path} (hname : '/' ∉ name.text.toList)
    (hne : name.text ≠ "") : (p.join name).text ≠ "" := by
  rcases p.join_cases hname with ⟨-, hjoin⟩ | ⟨before, hjoin, -⟩
  · rw [hjoin]
    exact hne
  · intro htext
    rw [htext] at hjoin
    simp at hjoin

end LockDiscipline.Path
