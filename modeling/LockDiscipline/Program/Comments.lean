import LockDiscipline.Program.Basic
import LockDiscipline.Dictionary

/- Comments by line. Columns do not matter, and several comments on a line are
   read as one text, in list order, with a line feed between them. The texts are
   kept in an index, into which the comments are entered one after the other;
   `textAt_ofComments` says what a lookup in it finds. -/
namespace LockDiscipline

/-- The texts of comments by file and line. -/
abbrev CommentIndex := Dictionary (Nat × Nat) String

namespace CommentIndex

/-- A text behind the one that the line has already. -/
def joined (more : String) : Option String → String
  | none => more
  | some text => text ++ "\n" ++ more

/-- Enters a comment. -/
def add (index : CommentIndex) (c : Comment) : CommentIndex :=
  index.alter (c.pos.file, c.pos.line) (joined c.text)

/-- The index of a list of comments. -/
def ofComments (comments : List Comment) : CommentIndex := comments.foldl add .empty

/-- The text on the line of `pos`; empty if there is none. -/
def textAt (index : CommentIndex) (pos : Position) : String :=
  (index.get? (pos.file, pos.line)).getD ""

end CommentIndex

namespace Program

/-- The comments of a program by line. -/
def commentIndex (p : Program) : CommentIndex := .ofComments p.snapshot.comments

/-- The text of the comments on the line of `pos`. -/
def commentAt (p : Program) (pos : Position) : String := p.commentIndex.textAt pos

/-- The lines that have comments. -/
def commentedLines (p : Program) : List (Nat × Nat) := p.commentIndex.keys

/-- The texts of the comments on the line of `pos`, in list order. -/
def commentsOn (p : Program) (pos : Position) : List String :=
  (p.snapshot.comments.filter (·.pos.sameLine pos)).map Comment.text

end Program

namespace CommentIndex

variable {pos : Position}

/-- A comment changes the text of its own line only. -/
theorem get?_add (index : CommentIndex) (c : Comment) (pos : Position) :
    (index.add c).get? (pos.file, pos.line) =
      if c.pos.sameLine pos then some (joined c.text (index.get? (pos.file, pos.line)))
      else index.get? (pos.file, pos.line) := by
  rw [add, Dictionary.get?_alter]
  by_cases hline : c.pos.sameLine pos = true
  · rw [if_pos hline]
    rw [Position.sameLine, Bool.and_eq_true, beq_iff_eq, beq_iff_eq] at hline
    rw [hline.1, hline.2, if_pos rfl]
  · rw [if_neg hline, if_neg]
    intro hkey
    obtain ⟨hfile, hnumber⟩ := Prod.mk.inj hkey
    simp [Position.sameLine, hfile, hnumber] at hline

/-- Once a line has a text, the texts entered for it are joined behind that. -/
theorem get?_foldl_add_of_some {index : CommentIndex} {text : String}
    (h : index.get? (pos.file, pos.line) = some text) (comments : List Comment) :
    (comments.foldl add index).get? (pos.file, pos.line) =
      some (String.intercalate "\n"
        (text :: (comments.filter (·.pos.sameLine pos)).map Comment.text)) := by
  induction comments generalizing index text with
  | nil => simpa using h
  | cons c comments ih =>
    rw [List.foldl_cons, List.filter_cons]
    cases hline : c.pos.sameLine pos with
    | false =>
      refine ih ?_
      rw [get?_add, hline, if_neg Bool.false_ne_true, h]
    | true =>
      have hnext : (index.add c).get? (pos.file, pos.line) = some (text ++ "\n" ++ c.text) := by
        rw [get?_add, hline, if_pos rfl, h, joined]
      rw [ih hnext, if_pos rfl, List.map_cons, String.intercalate_cons_append,
        String.intercalate_cons_cons]

/-- The text of a line is that of its comments, with line feeds between them. -/
theorem textAt_ofComments (comments : List Comment) (pos : Position) :
    (ofComments comments).textAt pos =
      String.intercalate "\n" ((comments.filter (·.pos.sameLine pos)).map Comment.text) := by
  rw [ofComments, textAt]
  generalize hindex : (Dictionary.empty : CommentIndex) = index
  have hnone : index.get? (pos.file, pos.line) = none := by rw [← hindex, Dictionary.get?_empty]
  clear hindex
  induction comments generalizing index with
  | nil => rw [List.foldl_nil, hnone]; rfl
  | cons c comments ih =>
    rw [List.foldl_cons, List.filter_cons]
    cases hline : c.pos.sameLine pos with
    | false =>
      refine ih _ ?_
      rw [get?_add, hline, if_neg Bool.false_ne_true, hnone]
    | true =>
      have hfirst : (add index c).get? (pos.file, pos.line) = some c.text := by
        rw [get?_add, hline, if_pos rfl, hnone, joined]
      rw [get?_foldl_add_of_some hfirst]
      rfl

end CommentIndex

theorem Program.commentAt_eq_intercalate (p : Program) (pos : Position) :
    p.commentAt pos = String.intercalate "\n" (p.commentsOn pos) :=
  CommentIndex.textAt_ofComments p.snapshot.comments pos

end LockDiscipline
