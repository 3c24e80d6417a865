import FrontendSync.Php.DocComment
import FrontendSync.Proofs.Php.Spelling
import FrontendSync.Proofs.Text.Pieces
import FrontendSync.Proofs.Text.Trim
import Mathlib.Tactic.MkIffOfInductiveProp

/-!
# Documentation of one line

A line of text between the frame of a documentation comment is the text of the comment.
-/

namespace FrontendSync

namespace Php.DocComment

open FrontendSync.Text

/-- A line that is the text of a comment: it is not taken for the frame of the comment or for a
tag. -/
@[mk_iff]
structure IsDocLine (text : List Char) : Prop where
  nonempty : text ≠ []
  oneLine : '\n' ∉ text
  trimmed : trim text = text
  closed : ¬ ['*', '/'] <:+: text
  start : text.head? ≠ some '*' ∧ text.head? ≠ some '@'

instance : DecidablePred IsDocLine := fun text ↦ decidable_of_iff _ (isDocLine_iff text).symm

/-- A line in the frame of a comment. -/
def frame (text : String) : String := "/** " ++ text ++ " */"

theorem toList_frame (text : String) :
    (frame text).toList = ['/', '*', '*'] ++ (' ' :: (text.toList ++ [' ']) ++ ['*', '/']) := by
  simp [frame]

theorem IsDocLine.isSpelled {text : String} (h : IsDocLine text.toList) :
    (Token.Kind.docComment (frame text)).IsSpelled := by
  refine ⟨' ' :: (text.toList ++ [' ']), by simp [toList_frame], by simp, ?_⟩
  rw [List.infix_cons_iff, List.infix_concat_iff]
  rintro (hpre | hsuf | hinfix)
  · simp at hpre
  · have hlast := hsuf.getLast (by simp)
    simp at hlast
  · exact h.closed hinfix

/-- The text of a comment is the line in its frame. -/
theorem IsDocLine.text?_frame {text : String} (h : IsDocLine text.toList) :
    text? (frame text) = some text := by
  have htrim : trim (frame text).toList = (frame text).toList := by
    have hshape : (frame text).toList
        = '/' :: (['*', '*', ' '] ++ text.toList ++ [' ', '*'] ++ ['/']) := by simp [frame]
    rw [hshape]
    exact trim_of_ends (by decide) (by decide) _
  have hstart : trimStartOf ['/', '*', '*'] (frame text).toList
      = ' ' :: (text.toList ++ [' ']) ++ ['*', '/'] := by
    rw [toList_frame]
    exact trimStartOf_append (by simp) (by simp [stripStart?])
  have hend : trimEndOf ['*', '/'] (' ' :: (text.toList ++ [' ']) ++ ['*', '/'])
      = ' ' :: (text.toList ++ [' ']) := by
    rw [trimEndOf, List.reverse_append, trimStartOf_append (by simp), List.reverse_reverse]
    simp [stripStart?]
  have hlines : lines (' ' :: (text.toList ++ [' '])) = [' ' :: (text.toList ++ [' '])] := by
    have hpieces : pieces '\n' (' ' :: (text.toList ++ [' '])) = [' ' :: (text.toList ++ [' '])] :=
      pieces_of_notMem (by simp [h.oneLine])
    simp [lines, hpieces]
  have hline : lineText (' ' :: (text.toList ++ [' '])) = text.toList := by
    rw [lineText, trim_blanks h.trimmed h.nonempty (by decide) (by decide)]
    split
    · rename_i heq
      exact absurd (by rw [heq]; rfl) h.start.1
    · rfl
  have htag : isTag text.toList = false := by
    simpa [isTag] using h.start.2
  simp only [text?, htrim, hstart, hend, hlines, List.map_cons, List.map_nil, hline]
  simp [htag, dropEmpty, h.nonempty, join]

end Php.DocComment

end FrontendSync
