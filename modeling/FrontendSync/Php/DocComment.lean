import FrontendSync.Text.Lines

/-!
# Documentation comments

The text of a `/** ... */` comment: its frame, the asterisk that starts a line and the lines of
tags are left out.
-/

namespace FrontendSync.Php.DocComment

open FrontendSync.Text

/-- A line without the blanks around it and the asterisk before it. -/
def lineText (line : List Char) : List Char :=
  match trim line with
  | '*' :: line => trim line
  | line => line

def isTag (line : List Char) : Bool := line.head? == some '@'

def dropEmpty (ls : List (List Char)) : List (List Char) := ls.dropWhile (· = [])

/-- The text of a comment, from its first line that is not empty to its last; none if all lines
are empty. -/
def text? (raw : String) : Option String :=
  let inner := trimEndOf ['*', '/'] (trimStartOf ['/', '*', '*'] (trim raw.toList))
  let ls := ((lines inner).map lineText).filter (!isTag ·)
  match (dropEmpty (dropEmpty ls).reverse).reverse with
  | [] => none
  | ls => some (String.ofList (join '\n' ls))

end FrontendSync.Php.DocComment
