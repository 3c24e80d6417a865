import FrontendSync.Artifact
import FrontendSync.Text.Lines

/-!
# Style of generated modules

The choices all modules are written with, and documentation comments.
-/

namespace FrontendSync.Module

/-- The format, and whether the last entry of a list is followed by a comma. -/
structure Style where
  format : Format
  trailingComma : Bool
deriving DecidableEq, Repr

namespace Style

def isTs (s : Style) : Bool := s.format == .ts

/-- The assertion after a constant. -/
def asConst (s : Style) : String := if s.isTs then " as const" else ""

/-- Each row with a comma after it; after the last one only if the style asks for it. -/
def separated (s : Style) : List String → List String
  | [] => []
  | [row] => [if s.trailingComma then row ++ "," else row]
  | row :: rows => (row ++ ",") :: s.separated rows

end Style

def indent : String := "  "

/-- A line of a comment in which nothing closes the comment. -/
def commentLine (line : List Char) : String :=
  String.ofList (Text.replace ['*', '/'] ['*', '\\', '/'] line)

/-- A line of a block comment behind its asterisk. -/
def blockLine (before line : String) : String :=
  if line == "" then before ++ " *" else before ++ " * " ++ line

/-- A documentation comment with `before` in front of each line; one line of text stays on one
line. -/
def docComment (before doc : String) : List String :=
  match (Text.lines doc.toList).map commentLine with
  | [line] => [before ++ "/** " ++ line ++ " */"]
  | ls => [before ++ "/**"] ++ ls.map (blockLine before) ++ [before ++ " */"]

/-- The documentation comment of a text, if there is one. -/
def docLines (before : String) (doc : Option String) : List String :=
  match doc with
  | some doc => docComment before doc
  | none => []

end FrontendSync.Module
