/-!
# Stripping comments

A module without its comments: a block comment leaves a space, a line comment leaves its line
break, and strings are copied as they are.
-/

namespace FrontendSync.Module

namespace Strip

/-- Where in a module a character stands. -/
inductive Mode where
  | code
  | string (quote : Char)
  | lineComment
  | blockComment
deriving DecidableEq, Repr

def isQuote (c : Char) : Bool := c == '"' || c == '\'' || c == '`'

def strip : Mode → List Char → List Char
  | .code, [] => []
  | .code, '/' :: '/' :: s => strip .lineComment s
  | .code, '/' :: '*' :: s => strip .blockComment s
  | .code, c :: s => c :: strip (if isQuote c then .string c else .code) s
  | .string _, [] => []
  | .string q, '\\' :: c :: s => '\\' :: c :: strip (.string q) s
  | .string q, c :: s => c :: strip (if c = q then .code else .string q) s
  | .lineComment, [] => []
  | .lineComment, c :: s => if c = '\n' then '\n' :: strip .code s else strip .lineComment s
  | .blockComment, [] => [' ']
  | .blockComment, '*' :: '/' :: s => ' ' :: strip .code s
  | .blockComment, _ :: s => strip .blockComment s

end Strip

def stripComments (source : String) : String :=
  String.ofList (Strip.strip .code source.toList)

end FrontendSync.Module
