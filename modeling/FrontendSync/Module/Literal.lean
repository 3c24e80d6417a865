import FrontendSync.Number.Layout

/-!
# Literals of generated modules

Strings are quoted with as little escaping as possible, and keys that are identifiers are not
quoted at all.
-/

namespace FrontendSync

namespace Module

/-- The escape of a character wherever it stands in a string. -/
def escapeChar (c : Char) : List Char :=
  match c with
  | '\\' => ['\\', '\\']
  | '\n' => ['\\', 'n']
  | '\r' => ['\\', 'r']
  | '\u2028' => "\\u2028".toList
  | '\u2029' => "\\u2029".toList
  | c => [c]

/-- The escape of a character between apostrophes. -/
def escapeApostrophe (c : Char) : List Char := if c = '\'' then ['\\', '\''] else escapeChar c

/-- A string between apostrophes; between double quotes if that saves escaping apostrophes. -/
def quoteChars (s : List Char) : List Char :=
  if s.contains '\'' && !s.contains '"' then '"' :: s.flatMap escapeChar ++ ['"']
  else '\'' :: s.flatMap escapeApostrophe ++ ['\'']

def quote (s : String) : String := String.ofList (quoteChars s.toList)

def isIdentifierStart (c : Char) : Bool := c.isAlpha || c == '_' || c == '$'

def isIdentifierChar (c : Char) : Bool := c.isAlphanum || c == '_' || c == '$'

def isIdentifier (s : String) : Bool :=
  match s.toList with
  | [] => false
  | c :: cs => isIdentifierStart c && cs.all isIdentifierChar

/-- A key as it is written: an identifier as it is, anything else quoted. -/
def key (s : String) : String := if isIdentifier s then s else quote s

end Module

inductive Scalar where
  | null
  | bool (b : Bool)
  | int (n : Int)
  | float (x : Binary64)
  | string (text : String)
deriving DecidableEq, Repr, Inhabited

namespace Scalar

def literal : Scalar → String
  | null => "null"
  | bool true => "true"
  | bool false => "false"
  | int n => Decimal.ofInt n
  | float x => x.literal
  | string text => Module.quote text

end Scalar

end FrontendSync
