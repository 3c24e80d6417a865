import FrontendSync.Number.Layout

/-!
# PHP tokens

Only what declarations, attributes and constant expressions are made of has a kind of its own;
every other character is a symbol.
-/

namespace FrontendSync.Php

inductive Punct where
  | attributeOpen
  | parenOpen | parenClose
  | bracketOpen | bracketClose
  | braceOpen | braceClose
  | semicolon | comma
  | colon | doubleColon
  | doubleArrow | arrow | nullsafeArrow
  | assign | question
  | dot | ellipsis
  | minus | plus
deriving DecidableEq, Repr

namespace Punct

def spelling : Punct → String
  | attributeOpen => "#["
  | parenOpen => "("
  | parenClose => ")"
  | bracketOpen => "["
  | bracketClose => "]"
  | braceOpen => "\x7b"
  | braceClose => "\x7d"
  | semicolon => ";"
  | comma => ","
  | colon => ":"
  | doubleColon => "::"
  | doubleArrow => "=>"
  | arrow => "->"
  | nullsafeArrow => "?->"
  | assign => "="
  | question => "?"
  | dot => "."
  | ellipsis => "..."
  | minus => "-"
  | plus => "+"

/-- Every mark, a longer one before those it starts with. -/
def all : List Punct :=
  [attributeOpen, parenOpen, parenClose, bracketOpen, bracketClose, braceOpen, braceClose,
    semicolon, comma, doubleColon, colon, doubleArrow, assign, arrow, minus, plus, nullsafeArrow,
    question, ellipsis, dot]

theorem mem_all (p : Punct) : p ∈ all := by cases p <;> decide

def opens : Punct → Bool
  | attributeOpen | parenOpen | bracketOpen | braceOpen => true
  | _ => false

def closes : Punct → Bool
  | parenClose | bracketClose | braceClose => true
  | _ => false

end Punct

namespace Token

inductive Kind where
  /-- An identifier or keyword, with its namespace if it is qualified. -/
  | name (text : String)
  | var (name : String)
  /-- A string literal, by the text it stands for. -/
  | string (text : String)
  | int (n : Int)
  | float (x : Binary64)
  /-- A documentation comment as written. -/
  | docComment (text : String)
  | punct (p : Punct)
  | symbol (c : Char)
deriving DecidableEq, Repr

namespace Kind

/-- A short text for messages. -/
def describe : Kind → String
  | name text => text
  | var x => "$" ++ x
  | string text => "'" ++ text ++ "'"
  | int n => Decimal.ofInt n
  | float x => x.text
  | docComment _ => "doc comment"
  | punct p => p.spelling
  | symbol c => c.toString

end Kind

end Token

/-- A token and the line its first character is on, counted from one. -/
structure Token where
  kind : Token.Kind
  line : Nat
deriving DecidableEq, Repr

namespace Token

def describe (t : Token) : String := t.kind.describe

def name? (t : Token) : Option String :=
  match t.kind with
  | .name text => some text
  | _ => none

/-- The name in lower case: keywords are spelled in any letter case. -/
def keyword? (t : Token) : Option String := t.name?.map String.toLower

def isKeyword (word : String) (t : Token) : Bool := t.keyword? == some word

def isPunct (p : Punct) (t : Token) : Bool := t.kind == .punct p

def isSymbol (c : Char) (t : Token) : Bool := t.kind == .symbol c

def opens (t : Token) : Bool :=
  match t.kind with
  | .punct p => p.opens
  | _ => false

def closes (t : Token) : Bool :=
  match t.kind with
  | .punct p => p.closes
  | _ => false

end Token

end FrontendSync.Php
