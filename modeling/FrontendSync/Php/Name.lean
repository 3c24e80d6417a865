import FrontendSync.Ordered
import FrontendSync.Text.Trim

/-!
# Class names

A qualified name is a sequence of segments with backslashes between them.  A scope, that is a
namespace and the imports in effect, turns the name written in a source into a qualified one.
-/

namespace FrontendSync.Php

namespace Name

def dropRoot (name : String) : String :=
  String.ofList (name.toList.dropWhile (· = '\\'))

/-- The last segment. -/
def short (name : String) : String :=
  String.ofList (name.toList.reverse.takeWhile (· ≠ '\\')).reverse

/-- A name inside a namespace; the global namespace is absent or empty. -/
def inside (space : Option String) (name : String) : String :=
  match space with
  | some s => if s = "" then name else s ++ "\\" ++ name
  | none => name

/-- Two names that differ in the case of ASCII letters only are the same name. -/
def same (a b : String) : Bool := a.toLower == b.toLower

end Name

/-- The namespace and the imports in effect, each from an alias in lower case to a qualified
name. -/
structure Scope where
  space : Option String
  imports : List (String × String)
deriving DecidableEq, Repr, Inhabited

namespace Scope

def empty : Scope := ⟨none, []⟩

/-- A rooted name is taken without its root; otherwise the first segment may be an import, and
all else is inside the namespace. -/
def resolve (scope : Scope) (name : String) : String :=
  match name.toList with
  | '\\' :: absolute => String.ofList absolute
  | chars =>
    let head := String.ofList (chars.takeWhile (· ≠ '\\'))
    match Ordered.get? head.toLower scope.imports with
    | some imported => imported ++ String.ofList (chars.dropWhile (· ≠ '\\'))
    | none => Name.inside scope.space name

end Scope

end FrontendSync.Php
