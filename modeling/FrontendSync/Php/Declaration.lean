import FrontendSync.Php.Attribute

/-!
# Enum declarations

An enum as declared in a source: its names, cases and methods, and the scope it is declared in.
-/

namespace FrontendSync.Php

inductive Backing where
  | string
  | int
deriving DecidableEq, Repr

/-- A case.  A pure case has no value; the value of any other may be an expression that is not
constant. -/
structure CaseDecl where
  name : String
  value : Option (Except EvalError Value)
  doc : Option String

/-- A method: `params` counts its parameters and `body` holds the tokens between its braces. -/
structure MethodDecl where
  name : String
  isPublic : Bool
  isStatic : Bool
  params : Nat
  body : Option (List Token)
  line : Nat
deriving Repr

structure EnumDecl where
  name : String
  qualified : String
  space : Option String
  backing : Option Backing
  attributes : List Attribute
  doc : Option String
  cases : List CaseDecl
  methods : List MethodDecl
  scope : Scope
  /-- The path of the file it was found in; empty if there is none. -/
  file : String

namespace EnumDecl

def attribute? (e : EnumDecl) (name : String) : Option Attribute :=
  e.attributes.find? (Attribute.isNamed name)

/-- A method by its name in any letter case. -/
def method? (e : EnumDecl) (name : String) : Option MethodDecl :=
  e.methods.find? fun m ↦ Name.same m.name name

def case? (e : EnumDecl) (name : String) : Option CaseDecl :=
  e.cases.find? fun c ↦ c.name == name

end EnumDecl

end FrontendSync.Php
