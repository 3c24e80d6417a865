import FrontendSync.Module.Specifier
import FrontendSync.Registry
import FrontendSync.Target

/-!
# Translator records

What is generated for an enum that asks for a translator helper: a function that gives each value
of the enum its text in a locale.
-/

namespace FrontendSync

structure Translator where
  name : String
  enumName : String
  /-- The key below which locale data has the texts of the enum. -/
  key : String
  /-- What the helper imports the enum from. -/
  specifier : String
  path : Path
deriving DecidableEq, Repr

namespace Translator

open Php

def nameFor (enumName : String) : String := "use" ++ enumName ++ "Translator"

/-- The helper of an enum, unless its marker is absent or declines one. -/
def ofDecl? (enumTarget target : Target) (base : Option String) (e : EnumDecl) :
    Option Translator :=
  match e.attribute? Registry.translatorMarker with
  | none => none
  | some a =>
    if a.boolArg "generateComposable" 1 true then
      let name := nameFor e.name
      let key := ((a.stringArg? "translationKey" 0).filter (· ≠ "")).getD e.name
      let path := target.path name
      some ⟨name, e.name, key, Module.Specifier.of base path (enumTarget.path e.name), path⟩
    else none

end Translator

end FrontendSync
