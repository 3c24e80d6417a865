import FrontendSync.Disk.Matching
import FrontendSync.Php.Declaration.File
import FrontendSync.Php.EnumNames
import FrontendSync.Registry

/-!
# Sources

The PHP files of a project and the enums that they declare.
-/

namespace FrontendSync

namespace Disk

def isPhp (p : Path) : Bool := p.extension? == some "php"

/-- Whether a path leads through a directory of dependencies. -/
def isDependency (p : Path) : Bool :=
  p.components.any fun c ↦ c == .normal "vendor" || c == .normal "node_modules"

/-- The PHP files below a directory, those of dependencies left out and those with paths that are
too long. -/
def sourcesBelow (d : Disk) (dir : Path) : List Path :=
  ((((d.find? dir).getD (.dir [])).descendants dir).filter fun (p, n) ↦
    n.isFile && canFollow p && isPhp p && !isDependency p).map Prod.fst

/-- What a path that matches a pattern contributes. -/
def sourcesAt (d : Disk) (p : Path) : List Path :=
  if d.isDir p then d.sourcesBelow p else if isPhp p then [p] else []

/-- The sources that a pattern stands for, in the order of their paths. -/
def sourcesMatching (d : Disk) (pattern : String) : Except Fault (List Path) :=
  match Pattern.ofText? pattern with
  | none => .error (.badPattern pattern)
  | some p => .ok (((d.matching p).flatMap d.sourcesAt).mergeSort fun a b ↦ !b.before a)

/-- The sources that a path of the settings stands for.  A file counts whatever its name. -/
def sourcesOf (d : Disk) (p : Path) : Except Fault (List Path) :=
  if Pattern.isPattern p.text then d.sourcesMatching p.text
  else if d.isDir p then .ok (d.sourcesBelow p)
  else if d.isFile p then .ok [p]
  else .ok []

/-- The sources of a project, each once. -/
def sources (d : Disk) (root : Path) (paths : List String) : Except Fault (List Path) :=
  (paths.mapM fun p ↦ d.sourcesOf (Path.under root ⟨p⟩)).map fun found ↦
    found.flatten.eraseDupsBy Path.same

end Disk

/-- An enum that a source names, with its declaration if there is one of that name. -/
structure Finding where
  qualified : String
  path : Path
  decl : Option Php.EnumDecl

namespace Finding

open Php

/-- What a source of the given path declares. -/
def ofSource (path : Path) (source : String) : List Finding :=
  let declared := (SourceFile.ofSource source).enums
  (EnumNames.ofSource source).map fun name ↦
    ⟨name, path, declared.find? fun e ↦ Name.same e.qualified name⟩

/-- The enums of all sources that can be read; of two with one name the first counts. -/
def all (d : Disk) (files : List Path) : List Finding :=
  (files.flatMap fun p ↦ ((d.text? p).map (ofSource p)).getD []).eraseDupsBy fun a b ↦
    Name.same a.qualified b.qualified

/-- The declaration with the path of its file. -/
def located? (f : Finding) : Option EnumDecl := f.decl.map fun e ↦ { e with file := f.path.text }

end Finding

/-- The registry of what was found. -/
def Registry.ofFindings (fs : List Finding) : Registry :=
  Registry.empty.registerAll (fs.filterMap Finding.located?)

end FrontendSync
