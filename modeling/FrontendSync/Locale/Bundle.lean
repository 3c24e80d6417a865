import FrontendSync.Disk.Basic
import FrontendSync.Locale.Flatten
import FrontendSync.Locale.Json.Reader
import FrontendSync.Locale.Keys
import FrontendSync.Locale.Php
import FrontendSync.Locale.Syntax.Adapter
import FrontendSync.Target

/-!
# Bundles

The data of one locale.  Each root holds a directory of groups for the locale, or a JSON file with
members of the top level, or both.
-/

namespace FrontendSync

namespace Locale

open Php

/-- The values of the cases of all enums. -/
abbrev Lookup := String → String → Option Value

/-- The group whose members belong to the top level. -/
def hoisted : String := "enums"

/-- The text of a file that is there. -/
def textOf (d : Disk) (p : Path) : Except Fault String :=
  match d.text? p with
  | some text => .ok text
  | none => .error (.disk p)

def jsonMembers (text : String) : Except LocaleFault Members :=
  match Json.parse? text.toList with
  | none => .error .notJson
  | some t =>
    match t.members? with
    | none => .error .notObject
    | some ms => .ok ms

def isJson (p : Path) : Bool := p.extension? == some "json"

/-- The members of a file that is read with `read`. -/
def membersOf (d : Disk) (read : String → Except LocaleFault Members) (p : Path) :
    Except Fault Members :=
  (textOf d p).bind fun text ↦ (read text).mapError (Fault.localeFile p)

/-- The files of groups in a directory, in the order of their names. -/
def groupFiles (d : Disk) (dir : Path) : List Path :=
  ((((d.find? dir).getD (.dir [])).entries.filter (·.2.isFile)).map fun (name, _) ↦
    dir.join ⟨name⟩).filter fun p ↦ p.extension? == some "php" || isJson p

/-- The members of a group as those of a root. -/
def ofGroup (d : Disk) (lookup : Lookup) (p : Path) : Except Fault Members :=
  let group := p.stem?.getD ""
  (membersOf d (if isJson p then jsonMembers else ofPhp lookup) p).map fun ms ↦
    if group = hoisted then ms else [(group, .map ms)]

/-- The files of a locale below a root; none if the root does not have the locale.  The JSON file
comes first. -/
def filesOf? (d : Disk) (root : Path) (locale : String) : Option (List Path × List Path) :=
  let file := root.join ⟨locale ++ ".json"⟩
  let dir := root.join ⟨locale⟩
  if d.isFile file || d.isDir dir then
    some (if d.isFile file then [file] else [], groupFiles d dir)
  else none

/-- What a root has for a locale. -/
def ofRoot (d : Disk) (lookup : Lookup) (locale : String) (root : Path) :
    Except Fault (Option Members) :=
  match filesOf? d root locale with
  | none => .ok none
  | some (plain, groups) => do
    let top ← plain.mapM (membersOf d jsonMembers)
    let grouped ← groups.mapM (ofGroup d lookup)
    return some ((top ++ grouped).foldl Ordered.insertAll [])

/-- What all roots have for a locale; of two values for a key of the top level the later one
counts. -/
def ofRoots (d : Disk) (lookup : Lookup) (roots : List Path) (locale : String) :
    Except Fault Members := do
  let found ← roots.mapM (ofRoot d lookup locale)
  match found.filterMap id with
  | [] => .error (.noLocale locale roots)
  | all => return all.foldl Ordered.insertAll []

/-- The form of the data in a module. -/
def shaped (adapter : Adapter) (flat : Bool) (ms : Members) : Members :=
  let adapted := adapter.transform (Tree.normalize ms)
  if flat then (Tree.map adapted).flatten else adapted

end Locale

/-- The data of a locale, and where it is written. -/
structure Bundle where
  locale : String
  data : Members
  path : Path

namespace Bundle

def load (d : Disk) (lookup : Locale.Lookup) (roots : List Path) (adapter : Locale.Adapter)
    (flat : Bool) (target : Target) (locale : String) : Except Fault Bundle :=
  (Locale.ofRoots d lookup roots locale).map fun ms ↦
    ⟨locale, Locale.shaped adapter flat ms, target.path locale⟩

end Bundle

end FrontendSync
