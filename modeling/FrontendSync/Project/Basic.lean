import FrontendSync.Drift
import FrontendSync.Enum.OfDecl
import FrontendSync.Locale.Bundle
import FrontendSync.Module.Envelope
import FrontendSync.Module.LocaleModule
import FrontendSync.Project.Output
import FrontendSync.Project.Sources
import FrontendSync.Settings.Basic

/-!
# Projects

A project is its settings and the enums of its sources.  From it the modules of each kind are
generated, all or none of a kind; nothing is written here.
-/

namespace FrontendSync

open Php

structure Project where
  settings : Settings
  /-- What relative paths of the settings are below. -/
  root : Path
  registry : Registry
  /-- The adapter of runs that name no library, if it is not that of the settings. -/
  adapter : Option Locale.Adapter

/-- What a run for enums may choose; without names it is for the enums of the policy. -/
structure EnumRequest where
  names : List String
  format : Option String

/-- What a run for locale data may choose; without locales it is for those of the settings. -/
structure LocaleRequest where
  locales : List String
  format : Option String
  flat : Option Bool
  library : Option String

/-- What a run for translator helpers may choose. -/
structure TranslatorRequest where
  names : List String
  format : Option String
  runtime : Option String

namespace Project

/-- The project of valid settings, with the enums of its sources. -/
def load (d : Disk) (settings : Settings) (root : Path) (adapter : Option Locale.Adapter) :
    Except Fault Project := do
  settings.validate
  let files ← d.sources root settings.enums.paths
  return ⟨settings, root, Registry.ofFindings (Finding.all d files), adapter⟩

def policy (p : Project) : Registry.Policy :=
  ⟨p.settings.enums.allBacked, p.settings.enums.exclude⟩

def style (p : Project) (format : Format) : Module.Style := ⟨format, p.settings.output.trailingComma⟩

def target (p : Project) (dir file : String) (format : Format) : Target :=
  ⟨Path.under p.root ⟨dir⟩, file, format⟩

def output (p : Project) (format : Format) (path : Path) (body : String) : OutputFile :=
  ⟨path, Module.Envelope.wrap format p.settings.lineLimit body⟩

/-! ## Enum modules -/

def enumTarget (p : Project) (format : Option String) : Except Fault Target :=
  let s := p.settings.enums
  (Settings.format .enums (format.getD s.format)).map (p.target s.outputPath s.fileName)

/-- Enums that are named need no marker. -/
def selectEnums (p : Project) (names : List String) : Except Fault (List EnumDecl) :=
  if names = [] then .ok (p.registry.included p.policy) else p.registry.select names

/-- The records of enums, which have to go to different paths. -/
def recordsOf (p : Project) (target : Target) (es : List EnumDecl) :
    Except Fault (List EnumRecord) := do
  let records ← es.mapM (EnumRecord.ofDecl p.registry.caseValue target)
  OutputFile.checkPaths [] (records.map fun r ↦ (r.path, r.qualified))
  return records

/-- The records of a run, with the format of their modules. -/
def enumRecords (p : Project) (request : EnumRequest) : Except Fault (Format × List EnumRecord) := do
  let target ← p.enumTarget request.format
  let es ← p.selectEnums request.names
  let records ← p.recordsOf target es
  return (target.format, records)

def generateEnums (p : Project) (request : EnumRequest) : Except Fault (List OutputFile) :=
  (p.enumRecords request).map fun (format, records) ↦
    records.map fun r ↦ p.output format r.path (Module.EnumModule.text (p.style format) r)

/-- The enums that differ from their modules on the disk.  A module that cannot be read counts as
absent. -/
def checkEnums (p : Project) (d : Disk) (request : EnumRequest) :
    Except Fault (List Drift.Report) :=
  (p.enumRecords request).map fun (_, records) ↦
    (records.map fun r ↦ ⟨r.name, r.path, Drift.check r (d.text? r.path)⟩).filter (·.lines ≠ [])

/-! ## Locale modules -/

def chooseAdapter (p : Project) (library : Option String) : Except Fault Locale.Adapter :=
  match library, p.adapter with
  | some name, _ => Settings.adapter name
  | none, some adapter => .ok adapter
  | none, none => Settings.adapter p.settings.bundles.library

/-- The locale roots; a later one counts before the ones in front of it. -/
def localeRoots (p : Project) : List Path :=
  p.settings.bundles.paths.map fun dir ↦ Path.under p.root ⟨dir⟩

def localesOf (p : Project) (locales : List String) : List String :=
  (if locales = [] then p.settings.bundles.locales else locales).eraseDups

def generateBundles (p : Project) (d : Disk) (request : LocaleRequest) :
    Except Fault (List OutputFile) := do
  let s := p.settings.bundles
  let format ← Settings.format .bundles (request.format.getD s.format)
  let adapter ← p.chooseAdapter request.library
  let bundles ← (p.localesOf request.locales).mapM
    (Bundle.load d p.registry.caseValue p.localeRoots adapter (request.flat.getD s.flat)
      (p.target s.outputPath s.fileName format))
  OutputFile.checkPaths [] (bundles.map fun b ↦ (b.path, b.locale))
  return bundles.map fun b ↦
    p.output format b.path (Module.LocaleModule.text (p.style format) b.locale b.data)

/-! ## Translator helpers -/

/-- Enums that are not named take part if they have the marker, generated or not. -/
def selectTranslators (p : Project) (names : List String) : Except Fault (List EnumDecl) :=
  if names = [] then
    .ok (p.registry.enums.filter fun e ↦
      (e.attribute? Registry.translatorMarker).isSome && !p.policy.excludes e)
  else p.registry.select names

def generateTranslators (p : Project) (request : TranslatorRequest) :
    Except Fault (List OutputFile) := do
  let s := p.settings.translators
  let format ← Settings.format .translators (request.format.getD s.format)
  let runtime ← Settings.runtime (request.runtime.getD s.runtime)
  let es ← p.selectTranslators request.names
  let enumTarget ← p.enumTarget none
  let helpers := es.filterMap
    (Translator.ofDecl? enumTarget (p.target s.outputPath s.fileName format) s.enumImportBase)
  OutputFile.checkPaths [] (helpers.map fun t ↦ (t.path, t.enumName))
  return helpers.map fun t ↦
    p.output format t.path
      (Module.TranslatorModule.text (p.style format) runtime s.helperImport t)

/-! ## Everything -/

/-- The modules of each kind as the settings have them.  There are no locale modules if none of
the locale roots is a directory. -/
def generateAll (p : Project) (d : Disk) : Except Fault (List OutputFile) := do
  let enums ← p.generateEnums ⟨[], none⟩
  let bundles ←
    if p.localeRoots.any d.isDir then p.generateBundles d ⟨[], none, none, none⟩
    else .ok []
  let translators ← p.generateTranslators ⟨[], none, none⟩
  return enums ++ bundles ++ translators

end Project

end FrontendSync
