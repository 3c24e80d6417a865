import FrontendSync.Fault
import FrontendSync.Locale.Syntax.Adapter
import FrontendSync.Module.TranslatorModule
import FrontendSync.Settings.Document

/-!
# Settings

What a project configures, section by section.  A field that is absent has its default, a field
that is not known is passed over, and a field of the wrong type makes the settings unreadable.  A
section may give its fields by position; `surplus` tells whether more items than fields will do.
-/

namespace FrontendSync

namespace Settings

structure Output where
  maxLineLength : Option Int
  trailingComma : Bool
deriving DecidableEq, Repr

namespace Output

def default : Output := ⟨none, true⟩

def names : List String := ["max_line_length", "trailing_comma"]

def ofDocument? (surplus : Bool) (d : Document) : Option Output := do
  let fields ← d.fields? surplus names
  let limit ← Document.field? fields "max_line_length"
    (fun d ↦ match d with
      | .null => some none
      | d => d.int?.map some) default.maxLineLength
  let comma ← Document.field? fields "trailing_comma" Document.bool? default.trailingComma
  return ⟨limit, comma⟩

end Output

structure Enums where
  /-- Directories, files and patterns with the sources. -/
  paths : List String
  outputPath : String
  fileName : String
  format : String
  allBacked : Bool
  exclude : List String
deriving DecidableEq, Repr

namespace Enums

def default : Enums :=
  ⟨["app/Enums"], "resources/js/enums", "\x7bname\x7d.\x7bext\x7d", "ts", false, []⟩

def names : List String :=
  ["paths", "output_path", "file_name", "format", "generate_all_backed", "exclude"]

def ofDocument? (surplus : Bool) (d : Document) : Option Enums := do
  let fields ← d.fields? surplus names
  let paths ← Document.field? fields "paths" Document.strings? default.paths
  let outputPath ← Document.field? fields "output_path" Document.string? default.outputPath
  let fileName ← Document.field? fields "file_name" Document.string? default.fileName
  let format ← Document.field? fields "format" Document.string? default.format
  let allBacked ← Document.field? fields "generate_all_backed" Document.bool? default.allBacked
  let exclude ← Document.field? fields "exclude" Document.strings? default.exclude
  return ⟨paths, outputPath, fileName, format, allBacked, exclude⟩

end Enums

structure Bundles where
  /-- The locale roots; of two roots the later one counts. -/
  paths : List String
  outputPath : String
  fileName : String
  format : String
  library : String
  flat : Bool
  locales : List String
deriving DecidableEq, Repr

namespace Bundles

def default : Bundles :=
  ⟨["lang"], "resources/js/locales", "\x7blocale\x7d.\x7bext\x7d", "ts", "i18next", false,
    ["en"]⟩

def names : List String :=
  ["paths", "output_path", "file_name", "format", "library", "flat", "locales"]

def ofDocument? (surplus : Bool) (d : Document) : Option Bundles := do
  let fields ← d.fields? surplus names
  let paths ← Document.field? fields "paths" Document.strings? default.paths
  let outputPath ← Document.field? fields "output_path" Document.string? default.outputPath
  let fileName ← Document.field? fields "file_name" Document.string? default.fileName
  let format ← Document.field? fields "format" Document.string? default.format
  let library ← Document.field? fields "library" Document.string? default.library
  let flat ← Document.field? fields "flat" Document.bool? default.flat
  let locales ← Document.field? fields "locales" Document.strings? default.locales
  return ⟨paths, outputPath, fileName, format, library, flat, locales⟩

end Bundles

structure Translators where
  outputPath : String
  fileName : String
  format : String
  runtime : String
  /-- The module the helpers import the generic translator from. -/
  helperImport : String
  /-- What enum modules are imported below; relative imports if there is none. -/
  enumImportBase : Option String
deriving DecidableEq, Repr

namespace Translators

def default : Translators :=
  ⟨"resources/js/translators", "\x7bname\x7d.\x7bext\x7d", "ts", "vue-i18n",
    "@/composables/useTranslator", none⟩

def names : List String :=
  ["output_path", "file_name", "format", "runtime", "helper_import", "enum_import_base"]

def ofDocument? (surplus : Bool) (d : Document) : Option Translators := do
  let fields ← d.fields? surplus names
  let outputPath ← Document.field? fields "output_path" Document.string? default.outputPath
  let fileName ← Document.field? fields "file_name" Document.string? default.fileName
  let format ← Document.field? fields "format" Document.string? default.format
  let runtime ← Document.field? fields "runtime" Document.string? default.runtime
  let helperImport ← Document.field? fields "helper_import" Document.string? default.helperImport
  let base ← Document.field? fields "enum_import_base"
    (fun d ↦ match d with
      | .null => some none
      | d => d.string?.map some) default.enumImportBase
  return ⟨outputPath, fileName, format, runtime, helperImport, base⟩

end Translators

end Settings

structure Settings where
  output : Settings.Output
  enums : Settings.Enums
  bundles : Settings.Bundles
  translators : Settings.Translators
deriving DecidableEq, Repr

namespace Settings

def default : Settings := ⟨Output.default, Enums.default, Bundles.default, Translators.default⟩

def names : List String := ["output", "enums", "translations", "translators"]

def ofDocument? (surplus : Bool) (d : Document) : Option Settings := do
  let fields ← d.fields? surplus names
  let output ← Document.field? fields "output" (Output.ofDocument? surplus) default.output
  let enums ← Document.field? fields "enums" (Enums.ofDocument? surplus) default.enums
  let bundles ←
    Document.field? fields "translations" (Bundles.ofDocument? surplus) default.bundles
  let translators ←
    Document.field? fields "translators" (Translators.ofDocument? surplus) default.translators
  return ⟨output, enums, bundles, translators⟩

/-- The limit of line lengths; zero and below are none. -/
def lineLimit (s : Settings) : Option Nat :=
  match s.output.maxLineLength with
  | some n => if 0 < n then some n.toNat else none
  | none => none

def format (artifact : Artifact) (name : String) : Except Fault Format :=
  match Format.for? artifact name with
  | some f => .ok f
  | none => .error (.unknownFormat artifact name)

def adapter (library : String) : Except Fault Locale.Adapter :=
  match Locale.Adapter.named? library with
  | some a => .ok a
  | none => .error (.unknownLibrary library)

def runtime (name : String) : Except Fault Runtime :=
  match Runtime.named? name with
  | some r => .ok r
  | none => .error (.unknownRuntime name)

/-- The first name in the settings that names nothing. -/
def validate (s : Settings) : Except Fault Unit := do
  let _ ← format .enums s.enums.format
  let _ ← format .bundles s.bundles.format
  let _ ← format .translators s.translators.format
  let _ ← adapter s.bundles.library
  let _ ← runtime s.translators.runtime

end Settings

end FrontendSync
