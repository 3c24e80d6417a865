import FrontendSync.Artifact
import FrontendSync.Path.Basic
import FrontendSync.Php.Expression

/-!
# Faults

Why a run fails, and the message for each cause.
-/

namespace FrontendSync

/-- Why the value of a case cannot be generated. -/
inductive CaseFault where
  | notBacked
  | mismatch (kind : String)
  | expression (e : Php.EvalError)
  | noValue
deriving DecidableEq, Repr

namespace CaseFault

def message : CaseFault → String
  | notBacked => "only backed enums can be generated"
  | mismatch kind => kind ++ " does not match the backing type"
  | expression e => e.message
  | noValue => "case has no value"

end CaseFault

/-- Why the body of a method is no group. -/
inductive ReturnFault where
  | notSingle
  | expression (e : Php.EvalError)
  | notArray (kind : String)
deriving DecidableEq, Repr

namespace ReturnFault

def message : ReturnFault → String
  | notSingle => "body must be a single return statement"
  | expression e => e.message
  | notArray kind => "returns " ++ kind

end ReturnFault

/-- Why an entry of a group cannot be generated. -/
inductive EntryFault where
  | foreignCase (className caseName : String)
  | unknownCase (caseName enumName : String)
  | nestedArray
deriving DecidableEq, Repr

namespace EntryFault

def message : EntryFault → String
  | foreignCase c n => "'" ++ c ++ "::" ++ n ++ "' belongs to another enum"
  | unknownCase n e => "'" ++ n ++ "' is not a case of " ++ e
  | nestedArray => "nested arrays are not supported"

end EntryFault

/-- What the name of a group collides with. -/
inductive GroupConflict where
  | theEnum
  | groupOf (method : String)
deriving DecidableEq, Repr

namespace GroupConflict

def message : GroupConflict → String
  | theEnum => "the enum itself"
  | groupOf method => "the group built from method '" ++ method ++ "'"

end GroupConflict

/-- Why a locale file holds no locale data. -/
inductive LocaleFault where
  | expression (e : Php.EvalError)
  | notArray (kind : String)
  | notJson
  | notObject
deriving DecidableEq, Repr

namespace LocaleFault

def message : LocaleFault → String
  | expression e => e.message
  | notArray kind => "expected an array, found " ++ kind
  | notJson => "invalid JSON"
  | notObject => "expected a JSON object"

end LocaleFault

inductive Fault where
  | unknownFormat (artifact : Artifact) (name : String)
  | unknownLibrary (name : String)
  | unknownRuntime (name : String)
  | badPattern (pattern : String)
  | unknownEnum (name : String)
  | missingDoc (enumName caseName : String)
  | caseValue (enumName caseName : String) (cause : CaseFault)
  | noMethod (enumName method : String)
  | methodParams (enumName method : String) (params : Nat)
  | methodBinding (enumName method : String) (line : Nat)
  | methodReturn (enumName method : String) (cause : ReturnFault)
  | groupEntry (enumName method key : String) (cause : EntryFault)
  | groupName (enumName group : String) (conflict : GroupConflict)
  | noLocale (locale : String) (roots : List Path)
  | localeFile (path : Path) (cause : LocaleFault)
  | sharedOutput (path : Path) (first second : String)
  | disk (path : Path)
deriving DecidableEq, Repr

namespace Fault

def methodName (enumName method : String) : String :=
  "Method '" ++ enumName ++ "::" ++ method ++ "'"

def message : Fault → String
  | unknownFormat artifact name =>
    "Unsupported output format '" ++ name ++ "' for " ++ artifact.label ++ " (expected one of: "
      ++ ", ".intercalate (artifact.formats.map Format.extension) ++ ")"
  | unknownLibrary name =>
    "Unsupported i18n library '" ++ name
      ++ "' (expected one of: i18next, vue-i18n, passthrough, source)"
  | unknownRuntime name =>
    "Unsupported translator runtime '" ++ name
      ++ "' (expected one of: i18next, vue-i18n, react-i18next)"
  | badPattern pattern => "Invalid glob pattern '" ++ pattern ++ "'"
  | unknownEnum name => "Enum '" ++ name ++ "' was not found in any configured enum path"
  | missingDoc e c =>
    "Enum '" ++ e ++ "' requires comments but case '" ++ c ++ "' has no doc comment"
  | caseValue e c cause =>
    "Enum '" ++ e ++ "' has an unsupported value for case '" ++ c ++ "': " ++ cause.message
  | noMethod e m =>
    "Enum '" ++ e ++ "' lists method '" ++ m ++ "' in includeMethods, but no such method exists"
  | methodParams e m n =>
    methodName e m ++ " must not take arguments (found " ++ Decimal.ofNat n ++ ")"
  | methodBinding e m line =>
    methodName e m ++ " (line " ++ Decimal.ofNat line ++ ") must be public and static"
  | methodReturn e m cause => methodName e m ++ " must return an array: " ++ cause.message
  | groupEntry e m key cause =>
    methodName e m ++ " returns an unsupported value at key '" ++ key ++ "': " ++ cause.message
  | groupName e g conflict =>
    "Group '" ++ g ++ "' of enum '" ++ e ++ "' collides with " ++ conflict.message
  | noLocale locale roots =>
    "Locale '" ++ locale ++ "' was not found in any of: "
      ++ ", ".intercalate (roots.map Path.text)
  | localeFile path cause =>
    "Failed to load locale file '" ++ path.text ++ "': " ++ cause.message
  | sharedOutput path first second =>
    "Output path '" ++ path.text ++ "' is produced by both '" ++ first ++ "' and '" ++ second
      ++ "'"
  | disk path => "IO error on '" ++ path.text ++ "'"

/-- Whether the settings or the request are at fault and not the sources. -/
def isConfiguration : Fault → Bool
  | unknownFormat _ _ | badPattern _ | unknownLibrary _ | unknownRuntime _ | unknownEnum _ => true
  | _ => false

end Fault

end FrontendSync
