import FrontendSync.Text.Trim

/-!
# Artifacts and formats

The three kinds of generated files and the formats each can be written in.
-/

namespace FrontendSync

inductive Format where
  | ts
  | js
  | json
deriving DecidableEq, Repr

namespace Format

def extension : Format → String
  | ts => "ts"
  | js => "js"
  | json => "json"

end Format

inductive Artifact where
  | enums
  | bundles
  | translators
deriving DecidableEq, Repr

namespace Artifact

def label : Artifact → String
  | enums => "enums"
  | bundles => "translations"
  | translators => "translators"

/-- Only locale data can be written as JSON. -/
def formats : Artifact → List Format
  | bundles => [.ts, .js, .json]
  | enums | translators => [.ts, .js]

end Artifact

namespace Text

/-- A name as it is looked up: without the blanks around it and in lower case. -/
def choice (name : String) : String := (String.ofList (trim name.toList)).toLower

end Text

namespace Format

def named? (name : String) : Option Format :=
  match Text.choice name with
  | "ts" | "typescript" => some ts
  | "js" | "javascript" => some js
  | "json" => some json
  | _ => none

/-- The format of the given name, if the artifact can be written in it. -/
def for? (artifact : Artifact) (name : String) : Option Format :=
  (named? name).filter (· ∈ artifact.formats)

end Format

end FrontendSync
