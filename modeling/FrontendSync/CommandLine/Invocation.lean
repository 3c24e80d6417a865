import FrontendSync.CommandLine.Switch
import FrontendSync.Project.Basic

/-!
# Invocations

What the arguments of the program ask for: a settings file and a command.
-/

namespace FrontendSync.CommandLine

inductive Command where
  | enums (request : EnumRequest) (check : Bool)
  | bundles (request : LocaleRequest)
  | translators (request : TranslatorRequest)
  | all (check : Bool)

structure Invocation where
  /-- The settings file. -/
  config : Path
  command : Command

namespace Invocation

def helpSwitch : Switch := ⟨"help", some 'h', .halt .help, none⟩

def textSwitch (name : String) : Switch := ⟨name, none, .text, none⟩

def flagSwitch (name : String) : Switch := ⟨name, none, .flag, none⟩

/-- What stands before the command. -/
def grammar : Grammar where
  switches := [⟨"config", some 'c', .path, none⟩, ⟨"verbose", some 'v', .flag, none⟩, helpSwitch,
    ⟨"version", some 'V', .halt .version, none⟩]
  operands := .final

def enumsGrammar : Grammar :=
  ⟨[textSwitch "format", flagSwitch "check", helpSwitch], .collected⟩

def bundlesGrammar : Grammar :=
  ⟨[textSwitch "format", ⟨"flat", none, .flag, some "no-flat"⟩,
    ⟨"no-flat", none, .flag, some "flat"⟩, textSwitch "library", helpSwitch], .collected⟩

def translatorsGrammar : Grammar :=
  ⟨[textSwitch "format", textSwitch "runtime", helpSwitch], .collected⟩

def allGrammar : Grammar := ⟨[flagSwitch "check", helpSwitch], .refused⟩

def defaultConfig : String := "frontgen.toml"

def versionLine : String := "frontgen 0.1.0"

def usage : String :=
  Text.unlines
    ["Usage: frontgen [--config PATH] [--verbose] COMMAND",
      "",
      "  enums [NAMES] [--format FORMAT] [--check]",
      "  translations [LOCALES] [--format FORMAT] [--flat | --no-flat] [--library LIBRARY]",
      "  translators [NAMES] [--format FORMAT] [--runtime RUNTIME]",
      "  all [--check]"]

/-- Whether the data is to be flat, if the switches say so. -/
def flat? (a : Arguments) : Option Bool :=
  if a.has "flat" then some true else if a.has "no-flat" then some false else none

def commandNames : List String := ["enums", "translations", "translators", "all", "help"]

/-- The command of a name with its arguments. -/
def commandOf (name : String) (args : List String) : Except Halt Command :=
  match name with
  | "enums" => (enumsGrammar.read args).map fun (a, _) ↦
      .enums ⟨a.operands, a.value? "format"⟩ (a.has "check")
  | "translations" => (bundlesGrammar.read args).map fun (a, _) ↦
      .bundles ⟨a.operands, a.value? "format", flat? a, a.value? "library"⟩
  | "translators" => (translatorsGrammar.read args).map fun (a, _) ↦
      .translators ⟨a.operands, a.value? "format", a.value? "runtime"⟩
  | "all" => (allGrammar.read args).map fun (a, _) ↦ .all (a.has "check")
  | "help" =>
    match args with
    | [] => .error .help
    | [topic] => .error (if topic ∈ commandNames then .help else .misuse)
    | _ => .error .misuse
  | _ => .error .misuse

def ofArguments (args : List String) : Except Halt Invocation := do
  let (a, more) ← grammar.read args
  match more with
  | [] => .error .misuse
  | name :: more =>
    let c ← commandOf name more
    return ⟨⟨(a.value? "config").getD defaultConfig⟩, c⟩

/-- What relative paths of the settings are below: the directory of the settings file. -/
def root (i : Invocation) : Path :=
  match i.config.parent? with
  | some p => if p.text = "" then ⟨"."⟩ else p
  | none => ⟨"."⟩

end Invocation

end FrontendSync.CommandLine
