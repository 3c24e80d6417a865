import FrontendSync.CommandLine.Invocation
import FrontendSync.Settings.Load
import FrontendSync.Text.Printable

/-!
# Runs

What the program does for its arguments: the lines it prints, the error it ends with, and the
disk it leaves.
-/

namespace FrontendSync.CommandLine

inductive Ending where
  | success
  /-- Modules differ from what would be generated. -/
  | drift
  | failure (message : String)
  | halted (h : Halt)
deriving DecidableEq, Repr

namespace Ending

def exitCode : Ending → Nat
  | success | halted .help | halted .version => 0
  | drift | failure _ => 1
  | halted .misuse => 2

/-- The line on the error output. -/
def errorLine : Ending → Option String
  | failure message => some ("Error: " ++ message)
  | _ => none

end Ending

structure Run where
  printed : List String
  ending : Ending
  disk : Disk

namespace Run

/-- A run that goes on after printing lines. -/
def print (lines : List String) (r : Run) : Run := { r with printed := lines ++ r.printed }

def stop (d : Disk) (ending : Ending) : Run :=
  let last := match ending with
    | .success => [""]
    | .drift => ["", "Drift detected"]
    | _ => []
  ⟨last, ending, d⟩

def outcomeLine : Path × Outcome → String
  | (p, .written) => "  Written " ++ p.text
  | (p, .unchanged) => "  No changes for " ++ p.text

/-- The lines for what became of all files. -/
def outcomeLines (outcomes : List (Path × Outcome)) : List String :=
  outcomes.map outcomeLine ++
    if outcomes.any (·.2 == .written) then [] else ["  No changes, skipping all writes"]

/-- Writes what was generated. -/
def write (d : Disk) (title : String) (generated : Except Fault (List OutputFile)) : Run :=
  print ["", "[2/3] Generating " ++ title ++ "..."] <|
    match generated with
    | .error e => stop d (.failure e.message)
    | .ok files =>
      print ["", "[3/3] Writing " ++ Decimal.ofNat files.length ++ " file(s)..."] <|
        match d.writeAll files with
        | (.error e, d) => stop d (.failure e.message)
        | (.ok outcomes, d) => print (outcomeLines outcomes) (stop d .success)

/-- Reports what differs. -/
def check (d : Disk) (reports : Except Fault (List Drift.Report)) : Run :=
  print ["", "[2/3] Checking enum modules..."] <|
    match reports with
    | .error e => stop d (.failure e.message)
    | .ok [] => print ["  Enum modules are in sync"] (stop d .success)
    | .ok reports => print (reports.flatMap Drift.Report.rows) (stop d .drift)

def command (d : Disk) (p : Project) : Command → Run
  | .enums request true => check d (p.checkEnums d request)
  | .enums request false => write d "enum modules" (p.generateEnums request)
  | .bundles request => write d "locale bundles" (p.generateBundles d request)
  | .translators request => write d "translator helpers" (p.generateTranslators request)
  | .all true => check d (p.checkEnums d ⟨[], none⟩)
  | .all false => write d "all artifacts" (p.generateAll d)

/-- A character of a path between quotes.  One that cannot be shown is given by its code point. -/
def escapeChar (c : Char) : List Char :=
  match c with
  | '"' => ['\\', '"']
  | '\\' => ['\\', '\\']
  | '\t' => ['\\', 't']
  | '\r' => ['\\', 'r']
  | '\n' => ['\\', 'n']
  | '\x00' => ['\\', '0']
  | c =>
    if Text.isPrintable c then [c] else ['\\', 'u', '{'] ++ Nat.toDigits 16 c.toNat ++ ['}']

def quoted (p : Path) : String :=
  String.ofList ('"' :: p.text.toList.flatMap escapeChar ++ ['"'])

def invocation (d : Disk) (i : Invocation) : Run :=
  match Settings.load? d i.config with
  | none => stop d (.failure ("Failed to load config from " ++ quoted i.config))
  | some settings =>
    print ["[1/3] Scanning sources..."] <|
      match Project.load d settings i.root none with
      | .error e => stop d (.failure ("Failed to prepare generator: " ++ e.message))
      | .ok p =>
        print ["  Found " ++ Decimal.ofNat p.registry.enums.length ++ " enums"]
          (command d p i.command)

def arguments (d : Disk) (args : List String) : Run :=
  match Invocation.ofArguments args with
  | .error h => stop d (.halted h)
  | .ok i => invocation d i

end Run

end FrontendSync.CommandLine
