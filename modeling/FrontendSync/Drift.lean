import FrontendSync.Module.EnumModule
import FrontendSync.Module.Export
import FrontendSync.Ordered

/-!
# Drift

The differences between the record of an enum and a module generated for it earlier, entry by
entry: what only the record has is added, what only the module has is removed, and a changed value
is both.
-/

namespace FrontendSync.Drift

open EnumRecord FrontendSync.Module

inductive Line where
  | added (text : String)
  | removed (text : String)
deriving DecidableEq, Repr

namespace Line

def text : Line → String
  | added text => "+ " ++ text
  | removed text => "- " ++ text

end Line

/-- Where entries stand: in the enum itself, or in a group. -/
inductive Place where
  | cases
  | group (name : String) (shape : Shape)
deriving DecidableEq, Repr

/-- An entry as it is reported. -/
def entryText (place : Place) (key : String) (value : Value) : String :=
  let label := match place with
    | .cases => key
    | .group name .array => name ++ "[" ++ key ++ "]"
    | .group name .record => name ++ "." ++ key
  label ++ ": " ++ value.text

def scalarValue : Scalar → Value
  | .null => .null
  | .bool b => .bool b
  | .int n => .number (Decimal.ofInt n)
  | .float x => .number x.literal
  | .string text => .string text

def entryValue (enumName : String) : Entry → Value
  | .ofCase name => .reference (enumName ++ "." ++ name)
  | .ofScalar s => scalarValue s

def caseEntries (r : EnumRecord) : List (String × Value) :=
  r.cases.map fun c ↦ (c.name, scalarValue c.value)

def groupEntries (enumName : String) (g : Group) : List (String × Value) :=
  g.entries.map fun e ↦ (e.1, entryValue enumName e.2)

/-- Entries at one place of the record or of the module. -/
structure Side where
  place : Place
  entries : List (String × Value)

def nothing : Side := ⟨.cases, []⟩

/-- The lines for an entry of the record. -/
def freshLines (fresh stale : Side) (e : String × Value) : List Line :=
  match Ordered.get? e.1 stale.entries with
  | none => [.added (entryText fresh.place e.1 e.2)]
  | some old =>
    if old = e.2 then []
    else [.added (entryText fresh.place e.1 e.2), .removed (entryText stale.place e.1 old)]

/-- The lines for an entry of the module. -/
def staleLines (fresh stale : Side) (e : String × Value) : List Line :=
  if Ordered.contains e.1 fresh.entries then []
  else [.removed (entryText stale.place e.1 e.2)]

def entryLines (fresh stale : Side) : List Line :=
  fresh.entries.flatMap (freshLines fresh stale) ++ stale.entries.flatMap (staleLines fresh stale)

def shapeText (name : String) (shape : Shape) : String := name ++ "[@kind]: " ++ shape.name

def exportSide (e : Export) : Side := ⟨.group e.name e.shape, e.entries⟩

def groupSide (enumName : String) (g : Group) : Side :=
  ⟨.group g.name g.shape, groupEntries enumName g⟩

/-- The lines for a group of the record. -/
def groupLines (enumName : String) (stale : List Export) (g : Group) : List Line :=
  match stale.find? (·.name == g.name) with
  | none => entryLines (groupSide enumName g) nothing
  | some old =>
    (if old.shape = g.shape then []
      else [.added (shapeText g.name g.shape), .removed (shapeText old.name old.shape)])
      ++ entryLines (groupSide enumName g) (exportSide old)

/-- The lines for an export that is no group of the record. -/
def leftoverLines (r : EnumRecord) (old : Export) : List Line :=
  if r.groups.any (·.name == old.name) then [] else entryLines nothing (exportSide old)

/-- The differences to the exports of a module, of which the first is the enum; without any all
of the record is added. -/
def lines (r : EnumRecord) (stale : List Export) : List Line :=
  let cases := match stale with
    | [] => nothing
    | first :: _ => ⟨.cases, first.entries⟩
  entryLines ⟨.cases, caseEntries r⟩ cases
    ++ r.groups.flatMap (groupLines r.name stale.tail)
    ++ stale.tail.flatMap (leftoverLines r)

/-- The exports of a module, if the enum is the first of them. -/
def exportsOf (enumName : String) (previous : Option String) : List Export :=
  match previous with
  | none => []
  | some source =>
    match Export.ofSource source with
    | [] => []
    | first :: more => if first.name == enumName then first :: more else []

/-- The differences to the module generated earlier.  A module whose first export is another one
counts as absent. -/
def check (r : EnumRecord) (previous : Option String) : List Line :=
  lines r (exportsOf r.name previous)

/-- An enum that differs from its module. -/
structure Report where
  enumName : String
  path : Path
  lines : List Line
deriving DecidableEq, Repr

namespace Report

/-- The enum, and a line for each difference. -/
def rows (r : Report) : List String :=
  (r.enumName ++ " (" ++ r.path.text ++ ")") :: r.lines.map ("  " ++ ·.text)

def text (r : Report) : String := String.join (r.rows.map (· ++ "\n"))

end Report

end FrontendSync.Drift
