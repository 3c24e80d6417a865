import FrontendSync.Enum.Record
import FrontendSync.Module.Style

/-!
# Enum modules

The text of the module of an enum: a constant with a member for each case, the type of its values,
and a constant for each group.
-/

namespace FrontendSync.Module.EnumModule

open EnumRecord

/-- The lines of an exported constant with its entries between brackets, each given by the lines
before its row and the row; a constant without entries takes one line. -/
def constant (style : Style) (name opening closing : String) (rows : List (List String × String)) :
    List String :=
  let head := "export const " ++ name ++ " = " ++ opening
  let tail := closing ++ style.asConst ++ ";"
  match rows with
  | [] => [head ++ tail]
  | rows =>
    let separated := style.separated (rows.map Prod.snd)
    [head] ++ (rows.zip separated).flatMap (fun (row, text) ↦ row.1 ++ [text]) ++ [tail]

def caseRow (c : Case) : List String × String :=
  (docLines indent c.doc, indent ++ key c.name ++ ": " ++ c.value.literal)

def entryText (enumName : String) : Entry → String
  | .ofCase name => enumName ++ "." ++ name
  | .ofScalar s => s.literal

def groupRow (enumName : String) (shape : Shape) (entry : String × Entry) :
    List String × String :=
  match shape with
  | .array => ([], indent ++ entryText enumName entry.2)
  | .record => ([], indent ++ key entry.1 ++ ": " ++ entryText enumName entry.2)

def opening : Shape → String
  | .array => "["
  | .record => "\x7b"

def closing : Shape → String
  | .array => "]"
  | .record => "\x7d"

def groupLines (style : Style) (enumName : String) (g : Group) : List String :=
  constant style g.name (opening g.shape) (closing g.shape)
    (g.entries.map (groupRow enumName g.shape))

/-- The type of the values of a constant. -/
def typeLines (style : Style) (name : String) : List String :=
  if style.isTs then
    ["", "export type " ++ name ++ " = typeof " ++ name ++ "[keyof typeof " ++ name ++ "];"]
  else []

def lines (style : Style) (r : EnumRecord) : List String :=
  docLines "" r.doc ++ constant style r.name "\x7b" "\x7d" (r.cases.map caseRow)
    ++ typeLines style r.name ++ r.groups.flatMap fun g ↦ "" :: groupLines style r.name g

def text (style : Style) (r : EnumRecord) : String := Text.unlines (lines style r)

end FrontendSync.Module.EnumModule
