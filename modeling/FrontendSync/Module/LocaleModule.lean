import FrontendSync.Locale.Json.Printer
import FrontendSync.Module.Literal
import FrontendSync.Module.Style

/-!
# Locale modules

The text of the data of a locale: a constant named after the locale, or a JSON document.
-/

namespace FrontendSync.Module.LocaleModule

def margin (depth : Nat) : String := String.ofList (List.replicate (2 * depth) ' ')

/-- Rows between brackets, each on a line of its own. -/
def block (style : Style) (depth : Nat) (opening closing : String) : List String → String
  | [] => opening ++ closing
  | rows =>
    Text.unlines
      ([opening] ++ (style.separated rows).map (margin (depth + 1) ++ ·)
        ++ [margin depth ++ closing])

mutual

def literal (style : Style) (depth : Nat) : Tree → String
  | .null => "null"
  | .bool true => "true"
  | .bool false => "false"
  | .int n => Decimal.ofInt n
  | .float x => x.literal
  | .text s => quote s
  | .list ts => block style depth "[" "]" (itemRows style (depth + 1) ts)
  | .map ms => block style depth "\x7b" "\x7d" (memberRows style (depth + 1) ms)

def itemRows (style : Style) (depth : Nat) : List Tree → List String
  | [] => []
  | t :: ts => literal style depth t :: itemRows style depth ts

def memberRows (style : Style) (depth : Nat) : Members → List String
  | [] => []
  | (k, t) :: ms => (key k ++ ": " ++ literal style depth t) :: memberRows style depth ms

end

/-- The name of the constant for a locale: what no identifier may hold becomes an underscore. -/
def identifier (locale : String) : String :=
  let chars := locale.toList.map fun c ↦ if isIdentifierChar c then c else '_'
  match chars with
  | [] => "_"
  | c :: _ => if c.isDigit then String.ofList ('_' :: chars) else String.ofList chars

def text (style : Style) (locale : String) (data : Members) : String :=
  match style.format with
  | .json => String.ofList (Json.pretty 0 (.map data))
  | .js | .ts =>
    let name := identifier locale
    let constant :=
      "export const " ++ name ++ " = " ++ literal style 0 (.map data) ++ style.asConst ++ ";"
    if style.isTs then
      Text.unlines [constant, "", "export type " ++ name ++ " = typeof " ++ name ++ ";"]
    else constant

end FrontendSync.Module.LocaleModule
