import FrontendSync.Locale.Json.Text
import FrontendSync.Locale.Tree

/-!
# Writing JSON

Compact text, and text with one item a line and two spaces for each level.
-/

namespace FrontendSync.Json

def boolText (b : Bool) : List Char := if b then "true".toList else "false".toList

/-- Texts with a separator between them. -/
def separated (separator : List Char) : List (List Char) → List Char
  | [] => []
  | [t] => t
  | t :: ts => t ++ separator ++ separated separator ts

mutual

def compact : Tree → List Char
  | .null => "null".toList
  | .bool b => boolText b
  | .int n => Decimal.intDigits n
  | .float x => x.json
  | .text s => quoted s
  | .list ts => '[' :: separated [','] (compactItems ts) ++ [']']
  | .map ms => '{' :: separated [','] (compactMembers ms) ++ ['}']

def compactItems : List Tree → List (List Char)
  | [] => []
  | t :: ts => compact t :: compactItems ts

def compactMembers : Members → List (List Char)
  | [] => []
  | (k, t) :: ms => (quoted k ++ ':' :: compact t) :: compactMembers ms

end

def indent (depth : Nat) : List Char := List.replicate (2 * depth) ' '

/-- The lines of a container between its brackets. -/
def block (depth : Nat) (opening closing : Char) : List (List Char) → List Char
  | [] => [opening, closing]
  | items =>
    opening :: '\n' :: separated [',', '\n'] (items.map (indent (depth + 1) ++ ·))
      ++ '\n' :: indent depth ++ [closing]

mutual

def pretty (depth : Nat) : Tree → List Char
  | .null => "null".toList
  | .bool b => boolText b
  | .int n => Decimal.intDigits n
  | .float x => x.json
  | .text s => quoted s
  | .list ts => block depth '[' ']' (prettyItems (depth + 1) ts)
  | .map ms => block depth '{' '}' (prettyMembers (depth + 1) ms)

def prettyItems (depth : Nat) : List Tree → List (List Char)
  | [] => []
  | t :: ts => pretty depth t :: prettyItems depth ts

def prettyMembers (depth : Nat) : Members → List (List Char)
  | [] => []
  | (k, t) :: ms => (quoted k ++ ':' :: ' ' :: pretty depth t) :: prettyMembers depth ms

end

end FrontendSync.Json
