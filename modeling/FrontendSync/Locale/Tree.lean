import FrontendSync.Php.Value

/-!
# Locale trees

Locale data: scalars, lists, and maps that keep their members in order.  A map is meant to have
each key once; the operations on ordered members keep it so.
-/

namespace FrontendSync

inductive Tree where
  | null
  | bool (b : Bool)
  | int (n : Int)
  | float (x : Binary64)
  | text (s : String)
  | list (items : List Tree)
  | map (members : List (String × Tree))
deriving Repr, Inhabited

/-- The members of a map. -/
abbrev Members := List (String × Tree)

namespace Tree

open Php

def members? : Tree → Option Members
  | map m => some m
  | _ => none

mutual

/-- The tree of a PHP value: a list stays a list, any other array becomes a map, and a case has no
form of its own. -/
def ofValue : Value → Tree
  | .null => null
  | .bool b => bool b
  | .int n => int n
  | .float x => float x
  | .string s => text s
  | .array entries =>
    if entries.isEmpty || !Value.isList entries then map (Ordered.ofList (ofEntries entries))
    else list ((ofEntries entries).map Prod.snd)
  | .enumCase _ _ => null

def ofEntries : List (Key × Value) → Members
  | [] => []
  | (k, v) :: entries => (k.text, ofValue v) :: ofEntries entries

end

/-- List items with their positions as keys. -/
def numbered (n : Nat) : List Tree → Members
  | [] => []
  | t :: ts => (Decimal.ofNat n, t) :: numbered (n + 1) ts

end Tree

end FrontendSync
