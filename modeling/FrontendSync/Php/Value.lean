import FrontendSync.Number.Layout
import FrontendSync.Ordered

/-!
# PHP values

The values of constant expressions.  An array keeps its entries in order; a text that is the
decimal text of an integer is no key of its own but that integer.
-/

namespace FrontendSync.Php

inductive Key where
  | int (n : Int)
  | string (text : String)
deriving DecidableEq, Repr

namespace Key

def ofString (text : String) : Key :=
  match Decimal.canonicalInt? text.toList with
  | some n => .int n
  | none => .string text

def text : Key → String
  | int n => Decimal.ofInt n
  | string text => text

end Key

/-- A value; `enumCase` is a case of an enum by its qualified class name. -/
inductive Value where
  | null
  | bool (b : Bool)
  | int (n : Int)
  | float (x : Binary64)
  | string (text : String)
  | array (entries : List (Key × Value))
  | enumCase (className caseName : String)
deriving Repr

namespace Value

def kindName : Value → String
  | null => "null"
  | bool _ => "bool"
  | int _ => "int"
  | float _ => "float"
  | string _ => "string"
  | array _ => "array"
  | enumCase _ _ => "enum case"

def string? : Value → Option String
  | string text => some text
  | _ => none

def bool? : Value → Option Bool
  | bool b => some b
  | _ => none

/-- The text a scalar has when it is joined to another; arrays and cases have none. -/
def joinText? : Value → Option String
  | string text => some text
  | int n => some (Decimal.ofInt n)
  | float x => some x.text
  | bool true => some "1"
  | bool false | null => some ""
  | array _ | enumCase _ _ => none

/-- The key a scalar becomes; arrays and cases are no keys. -/
def key? : Value → Option Key
  | string text => some (Key.ofString text)
  | int n => some (.int n)
  | float x => some (.int x.toInt64)
  | bool b => some (.int (if b then 1 else 0))
  | null => some (.string "")
  | array _ | enumCase _ _ => none

/-- Whether keys are `n`, `n + 1`, ... in order. -/
def areFrom : Nat → List Key → Bool
  | _, [] => true
  | n, k :: ks => k == .int n && areFrom (n + 1) ks

/-- The entries of a list have the keys `0`, `1`, ... in order. -/
def isList (entries : List (Key × Value)) : Bool := areFrom 0 (Ordered.keys entries)

end Value

end FrontendSync.Php
