import FrontendSync.Number.Binary64
import FrontendSync.Ordered

/-!
# Configuration documents

The values a configuration file is made of, whatever its format.
-/

namespace FrontendSync

inductive Document where
  | null
  | bool (b : Bool)
  | int (n : Int)
  | float (x : Binary64)
  | string (s : String)
  /-- A date or a time, as written. -/
  | date (s : String)
  | array (items : List Document)
  | table (members : List (String × Document))
deriving Repr, Inhabited

namespace Document

def bool? : Document → Option Bool
  | bool b => some b
  | _ => none

def string? : Document → Option String
  | string s => some s
  | _ => none

/-- An integer of 64 bits. -/
def int? : Document → Option Int
  | int n => if Decimal.fits n then some n else none
  | _ => none

def strings? : Document → Option (List String)
  | array items => items.mapM string?
  | _ => none

/-- The fields of a section: a table by their names, or an array by their positions.  A date is a
section with no known field.  `surplus` tells whether an array may have more items than there are
fields, which are passed over then. -/
def fields? (surplus : Bool) (names : List String) :
    Document → Option (List (String × Document))
  | table members => some members
  | array items =>
    if surplus ∨ items.length ≤ names.length then some (names.zip items) else none
  | date _ => some []
  | _ => none

/-- A field read with `read`; the fallback where it is absent. -/
def field? {α : Type} (fields : List (String × Document)) (name : String)
    (read : Document → Option α) (fallback : α) : Option α :=
  match Ordered.get? name fields with
  | none => some fallback
  | some d => read d

end Document

end FrontendSync
