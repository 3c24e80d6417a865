import FrontendSync.Settings.Document

/-!
# TOML tables

Tables while they are read.  A table may be opened once by a header of its own, after headers of
tables inside it, and a table that dotted keys have made grows by dotted keys only.
-/

namespace FrontendSync.Toml

inductive Node where
  /-- A value, to which nothing is added. -/
  | value (d : Document)
  /-- A table: whether no header of its own has opened it, and whether dotted keys made it. -/
  | table (implied dotted : Bool) (members : List (String × Node))
  /-- Tables with one header, the last one first. -/
  | tables (items : List Node)
deriving Inhabited

namespace Node

/-- An empty table with a header of its own. -/
def empty : Node := table false false []

/-- The tree in which `f` has changed the table at the end of a way of keys.  Tables missing on
the way are made; `dotted` tells whether the way is that of a dotted key. -/
def change (dotted : Bool) (f : Node → Option Node) : List String → Node → Option Node
  | [], n => f n
  | k :: ks, table i d ms =>
    match Ordered.get? k ms with
    | none =>
      (change dotted f ks (table true dotted [])).map fun n ↦ table i d (Ordered.insert k n ms)
    | some (tables (n :: ns)) =>
      (change dotted f ks n).map fun n ↦ table i d (Ordered.insert k (tables (n :: ns)) ms)
    | some (table true d' ms') =>
      (change dotted f ks (table true d' ms')).map fun n ↦ table i d (Ordered.insert k n ms)
    | some (table false d' ms') =>
      if dotted then none
      else
        (change dotted f ks (table false d' ms')).map fun n ↦ table i d (Ordered.insert k n ms)
    | some (tables []) | some (value _) => none
  | _ :: _, _ => none

/-- A new member of a table. -/
def add (viaDots : Bool) (k : String) (v : Document) : Node → Option Node
  | table i d ms =>
    if d ≠ viaDots || Ordered.contains k ms then none
    else some (table i d (Ordered.insert k (value v) ms))
  | _ => none

/-- The member of a dotted key, which is new. -/
def assign (keys : List String) (v : Document) (n : Node) : Option Node :=
  match keys.getLast? with
  | none => none
  | some k => change true (add (1 < keys.length) k v) keys.dropLast n

/-- The table of a header. -/
def openTable (k : String) : Node → Option Node
  | table i d ms =>
    match Ordered.get? k ms with
    | none => some (table i d (Ordered.insert k empty ms))
    | some (table true false ms') => some (table i d (Ordered.insert k (table false false ms') ms))
    | some _ => none
  | _ => none

/-- One more table of a header with two brackets. -/
def openItem (k : String) : Node → Option Node
  | table i d ms =>
    match Ordered.get? k ms with
    | none => some (table i d (Ordered.insert k (tables [empty]) ms))
    | some (tables ns) => some (table i d (Ordered.insert k (tables (empty :: ns)) ms))
    | some _ => none
  | _ => none

mutual

def document : Node → Document
  | value d => d
  | table _ _ ms => .table (memberDocuments ms)
  | tables ns => .array (itemDocuments ns).reverse

def memberDocuments : List (String × Node) → List (String × Document)
  | [] => []
  | (k, n) :: ms => (k, n.document) :: memberDocuments ms

def itemDocuments : List Node → List Document
  | [] => []
  | n :: ns => n.document :: itemDocuments ns

end

end Node

end FrontendSync.Toml
