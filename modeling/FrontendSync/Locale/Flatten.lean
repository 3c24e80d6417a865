import FrontendSync.Locale.Tree

/-!
# Flattening

The leaves of a tree, which are its scalars and empty containers, each under the keys on the way
to it joined with dots.
-/

namespace FrontendSync.Tree

/-- The key of a member below the given path; at the root it is the member's own key. -/
def joinKey (path : Option String) (key : String) : String :=
  match path with
  | some p => p ++ "." ++ key
  | none => key

mutual

/-- The leaves at and below a tree in depth-first order, with their joined keys. -/
def leaves (path : Option String) : Tree → Members
  | map [] => [(path.getD "", map [])]
  | list [] => [(path.getD "", list [])]
  | map (m :: ms) => memberLeaves path (m :: ms)
  | list (t :: ts) => itemLeaves path 0 (t :: ts)
  | t => [(path.getD "", t)]

def memberLeaves (path : Option String) : Members → Members
  | [] => []
  | (k, t) :: ms => leaves (some (joinKey path k)) t ++ memberLeaves path ms

def itemLeaves (path : Option String) (n : Nat) : List Tree → Members
  | [] => []
  | t :: ts => leaves (some (joinKey path (Decimal.ofNat n))) t ++ itemLeaves path (n + 1) ts

end

/-- One level of members: the leaves in order, a later one replacing an earlier one of the same
key.  What is no map is kept whole under the empty key. -/
def flatten : Tree → Members
  | map m => Ordered.ofList (leaves none (map m))
  | t => [("", t)]

end FrontendSync.Tree
