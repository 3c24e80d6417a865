import FrontendSync.Path.Basic

/-!
# Relative paths

The way from a directory to a path: up from what the two do not share, and down again.
-/

namespace FrontendSync.Path

/-- The rest of the way once the components differ; `.parent` in the base cannot be undone. -/
def climb? (goal base : List Component) (up : List Component) : Option (List Component) :=
  match goal, base with
  | [], [] => some up
  | goal, [] => some (up ++ goal)
  | [], _ :: base => climb? [] base (up ++ [.parent])
  | a :: goal, .current :: base => climb? goal base (up ++ [a])
  | _, .parent :: _ => none
  | goal, _ :: base => some (up ++ .parent :: base.map (fun _ ↦ .parent) ++ goal)

/-- The way from `base` to `goal`: shared components at the start are left out. -/
def way? (goal base : List Component) : Option (List Component) :=
  match goal, base with
  | a :: as, b :: base => if a = b then way? as base else climb? (a :: as) (b :: base) []
  | goal, base => climb? goal base []

/-- The path of `goal` from the directory `base`.  An absolute path needs no way, and there is none
from an absolute directory to a relative path. -/
def relative? (goal base : Path) : Option Path :=
  if goal.isAbsolute == base.isAbsolute then
    (way? goal.components base.components).map ofComponents
  else if goal.isAbsolute then some goal
  else none

end FrontendSync.Path
