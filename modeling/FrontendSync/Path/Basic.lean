import FrontendSync.Text.Lines

/-!
# Paths

A path is a text; what it means is its components.  Repeated separators and dots inside a path
are no components, so two paths may differ as texts and be the same path.
-/

namespace FrontendSync

structure Path where
  text : String
deriving DecidableEq, Repr, Inhabited

namespace Path

inductive Component where
  | root
  | current
  | parent
  | normal (name : String)
deriving DecidableEq, Repr

namespace Component

def text : Component → String
  | root => "/"
  | current => "."
  | parent => ".."
  | normal name => name

/-- The place of a kind of component in the order of paths. -/
def rank : Component → Nat
  | root => 0
  | current => 1
  | parent => 2
  | normal _ => 3

def before (a b : Component) : Bool :=
  match a, b with
  | normal m, normal n => m < n
  | _, _ => a.rank < b.rank

end Component

/-- A segment between separators, with the number of characters of the path up to its end. -/
structure Segment where
  name : List Char
  stop : Nat

/-- Segments of which the first starts at the given offset. -/
def measure (offset : Nat) : List (List Char) → List Segment
  | [] => []
  | s :: more => ⟨s, offset + s.length⟩ :: measure (offset + s.length + 1) more

def isAbsolute (p : Path) : Bool := p.text.toList.head? == some '/'

/-- A component and the length of the path up to its end.  A dot counts only as the first segment
of a relative path. -/
def component? (first : Bool) (s : Segment) : Option (Component × Nat) :=
  match s.name with
  | [] => none
  | ['.'] => if first then some (.current, s.stop) else none
  | ['.', '.'] => some (.parent, s.stop)
  | name => some (.normal (String.ofList name), s.stop)

/-- The components with the length of the path up to the end of each. -/
def measured (p : Path) : List (Component × Nat) :=
  let chars := p.text.toList
  let root := if p.isAbsolute then [(Component.root, 1)] else []
  match measure 0 (Text.pieces '/' chars) with
  | [] => root
  | s :: more => root ++ (component? true s).toList ++ more.filterMap (component? false)

def components (p : Path) : List Component := p.measured.map Prod.fst

/-- Whether two paths have the same components. -/
def same (p q : Path) : Bool := p.components == q.components

def componentsBefore : List Component → List Component → Bool
  | [], [] => false
  | [], _ :: _ => true
  | _ :: _, [] => false
  | a :: as, b :: bs => a.before b || (a == b && componentsBefore as bs)

/-- The order of paths: component by component, names by their characters. -/
def before (p q : Path) : Bool := componentsBefore p.components q.components

/-- A path below another one; an absolute path stays as it is. -/
def join (p q : Path) : Path :=
  if q.isAbsolute || p.text == "" then q
  else if p.text.toList.getLast? == some '/' then ⟨p.text ++ q.text⟩
  else ⟨p.text ++ "/" ++ q.text⟩

/-- The path of components, each below the ones before it. -/
def ofComponents (cs : List Component) : Path := cs.foldl (fun p c ↦ p.join ⟨c.text⟩) ⟨""⟩

def take (p : Path) (n : Nat) : Path := ⟨String.ofList (p.text.toList.take n)⟩

/-- The path without its last component; there is none without a component to leave out. -/
def parent? (p : Path) : Option Path :=
  match p.measured.reverse with
  | [] | (.root, _) :: _ => none
  | _ :: [] => some (p.take 0)
  | _ :: (_, stop) :: _ => some (p.take stop)

def fileName? (p : Path) : Option String :=
  match p.components.getLast? with
  | some (.normal name) => some name
  | _ => none

/-- The parts of a file name before and after its last dot; a dot at the start divides
nothing. -/
def splitName (name : String) : String × Option String :=
  let chars := name.toList
  let after := (chars.reverse.takeWhile (· ≠ '.')).reverse
  let before := (chars.take (chars.length - after.length)).dropLast
  if before = [] then (name, none) else (String.ofList before, some (String.ofList after))

def stem? (p : Path) : Option String := p.fileName?.map fun n ↦ (splitName n).1

def extension? (p : Path) : Option String := p.fileName?.bind fun n ↦ (splitName n).2

/-- The path without the extension of its file name and whatever follows the name.  Of a last name
that is two dots and an extension both dots stay. -/
def dropExtension (p : Path) : Path :=
  match p.measured.getLast? with
  | some (.normal name, stop) =>
    let stem := (splitName name).1
    let kept := if stem = "." ∧ stop = p.text.length then 2 else stem.length
    p.take (stop - name.length + kept)
  | _ => p

/-- A path of the settings: relative ones are below the root of the project. -/
def under (root p : Path) : Path := root.join p

end Path

end FrontendSync
