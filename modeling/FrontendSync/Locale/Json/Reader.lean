import FrontendSync.Locale.Json.Number
import FrontendSync.Locale.Json.Text
import FrontendSync.Text.Trim

/-!
# Reading JSON

A text is one value with blanks around it.  Containers are nested at most 127 deep.  A member
that is repeated replaces the value and keeps the first position.
-/

namespace FrontendSync.Json

def isBlank (c : Char) : Bool := c == ' ' || c == '\n' || c == '\t' || c == '\r'

def skip (s : List Char) : List Char := s.dropWhile isBlank

theorem skip_length_le (s : List Char) : (skip s).length ≤ s.length :=
  (List.dropWhile_sublist _).length_le

/-- Items with commas between them, and what follows the closing character. -/
def items? {α : Type} (read : List Char → Option (α × List Char)) (close : Char)
    (s : List Char) : Option (List α × List Char) :=
  match read s with
  | none => none
  | some (v, rest) =>
    match skip rest with
    | [] => none
    | c :: rest =>
      if c = close then some ([v], rest)
      else if c = ',' then
        if rest.length < s.length then
          have := skip_length_le rest
          (items? read close (skip rest)).map fun (vs, rest) ↦ (v :: vs, rest)
        else none
      else none
termination_by s.length
decreasing_by omega

/-- The items of a container after its opening character, of which there may be none. -/
def container? {α : Type} (read : List Char → Option (α × List Char)) (close : Char)
    (s : List Char) : Option (List α × List Char) :=
  match skip s with
  | [] => none
  | c :: rest => if c = close then some ([], rest) else items? read close (c :: rest)

def string? : List Char → Option (String × List Char)
  | '"' :: s => (unquote? (s.length + 1) s).map fun (cs, s) ↦ (String.ofList cs, s)
  | _ => none

/-- A key, a colon and a value. -/
def member? (value : List Char → Option (Tree × List Char)) (s : List Char) :
    Option ((String × Tree) × List Char) := do
  let (key, s) ← string? s
  match skip s with
  | ':' :: s =>
    let (v, s) ← value (skip s)
    return ((key, v), s)
  | _ => none

def literals : List (List Char × Tree) :=
  [("null".toList, .null), ("true".toList, .bool true), ("false".toList, .bool false)]

def literal? (s : List Char) : Option (Tree × List Char) :=
  literals.findSome? fun (name, t) ↦ (Text.stripStart? name s).map (t, ·)

/-- The value at the start of a text, which has at most `depth` containers nested in it. -/
def value? : Nat → List Char → Option (Tree × List Char)
  | depth, s =>
    match s with
    | '"' :: _ => (string? s).map fun (t, s) ↦ (.text t, s)
    | '{' :: s =>
      match depth with
      | 0 => none
      | depth + 1 =>
        (container? (member? (value? depth)) '}' s).map fun (ms, s) ↦
          (.map (Ordered.ofList ms), s)
    | '[' :: s =>
      match depth with
      | 0 => none
      | depth + 1 => (container? (value? depth) ']' s).map fun (ts, s) ↦ (.list ts, s)
    | s => (literal? s).or (number? s)

def maxDepth : Nat := 127

def parse? (s : List Char) : Option Tree :=
  match value? maxDepth (skip s) with
  | some (t, rest) => if skip rest = [] then some t else none
  | none => none

end FrontendSync.Json
