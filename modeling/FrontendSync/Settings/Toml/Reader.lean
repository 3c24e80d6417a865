import FrontendSync.Settings.Toml.Scalar
import FrontendSync.Settings.Toml.Table
import FrontendSync.Settings.Toml.Text

/-!
# Reading TOML

A document is a sequence of lines with a header, a member or nothing; arrays and strings may go
over several lines.
-/

namespace FrontendSync.Toml

/-! ## Keys -/

def isKeyChar (c : Char) : Bool := c.isAlphanum || c == '_' || c == '-'

def key? (s : List Char) : Option (String × List Char) :=
  match s with
  | '"' :: s => (line? '"' s).map fun (cs, s) ↦ (String.ofList cs, s)
  | '\'' :: s => (line? '\'' s).map fun (cs, s) ↦ (String.ofList cs, s)
  | s =>
    let name := s.takeWhile isKeyChar
    if name = [] then none else some (String.ofList name, s.dropWhile isKeyChar)

/-- Keys with dots between them, and what follows them and the spaces after them. -/
def keys? (s : List Char) : Option (List String × List Char) :=
  match key? s with
  | none => none
  | some (k, rest) =>
    match skipSpaces rest with
    | '.' :: rest =>
      if _h : (skipSpaces rest).length < s.length then
        (keys? (skipSpaces rest)).map fun (ks, rest) ↦ (k :: ks, rest)
      else none
    | rest => some ([k], rest)
termination_by s.length

/-- The most parts of a dotted key, and the most containers in one another. -/
def maxDepth : Nat := 79

/-- Keys with dots between them, of which there are not too many. -/
def keyPath? (s : List Char) : Option (List String × List Char) :=
  (keys? s).filter fun (ks, _) ↦ ks.length ≤ maxDepth

/-! ## Values -/

/-- Drops spaces, line breaks and comments. -/
def skip (s : List Char) : List Char :=
  match _hs : skipSpaces s with
  | [] => []
  | c :: rest =>
    have : (c :: rest).length ≤ s.length := _hs ▸ (List.dropWhile_sublist _).length_le
    if c = '#' then
      have := (List.dropWhile_sublist isPlain (l := rest)).length_le
      skip (rest.dropWhile isPlain)
    else
      match _hb : afterBreak? (c :: rest) with
      | some more =>
        have := afterBreak?_length_lt _hb
        skip more
      | none => c :: rest
termination_by s.length
decreasing_by all_goals (simp only [List.length_cons] at *; omega)

/-- The items of an array after its opening bracket; a comma may follow the last one. -/
def items? (value : List Char → Option (Document × List Char)) (s : List Char) :
    Option (List Document × List Char) :=
  match skip s with
  | ']' :: rest => some ([], rest)
  | rest =>
    match value rest with
    | none => none
    | some (v, rest) =>
      match skip rest with
      | ']' :: rest => some ([v], rest)
      | ',' :: rest =>
        if _h : rest.length < s.length then
          (items? value rest).map fun (vs, rest) ↦ (v :: vs, rest)
        else none
      | _ => none
termination_by s.length

/-- A dotted key, an equals sign and a value. -/
def member? (value : List Char → Option (Document × List Char)) (s : List Char) :
    Option ((List String × Document) × List Char) := do
  let (ks, rest) ← keyPath? s
  match rest with
  | '=' :: rest =>
    let (v, rest) ← value (skipSpaces rest)
    return ((ks, v), rest)
  | _ => none

/-- The members of a table on one line, of which there is at least one. -/
def members? (value : List Char → Option (Document × List Char)) (n : Node) (s : List Char) :
    Option (Node × List Char) :=
  match member? value s with
  | none => none
  | some ((ks, v), rest) =>
    match n.assign ks v with
    | none => none
    | some n =>
      match skipSpaces rest with
      | '}' :: rest => some (n, rest)
      | ',' :: rest =>
        if _h : (skipSpaces rest).length < s.length then members? value n (skipSpaces rest)
        else none
      | _ => none
termination_by s.length

/-- The value at the start of a text, which has at most `depth` containers nested in it. -/
def value? : Nat → List Char → Option (Document × List Char)
  | depth, s =>
    match s with
    | '"' :: _ => (string? '"' s).map fun (t, s) ↦ (.string t, s)
    | '\'' :: _ => (string? '\'' s).map fun (t, s) ↦ (.string t, s)
    | '[' :: s =>
      match depth with
      | 0 => none
      | depth + 1 => (items? (value? depth) s).map fun (vs, s) ↦ (.array vs, s)
    | '{' :: s =>
      match depth with
      | 0 => none
      | depth + 1 =>
        match skipSpaces s with
        | '}' :: s => some (.table [], s)
        | s => (members? (value? depth) .empty s).map fun (n, s) ↦ (n.document, s)
    | s => (scalar? (word s).1).map fun d ↦ (d, (word s).2)

/-! ## Documents -/

inductive Statement where
  | header (keys : List String)
  | itemHeader (keys : List String)
  | member (keys : List String) (v : Document)

/-- The keys of a header and what follows it, after its opening brackets. -/
def header? (close : List Char) (s : List Char) : Option (List String × List Char) := do
  let (ks, rest) ← keyPath? (skipSpaces s)
  let rest ← Text.stripStart? close rest
  return (ks, rest)

def statement? (s : List Char) : Option (Statement × List Char) :=
  match s with
  | '[' :: '[' :: s => (header? [']', ']'] s).map fun (ks, s) ↦ (.itemHeader ks, s)
  | '[' :: s => (header? [']'] s).map fun (ks, s) ↦ (.header ks, s)
  | s => (member? (value? maxDepth) s).map fun ((ks, v), s) ↦ (.member ks v, s)

/-- What follows the end of a line, before which only spaces and a comment may stand. -/
def lineEnd? (s : List Char) : Option (List Char) :=
  let s := skipSpaces s
  let s := match s with
    | '#' :: s => s.dropWhile isPlain
    | s => s
  match s with
  | [] => some []
  | s => afterBreak? s

/-- All tables read so far, and the keys of the one that members go to. -/
structure State where
  top : Node
  current : List String

namespace State

def start : State := ⟨.empty, []⟩

/-- Opens the table of a header with `f`, which gets the last key. -/
def enter (s : State) (f : String → Node → Option Node) (keys : List String) : Option State :=
  match keys.getLast? with
  | none => none
  | some k => (s.top.change false (f k) keys.dropLast).map fun top ↦ ⟨top, keys⟩

def apply (s : State) : Statement → Option State
  | .header keys => s.enter Node.openTable keys
  | .itemHeader keys => s.enter Node.openItem keys
  | .member keys v =>
    (s.top.change false (Node.assign keys v) s.current).map fun top ↦ { s with top := top }

end State

def tables? (state : State) (s : List Char) : Option Node :=
  match skip s with
  | [] => some state.top
  | rest =>
    match statement? rest with
    | none => none
    | some (statement, rest) =>
      match lineEnd? rest, state.apply statement with
      | some rest, some state => if _h : rest.length < s.length then tables? state rest else none
      | _, _ => none
termination_by s.length

/-- The document of a text, which may start with a byte order mark. -/
def parse? (s : List Char) : Option Document :=
  let s := match s with
    | '\ufeff' :: s => s
    | s => s
  (tables? State.start s).map Node.document

end FrontendSync.Toml
