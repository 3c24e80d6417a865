/-!
# Switches

Arguments are read from left to right.  A switch has a long name and perhaps a letter; its value
is attached to it or is the next argument.  After two dashes alone, arguments are operands.
-/

namespace FrontendSync.CommandLine

/-- Why no command is run. -/
inductive Halt where
  | help
  | version
  /-- The arguments make no sense. -/
  | misuse
deriving DecidableEq, Repr

inductive SwitchKind where
  | flag
  | text
  /-- A text that is not empty. -/
  | path
  | halt (h : Halt)
deriving DecidableEq, Repr

structure Switch where
  name : String
  letter : Option Char
  kind : SwitchKind
  /-- A switch that this one takes back. -/
  rival : Option String
deriving DecidableEq, Repr

/-- What an argument that is no switch means. -/
inductive OperandRule where
  | refused
  | collected
  /-- It ends the switches and is not read. -/
  | final
deriving DecidableEq, Repr

structure Grammar where
  switches : List Switch
  operands : OperandRule

/-- The switches given with their values, and the operands. -/
structure Arguments where
  given : List (String × String)
  operands : List String
deriving DecidableEq, Repr

namespace Arguments

def empty : Arguments := ⟨[], []⟩

def value? (a : Arguments) (name : String) : Option String := a.given.lookup name

def has (a : Arguments) (name : String) : Bool := (a.value? name).isSome

/-- One more switch; each is given once. -/
def give (a : Arguments) (s : Switch) (value : String) : Except Halt Arguments :=
  if a.has s.name || s.kind == .path && value == "" then .error .misuse
  else .ok { a with given := (a.given.filter fun g ↦ some g.1 ≠ s.rival) ++ [(s.name, value)] }

end Arguments

/-- Whether an argument is a switch by its form; a dash alone is not. -/
def isSwitch : List Char → Bool
  | '-' :: _ :: _ => true
  | _ => false

/-- The effect of a switch with the value attached to it, or the switch that waits for its
value. -/
def start (a : Arguments) (s : Switch) (attached : Option String) :
    Except Halt (Arguments × Option Switch) :=
  match s.kind, attached with
  | .flag, none => (a.give s "").map (·, none)
  | .halt h, none => .error h
  | .flag, some _ | .halt _, some _ => .error .misuse
  | .text, some value | .path, some value => (a.give s value).map (·, none)
  | .text, none | .path, none => .ok (a, some s)

/-- An argument after its two dashes. -/
def readLong (g : Grammar) (a : Arguments) (body : List Char) :
    Except Halt (Arguments × Option Switch) :=
  let name := String.ofList (body.takeWhile (· ≠ '='))
  let attached := match body.dropWhile (· ≠ '=') with
    | [] => none
    | _ :: value => some (String.ofList value)
  match g.switches.find? (·.name == name) with
  | none => .error .misuse
  | some s => start a s attached

/-- Letters after one dash; what follows the letter of a switch with a value is the value. -/
def readLetters (g : Grammar) (a : Arguments) : List Char → Except Halt (Arguments × Option Switch)
  | [] => .ok (a, none)
  | c :: cs =>
    match g.switches.find? (·.letter == some c) with
    | none => .error .misuse
    | some s =>
      match s.kind with
      | .halt h => .error h
      | .flag => (a.give s "").bind (readLetters g · cs)
      | .text | .path =>
        match cs with
        | [] => .ok (a, some s)
        | '=' :: value => start a s (some (String.ofList value))
        | value => start a s (some (String.ofList value))

/-- The arguments by a grammar, and what is not read of them. -/
def readAll (g : Grammar) (waiting : Option Switch) (a : Arguments) :
    List String → Except Halt (Arguments × List String)
  | [] => if waiting.isSome then .error .misuse else .ok (a, [])
  | arg :: more =>
    let chars := arg.toList
    match waiting with
    | some s =>
      if isSwitch chars then .error .misuse
      else (a.give s arg).bind (readAll g none · more)
    | none =>
      if isSwitch chars then
        match chars with
        | ['-', '-'] =>
          if g.operands = .collected || more = [] then
            .ok ({ a with operands := a.operands ++ more }, [])
          else .error .misuse
        | '-' :: '-' :: body => (readLong g a body).bind fun (a, waiting) ↦ readAll g waiting a more
        | body => (readLetters g a body.tail).bind fun (a, waiting) ↦ readAll g waiting a more
      else
        match g.operands with
        | .refused => .error .misuse
        | .collected => readAll g none { a with operands := a.operands ++ [arg] } more
        | .final => .ok (a, arg :: more)

def Grammar.read (g : Grammar) (args : List String) : Except Halt (Arguments × List String) :=
  readAll g none .empty args

end FrontendSync.CommandLine
