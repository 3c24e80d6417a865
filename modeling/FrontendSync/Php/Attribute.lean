import FrontendSync.Php.Brackets
import FrontendSync.Php.Expression

/-!
# Attributes

The attributes of a `#[...]` group with the arguments that are constant expressions; an argument
of any other form is left out.
-/

namespace FrontendSync.Php

/-- An attribute by its name as written; a named argument that is given again keeps the last
value. -/
structure Attribute where
  name : String
  args : List Value
  named : List (String × Value)
deriving Repr, Inhabited

namespace Attribute

/-- Attributes are known by the last segment of their name, in any letter case. -/
def isNamed (name : String) (a : Attribute) : Bool := Name.same (Name.short a.name) name

/-- An argument by its name, or else by its position. -/
def arg? (a : Attribute) (name : String) (position : Nat) : Option Value :=
  (Ordered.get? name a.named).or a.args[position]?

def boolArg (a : Attribute) (name : String) (position : Nat) (default : Bool) : Bool :=
  ((a.arg? name position).bind Value.bool?).getD default

def stringArg? (a : Attribute) (name : String) (position : Nat) : Option String :=
  (a.arg? name position).bind Value.string?

/-- The texts of an array argument; one text alone counts as a list of it. -/
def stringsArg (a : Attribute) (name : String) (position : Nat) : List String :=
  match a.arg? name position with
  | some (.array entries) => entries.filterMap fun e ↦ e.2.string?
  | some (.string text) => [text]
  | _ => []

/-- The value of tokens that are one expression and nothing else. -/
def whole? (ctx : Context) (ts : List Token) : Option Value :=
  match Expression.read ctx ts with
  | .value v [] _ => some v
  | _ => none

/-- The attribute with one more argument. -/
def addArg (ctx : Context) (a : Attribute) (arg : List Token) : Attribute :=
  let positional := match whole? ctx arg with
    | some v => { a with args := a.args ++ [v] }
    | none => a
  match arg with
  | label :: colon :: expression =>
    if colon.isPunct .colon then
      match label.name? with
      | some name =>
        match whole? ctx expression with
        | some v => { a with named := Ordered.insert name v a.named }
        | none => a
      | none => positional
    else positional
  | _ => positional

/-- One attribute of a group: a name, and arguments if a parenthesis follows. -/
def ofTokens? (ctx : Context) : List Token → Option Attribute
  | [] => none
  | t :: rest =>
    t.name?.map fun name ↦
      let args := match rest with
        | paren :: rest =>
          if paren.isPunct .parenOpen then Brackets.items (Brackets.group 0 rest).1 else []
        | [] => []
      args.foldl (addArg ctx) ⟨name, [], []⟩

/-- The attributes of the group whose `#[` stands before `ts`, and the tokens after it. -/
def readGroup (ctx : Context) (ts : List Token) : List Attribute × List Token :=
  let (inside, rest) := Brackets.group 0 ts
  ((Brackets.items inside).filterMap (ofTokens? ctx), rest)

theorem readGroup_snd_length_le (ctx : Context) (ts : List Token) :
    (readGroup ctx ts).2.length ≤ ts.length := Brackets.group_snd_length_le 0 ts

end Attribute

end FrontendSync.Php
