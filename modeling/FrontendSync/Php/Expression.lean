import FrontendSync.Php.Name
import FrontendSync.Php.Token
import FrontendSync.Php.Value

/-!
# Constant expressions

The value of a constant expression at the start of a list of tokens: literals, signs, texts
joined by dots, arrays, parentheses, class names and enum cases.  Every reading says which tokens
are left, also when it fails, and a successful one has used at least one token.
-/

namespace FrontendSync.Php

inductive EvalError where
  | unexpectedEnd
  | unsupported (token : Token)
  | expected (mark : Punct) (found : Token)
  | unresolvedCase (className caseName : String)
deriving DecidableEq, Repr

namespace EvalError

def message : EvalError → String
  | unexpectedEnd => "unexpected end of expression"
  | unsupported t =>
    "unsupported expression near '" ++ t.describe ++ "' on line " ++ Decimal.ofNat t.line
  | expected mark t =>
    "expected '" ++ mark.spelling ++ "' but found '" ++ t.describe ++ "' on line "
      ++ Decimal.ofNat t.line
  | unresolvedCase c n => "cannot resolve '" ++ c ++ "::" ++ n ++ "->value'"

end EvalError

/-- What an expression may refer to: names through the scope, the class that `self` and `static`
stand for, and the values of cases. -/
structure Context where
  scope : Scope
  currentClass : Option String
  caseValue : String → String → Option Value

/-- A value read from fewer than `n` tokens left over, or an error and the tokens after it. -/
inductive Reading (α : Type) (n : Nat) where
  | value (v : α) (rest : List Token) (shorter : rest.length < n)
  | error (e : EvalError) (rest : List Token)

namespace Reading

variable {α : Type} {m n : Nat}

def widen (h : m ≤ n) : Reading α m → Reading α n
  | value v rest shorter => .value v rest (Nat.lt_of_lt_of_le shorter h)
  | error e rest => .error e rest

def answer : Reading α n → Except EvalError α
  | value v _ _ => .ok v
  | error e _ => .error e

def rest : Reading α n → List Token
  | value _ rest _ => rest
  | error _ rest => rest

@[simp] theorem answer_widen (h : m ≤ n) (r : Reading α m) : (r.widen h).answer = r.answer := by
  cases r <;> rfl

@[simp] theorem rest_widen (h : m ≤ n) (r : Reading α m) : (r.widen h).rest = r.rest := by
  cases r <;> rfl

end Reading

namespace Expression

/-- The mark that has to come next. -/
def close (mark : Punct) (v : Value) : (ts : List Token) → Reading Value ts.length
  | [] => .error .unexpectedEnd []
  | t :: rest =>
    if t.isPunct mark then .value v rest (by simp) else .error (.expected mark t) rest

/-- The property of a case after its arrow. -/
def property (ctx : Context) (className caseName : String) :
    (ts : List Token) → Reading Value ts.length
  | [] => .error .unexpectedEnd []
  | t :: rest =>
    match t.name? with
    | some "name" => .value (.string caseName) rest (by simp)
    | some "value" =>
      match ctx.caseValue className caseName with
      | some v => .value v rest (by simp)
      | none => .error (.unresolvedCase className caseName) rest
    | _ => .error (.unsupported t) rest

/-- The class a name stands for: `self` and `static` need a current class. -/
def className? (ctx : Context) (name : String) : Option String :=
  if name.toLower = "self" ∨ name.toLower = "static" then ctx.currentClass
  else some (ctx.scope.resolve name)

/-- A case of a class, with a property when an arrow follows. -/
def enumCase (ctx : Context) (className caseName : String) :
    (ts : List Token) → Reading Value (ts.length + 1)
  | [] => .value (.enumCase className caseName) [] (by simp)
  | t :: rest =>
    if t.isPunct .arrow || t.isPunct .nullsafeArrow then
      (property ctx className caseName rest).widen (by simp; omega)
    else .value (.enumCase className caseName) (t :: rest) (by simp)

/-- What follows the name of a class and a double colon. -/
def member (ctx : Context) (className : String) : (ts : List Token) → Reading Value ts.length
  | [] => .error .unexpectedEnd []
  | t :: rest =>
    match t.name? with
    | none => .error (.unsupported t) rest
    | some caseName =>
      if caseName.toLower = "class" then .value (.string className) rest (by simp)
      else enumCase ctx className caseName rest

def negate? : Value → Option Value
  | .int n => some (.int (-n))
  | .float x => some (.float (-x))
  | _ => none

/-- The index that the next entry without a key gets. -/
def nextIndex (index : Int) : Key → Int
  | .int n => if index ≤ n then Decimal.wrap (n + 1) else index
  | .string _ => index

/-- A name that is a literal. -/
def word (t : Token) (name : String) (ts : List Token) : Reading Value (ts.length + 1) :=
  match name.toLower with
  | "true" => .value (.bool true) ts (by simp)
  | "false" => .value (.bool false) ts (by simp)
  | "null" => .value .null ts (by simp)
  | _ => .error (.unsupported t) ts

mutual

/-- Operands joined by dots. -/
def read (ctx : Context) (ts : List Token) : Reading Value ts.length :=
  match unary ctx ts with
  | .error e rest => .error e rest
  | .value v rest h => (joined ctx v rest).widen h
termination_by 6 * ts.length + 3

/-- The operands after the first, which has the value `v`. -/
def joined (ctx : Context) (v : Value) (ts : List Token) : Reading Value (ts.length + 1) :=
  match ts with
  | [] => .value v [] (by simp)
  | t :: rest =>
    if t.isPunct .dot then
      match unary ctx rest with
      | .error e rest => .error e rest
      | .value w rest' h =>
        match v.joinText?, w.joinText? with
        | some l, some r => (joined ctx (.string (l ++ r)) rest').widen (by simp; omega)
        | _, _ => .error (.unsupported t) rest'
    else .value v (t :: rest) (by simp)
termination_by 6 * ts.length + 3

def unary (ctx : Context) (ts : List Token) : Reading Value ts.length :=
  match ts with
  | [] => .error .unexpectedEnd []
  | t :: rest =>
    if t.isPunct .plus then (unary ctx rest).widen (by simp)
    else if t.isPunct .minus then
      match unary ctx rest with
      | .error e rest => .error e rest
      | .value v rest' h =>
        match negate? v with
        | some w => .value w rest' (by simp; omega)
        | none => .error (.unsupported t) rest'
    else primary ctx t rest
termination_by 6 * ts.length + 2

def primary (ctx : Context) (t : Token) (ts : List Token) : Reading Value (ts.length + 1) :=
  match t.kind with
  | .string text => .value (.string text) ts (by simp)
  | .int n => .value (.int n) ts (by simp)
  | .float x => .value (.float x) ts (by simp)
  | .punct .bracketOpen => (array ctx .bracketClose [] 0 ts).widen (by simp)
  | .punct .parenOpen =>
    match read ctx ts with
    | .error e rest => .error e rest
    | .value v rest h => (close .parenClose v rest).widen (by omega)
  | .name name =>
    match ts with
    | [] => word t name []
    | next :: rest =>
      if next.isPunct .doubleColon then
        match className? ctx name with
        | none => .error (.unsupported t) rest
        | some className => (member ctx className rest).widen (by simp; omega)
      else if name.toLower = "array" ∧ next.isPunct .parenOpen then
        (array ctx .parenClose [] 0 rest).widen (by simp; omega)
      else word t name (next :: rest)
  | _ => .error (.unsupported t) ts
termination_by 6 * ts.length + 5

/-- The rest of an array before an entry or its closing bracket. -/
def array (ctx : Context) (closer : Punct) (entries : List (Key × Value)) (index : Int)
    (ts : List Token) : Reading Value ts.length :=
  match ts with
  | [] => .error .unexpectedEnd []
  | t :: rest =>
    if t.isPunct closer then .value (.array entries) rest (Nat.lt_succ_self _)
    else if t.isPunct .ellipsis then .error (.unsupported t) (t :: rest)
    else
      match read ctx (t :: rest) with
      | .error e left => .error e left
      | .value _ [] _ => .error .unexpectedEnd []
      | .value v (a :: after) h =>
        have : after.length < (t :: rest).length := Nat.lt_of_succ_lt h
        if a.isPunct .doubleArrow then
          match v.key? with
          | none => .error (.unsupported t) after
          | some key =>
            match read ctx after with
            | .error e left => .error e left
            | .value w left h' =>
              have : left.length < (t :: rest).length := Nat.lt_trans h' this
              (afterEntry ctx closer (Ordered.insert key w entries) (nextIndex index key)
                left).widen (Nat.le_of_lt this)
        else
          (afterEntry ctx closer (Ordered.insert (.int index) v entries)
            (nextIndex index (.int index)) (a :: after)).widen (Nat.le_of_lt h)
termination_by 6 * ts.length + 4
decreasing_by all_goals (simp_all only [List.length_cons]; omega)

/-- The rest of an array after an entry. -/
def afterEntry (ctx : Context) (closer : Punct) (entries : List (Key × Value)) (index : Int)
    (ts : List Token) : Reading Value ts.length :=
  match ts with
  | [] => .error .unexpectedEnd []
  | t :: rest =>
    if t.isPunct closer then .value (.array entries) rest (Nat.lt_succ_self _)
    else if t.isPunct .comma then (array ctx closer entries index rest).widen (Nat.le_succ _)
    else .error (.expected .comma t) rest
termination_by 6 * ts.length + 1

end

end Expression

end FrontendSync.Php
