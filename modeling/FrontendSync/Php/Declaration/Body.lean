import FrontendSync.Php.Declaration
import FrontendSync.Php.DocComment

/-!
# Enum bodies

The cases and methods between the braces of an enum.  Constants, trait uses and whatever is not
understood are passed over.
-/

namespace FrontendSync.Php

namespace CaseDecl

/-- The value of an expression that has to be all of `ts`. -/
def wholeValue (ctx : Context) (ts : List Token) : Except EvalError Value :=
  match Expression.read ctx ts with
  | .value v [] _ => .ok v
  | .value _ (t :: _) _ => .error (.unsupported t)
  | .error e _ => .error e

/-- A case from the tokens between `case` and its semicolon. -/
def ofTokens (ctx : Context) (doc : Option String) (ts : List Token) : CaseDecl where
  name := (ts.head?.bind Token.name?).getD ""
  value := match ts with
    | _ :: t :: expression =>
      if t.isPunct .assign then some (wholeValue ctx expression) else none
    | _ => none
  doc := doc

end CaseDecl

namespace MethodDecl

/-- The tokens from the body or the semicolon on, behind a return type. -/
def afterType (ts : List Token) : List Token :=
  match ts with
  | t :: rest =>
    if t.isPunct .colon then
      rest.dropWhile fun t ↦ !(t.isPunct .braceOpen || t.isPunct .semicolon)
    else t :: rest
  | [] => []

theorem afterType_suffix (ts : List Token) : afterType ts <:+ ts := by
  unfold afterType
  split
  · split
    · exact (List.dropWhile_suffix _).trans (List.suffix_cons _ _)
    · exact List.suffix_refl _
  · exact List.suffix_refl []

/-- The inside of the braces that come next, if any, and the tokens after the braces or after the
one token that stands in their place. -/
def readBody : List Token → Option (List Token) × List Token
  | [] => (none, [])
  | t :: rest =>
    if t.isPunct .braceOpen then (some (Brackets.group 0 rest).1, (Brackets.group 0 rest).2)
    else (none, rest)

theorem readBody_suffix (ts : List Token) : (readBody ts).2 <:+ ts := by
  unfold readBody
  split
  · exact List.suffix_refl []
  · split
    · exact (Brackets.group_suffix 0 _).trans (List.suffix_cons _ _)
    · exact List.suffix_cons _ _

/-- A function that returns a reference has a mark before its name. -/
def afterReference : List Token → List Token
  | [] => []
  | t :: rest => if t.isSymbol '&' then rest else t :: rest

theorem afterReference_suffix (ts : List Token) : afterReference ts <:+ ts := by
  unfold afterReference
  split
  · exact List.suffix_refl []
  · split
    · exact List.suffix_cons _ _
    · exact List.suffix_refl _

/-- A method from its parenthesis on. -/
def readFrom (name : String) (isPublic isStatic : Bool) (line : Nat) :
    List Token → Option MethodDecl × List Token
  | [] => (none, [])
  | t :: rest =>
    if t.isPunct .parenOpen then
      let group := Brackets.group 0 rest
      let body := readBody (afterType group.2)
      (some ⟨name, isPublic, isStatic, (Brackets.items group.1).length, body.1, line⟩, body.2)
    else (none, t :: rest)

theorem readFrom_suffix (name : String) (isPublic isStatic : Bool) (line : Nat)
    (ts : List Token) : (readFrom name isPublic isStatic line ts).2 <:+ ts := by
  unfold readFrom
  split
  · exact List.suffix_refl []
  · split
    · exact ((readBody_suffix _).trans (afterType_suffix _)).trans
        ((Brackets.group_suffix 0 _).trans (List.suffix_cons _ _))
    · exact List.suffix_refl _

/-- A method whose `function` keyword, on the given line, stands before `ts`, and the tokens after
the method.  Without a name and parameters there is none. -/
def read (isPublic isStatic : Bool) (line : Nat) (ts : List Token) :
    Option MethodDecl × List Token :=
  match afterReference ts with
  | [] => (none, [])
  | t :: rest =>
    match t.name? with
    | none => (none, rest)
    | some name => readFrom name isPublic isStatic line rest

theorem read_suffix (isPublic isStatic : Bool) (line : Nat) (ts : List Token) :
    (read isPublic isStatic line ts).2 <:+ ts := by
  have hreference := afterReference_suffix ts
  unfold read
  split
  · exact List.nil_suffix
  · rename_i t rest heq
    have htail : rest <:+ ts := (List.suffix_cons t rest).trans (heq ▸ hreference)
    split
    · exact htail
    · exact (readFrom_suffix _ _ _ _ _).trans htail

theorem read_snd_length_le (isPublic isStatic : Bool) (line : Nat) (ts : List Token) :
    (read isPublic isStatic line ts).2.length ≤ ts.length :=
  (read_suffix isPublic isStatic line ts).length_le

end MethodDecl

/-- The cases and methods of a body, in order. -/
structure Members where
  cases : List CaseDecl
  methods : List MethodDecl

namespace Members

def none : Members := ⟨[], []⟩

def addCase (c : CaseDecl) (m : Members) : Members := { m with cases := c :: m.cases }

def addMethod (d : Option MethodDecl) (m : Members) : Members :=
  { m with methods := d.toList ++ m.methods }

/-- The members among `ts`.  The documentation and the modifiers are those read so far for the
member to come; a modifier keeps the documentation, and what is not understood drops it. -/
def read (ctx : Context) (doc : Option String) (isPublic isStatic : Bool) (ts : List Token) :
    Members :=
  match ts with
  | [] => none
  | t :: rest =>
    match t.kind with
    | .docComment raw => read ctx (DocComment.text? raw) isPublic isStatic rest
    | .punct .attributeOpen =>
      have := Brackets.group_snd_length_le 0 rest
      read ctx doc isPublic isStatic (Brackets.group 0 rest).2
    | .name word =>
      match word.toLower with
      | "case" =>
        have := Brackets.statement_snd_length_le 0 rest
        addCase (CaseDecl.ofTokens ctx doc (Brackets.statement 0 rest).1)
          (read ctx .none true false (Brackets.statement 0 rest).2)
      | "const" | "use" =>
        have := Brackets.statement_snd_length_le 0 rest
        read ctx .none true false (Brackets.statement 0 rest).2
      | "function" =>
        have := MethodDecl.read_snd_length_le isPublic isStatic t.line rest
        addMethod (MethodDecl.read isPublic isStatic t.line rest).1
          (read ctx .none true false (MethodDecl.read isPublic isStatic t.line rest).2)
      | "public" => read ctx doc true isStatic rest
      | "private" | "protected" => read ctx doc false isStatic rest
      | "static" => read ctx doc isPublic true rest
      | "final" | "abstract" => read ctx doc isPublic isStatic rest
      | _ => read ctx .none isPublic isStatic rest
    | _ => read ctx .none isPublic isStatic rest
termination_by ts.length
decreasing_by all_goals (simp_all only [List.length_cons]; omega)

end Members

end FrontendSync.Php
