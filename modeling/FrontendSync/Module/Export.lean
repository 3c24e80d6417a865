import FrontendSync.Enum.Record
import FrontendSync.Module.Strip
import FrontendSync.Module.Token
import FrontendSync.Number.Reader

/-!
# Exports of a module

The constants a module exports, with their entries: `export const Name = ...` with an object or
an array whose values are literals or references.  Statements of any other form are passed over.
-/

namespace FrontendSync.Module

open EnumRecord (Shape)

/-- A value in a module. -/
inductive Value where
  | string (text : String)
  /-- A number by the text it is generated with. -/
  | number (text : String)
  | bool (b : Bool)
  | null
  /-- Names joined with dots. -/
  | reference (path : String)
  /-- Anything else, by its tokens. -/
  | other (text : String)
deriving DecidableEq, Repr

namespace Value

def ofNumber (text : String) : Value :=
  match Decimal.int? text.toList with
  | some n => .number (Decimal.ofInt n)
  | none =>
    match Binary64.ofText? text.toList with
    | some x => .number x.literal
    | none => .other text

def text : Value → String
  | string text => quote text
  | number text => text
  | bool true => "true"
  | bool false => "false"
  | null => "null"
  | reference path => path
  | other text => text

end Value

structure Export where
  name : String
  shape : Shape
  entries : List (String × Value)
deriving DecidableEq, Repr

namespace Export

/-- What is left of tokens of which at least one is used. -/
def IsRest (rest ts : List Token) : Prop := ∃ t us, ts = t :: us ∧ rest <:+ us

namespace IsRest

variable {rest ts : List Token}

theorem of_suffix (t : Token) (h : rest <:+ ts) : IsRest rest (t :: ts) := ⟨t, ts, rfl, h⟩

theorem suffix (h : IsRest rest ts) : rest <:+ ts := by
  obtain ⟨t, us, rfl, h⟩ := h
  exact h.trans (List.suffix_cons t us)

theorem length_lt (h : IsRest rest ts) : rest.length < ts.length := by
  obtain ⟨t, us, rfl, h⟩ := h
  exact Nat.lt_succ_of_le h.length_le

end IsRest

/-- The names after a word that is followed by dots. -/
def dotted (path : String) : List Token → String × List Token
  | .mark '.' :: .word name :: ts => dotted (path ++ "." ++ name) ts
  | ts => (path, ts)

theorem dotted_suffix (path : String) (ts : List Token) : (dotted path ts).2 <:+ ts := by
  fun_induction dotted path ts with
  | case1 path name ts ih => exact ih.trans ⟨[.mark '.', .word name], rfl⟩
  | case2 => exact List.suffix_refl _

/-- The tokens up to the bracket that closes a group, and those after it; only brackets of the
same kind are counted. -/
def nested? (opening closing : Char) : Nat → List Token → Option (List Token × List Token)
  | _, [] => none
  | depth, t :: ts =>
    if t = .mark opening then
      (nested? opening closing (depth + 1) ts).map fun (inside, rest) ↦ (t :: inside, rest)
    else if t = .mark closing then
      match depth with
      | 0 => some ([t], ts)
      | depth + 1 =>
        (nested? opening closing depth ts).map fun (inside, rest) ↦ (t :: inside, rest)
    else (nested? opening closing depth ts).map fun (inside, rest) ↦ (t :: inside, rest)

theorem nested?_isRest {opening closing : Char} {depth : Nat} {ts : List Token}
    {r : List Token × List Token} (h : nested? opening closing depth ts = some r) :
    IsRest r.2 ts := by
  fun_induction nested? opening closing depth ts generalizing r with
  | case1 => simp at h
  | case3 =>
    obtain rfl := Option.some.inj h
    exact .of_suffix _ (List.suffix_refl _)
  | case2 _ _ ih | case4 _ _ _ ih | case5 _ _ _ _ _ ih =>
    obtain ⟨a, ha, rfl⟩ := Option.map_eq_some_iff.mp h
    exact .of_suffix _ (ih ha).suffix

def tokenText : Token → String
  | .word text => text
  | .number text => text
  | .string text => quote text
  | .mark c => c.toString

def other (ts : List Token) : Value := .other (" ".intercalate (ts.map tokenText))

/-- A word on its own or the start of a reference. -/
def wordValue (word : String) (ts : List Token) : Value × List Token :=
  match word with
  | "true" => (.bool true, ts)
  | "false" => (.bool false, ts)
  | "null" => (.null, ts)
  | _ => (.reference (dotted word ts).1, (dotted word ts).2)

theorem wordValue_suffix (word : String) (ts : List Token) : (wordValue word ts).2 <:+ ts := by
  unfold wordValue
  split
  · exact List.suffix_refl _
  · exact List.suffix_refl _
  · exact List.suffix_refl _
  · exact dotted_suffix word ts

/-- The value at the start of the tokens, and the tokens after it. -/
def value? : List Token → Option (Value × List Token)
  | .string text :: ts => some (.string text, ts)
  | .number text :: ts => some (Value.ofNumber text, ts)
  | .mark '-' :: .number text :: ts => some (Value.ofNumber ("-" ++ text), ts)
  | .word word :: ts => some (wordValue word ts)
  | .mark '{' :: ts =>
    (nested? '{' '}' 0 ts).map fun (inside, rest) ↦ (other (.mark '{' :: inside), rest)
  | .mark '[' :: ts =>
    (nested? '[' ']' 0 ts).map fun (inside, rest) ↦ (other (.mark '[' :: inside), rest)
  | _ => none

theorem value?_isRest {ts : List Token} {r : Value × List Token} (h : value? ts = some r) :
    IsRest r.2 ts := by
  unfold value? at h
  split at h
  · obtain rfl := Option.some.inj h
    exact .of_suffix _ (List.suffix_refl _)
  · obtain rfl := Option.some.inj h
    exact .of_suffix _ (List.suffix_refl _)
  · obtain rfl := Option.some.inj h
    exact .of_suffix _ (List.suffix_cons _ _)
  · obtain rfl := Option.some.inj h
    exact .of_suffix _ (wordValue_suffix _ _)
  · obtain ⟨a, ha, rfl⟩ := Option.map_eq_some_iff.mp h
    exact .of_suffix _ (nested?_isRest ha).suffix
  · obtain ⟨a, ha, rfl⟩ := Option.map_eq_some_iff.mp h
    exact .of_suffix _ (nested?_isRest ha).suffix
  · simp at h

theorem value?_snd_length_lt {ts : List Token} {r : Value × List Token}
    (h : value? ts = some r) : r.2.length < ts.length := (value?_isRest h).length_lt

/-- The tokens after an entry: a comma is passed over, and without one the closing bracket has to
come next. -/
def afterEntry? (closing : Char) (ts : List Token) : Option (List Token) :=
  match ts with
  | .mark c :: rest => if c = ',' then some rest else if c = closing then some ts else none
  | _ => none

theorem afterEntry?_suffix {closing : Char} {ts rest : List Token}
    (h : afterEntry? closing ts = some rest) : rest <:+ ts := by
  unfold afterEntry? at h
  split at h
  · split at h
    · obtain rfl := Option.some.inj h
      exact List.suffix_cons _ _
    · split at h
      · obtain rfl := Option.some.inj h
        exact List.suffix_refl _
      · simp at h
  · simp at h

theorem afterEntry?_length_le {closing : Char} {ts rest : List Token}
    (h : afterEntry? closing ts = some rest) : rest.length ≤ ts.length :=
  (afterEntry?_suffix h).length_le

def keyText? : Token → Option String
  | .word text => some text
  | .string text => some text
  | .number text => some text
  | .mark _ => none

/-- The members of an object after its opening brace, and the tokens after the closing one. -/
def members? (ts : List Token) : Option (List (String × Value) × List Token) :=
  match ts with
  | .mark '}' :: rest => some ([], rest)
  | t :: .mark ':' :: rest =>
    match keyText? t, _h : value? rest with
    | some key, some r =>
      match _h' : afterEntry? '}' r.2 with
      | some after => (members? after).map fun (ms, rest) ↦ ((key, r.1) :: ms, rest)
      | none => none
    | _, _ => none
  | _ => none
termination_by ts.length
decreasing_by
  have := value?_snd_length_lt _h
  have := afterEntry?_length_le _h'
  simp only [List.length_cons]; omega

/-- The items of an array after its opening bracket, with their positions from `n` on. -/
def items? (n : Nat) (ts : List Token) : Option (List (String × Value) × List Token) :=
  match ts with
  | .mark ']' :: rest => some ([], rest)
  | ts =>
    match _h : value? ts with
    | some r =>
      match _h' : afterEntry? ']' r.2 with
      | some after =>
        (items? (n + 1) after).map fun (ms, rest) ↦ ((Decimal.ofNat n, r.1) :: ms, rest)
      | none => none
    | none => none
termination_by ts.length
decreasing_by
  have := value?_snd_length_lt _h
  have := afterEntry?_length_le _h'
  omega

def afterAssertion : List Token → List Token
  | .word "as" :: .word "const" :: rest => rest
  | .word "as" :: rest => rest
  | ts => ts

def afterSemicolon : List Token → List Token
  | .mark ';' :: rest => rest
  | ts => ts

/-- The tokens after a constant: an assertion and a semicolon, both optional, end it. -/
def afterConstant (ts : List Token) : List Token := afterSemicolon (afterAssertion ts)

theorem afterAssertion_suffix (ts : List Token) : afterAssertion ts <:+ ts := by
  unfold afterAssertion
  split
  · exact (List.suffix_cons _ _).trans (List.suffix_cons _ _)
  · exact List.suffix_cons _ _
  · exact List.suffix_refl _

theorem afterSemicolon_suffix (ts : List Token) : afterSemicolon ts <:+ ts := by
  unfold afterSemicolon
  split
  · exact List.suffix_cons _ _
  · exact List.suffix_refl _

theorem afterConstant_suffix (ts : List Token) : afterConstant ts <:+ ts :=
  (afterSemicolon_suffix _).trans (afterAssertion_suffix ts)

theorem members?_suffix {ts : List Token} {r : List (String × Value) × List Token}
    (h : members? ts = some r) : r.2 <:+ ts := by
  fun_induction members? ts generalizing r with
  | case1 =>
    obtain rfl := Option.some.inj h
    exact List.suffix_cons _ _
  | case2 t rest _ _ _ hv _ _ ha ih =>
    obtain ⟨a, hm, rfl⟩ := Option.map_eq_some_iff.mp h
    have hvalue := (afterEntry?_suffix ha).trans (value?_isRest hv).suffix
    exact ((ih hm).trans hvalue).trans ((List.suffix_cons _ _).trans (List.suffix_cons _ _))
  | case3 | case4 | case5 => simp at h

theorem items?_suffix {n : Nat} {ts : List Token} {r : List (String × Value) × List Token}
    (h : items? n ts = some r) : r.2 <:+ ts := by
  fun_induction items? n ts generalizing r with
  | case1 =>
    obtain rfl := Option.some.inj h
    exact List.suffix_cons _ _
  | case2 n ts _ r' hv after ha ih =>
    obtain ⟨a, hm, rfl⟩ := Option.map_eq_some_iff.mp h
    exact (ih hm).trans ((afterEntry?_suffix ha).trans (value?_isRest hv).suffix)
  | case3 | case4 => simp at h

/-- A constant from its name on, and the tokens after it. -/
def constant? : List Token → Option (Export × List Token)
  | .word name :: .mark '=' :: .mark '{' :: ts =>
    (members? ts).map fun (ms, rest) ↦ (⟨name, .record, ms⟩, afterConstant rest)
  | .word name :: .mark '=' :: .mark '[' :: ts =>
    (items? 0 ts).map fun (ms, rest) ↦ (⟨name, .array, ms⟩, afterConstant rest)
  | _ => none

theorem constant?_isRest {ts : List Token} {r : Export × List Token} (h : constant? ts = some r) :
    IsRest r.2 ts := by
  have htwo (a b : Token) (us : List Token) : us <:+ a :: b :: us := ⟨[a, b], rfl⟩
  unfold constant? at h
  split at h
  · obtain ⟨a, ha, rfl⟩ := Option.map_eq_some_iff.mp h
    exact .of_suffix _ (((afterConstant_suffix _).trans (members?_suffix ha)).trans (htwo _ _ _))
  · obtain ⟨a, ha, rfl⟩ := Option.map_eq_some_iff.mp h
    exact .of_suffix _ (((afterConstant_suffix _).trans (items?_suffix ha)).trans (htwo _ _ _))
  · simp at h

theorem constant?_snd_length_lt {ts : List Token} {r : Export × List Token}
    (h : constant? ts = some r) : r.2.length < ts.length := (constant?_isRest h).length_lt

def opens (c : Char) : Bool := c == '{' || c == '[' || c == '('

def closes (c : Char) : Bool := c == '}' || c == ']' || c == ')'

/-- The tokens after a statement: behind its semicolon, or from the next `export` on. -/
def afterStatement : Nat → List Token → List Token
  | _, [] => []
  | depth, .mark c :: ts =>
    if opens c then afterStatement (depth + 1) ts
    else if closes c then afterStatement (depth - 1) ts
    else if c = ';' ∧ depth = 0 then ts
    else afterStatement depth ts
  | depth, .word w :: ts =>
    if w = "export" ∧ depth = 0 then .word w :: ts else afterStatement depth ts
  | depth, _ :: ts => afterStatement depth ts

theorem afterStatement_suffix (depth : Nat) (ts : List Token) : afterStatement depth ts <:+ ts := by
  fun_induction afterStatement depth ts with
  | case1 => exact List.suffix_refl _
  | case4 => exact List.suffix_cons _ _
  | case6 => exact List.suffix_refl _
  | _ =>
    rename_i ih
    exact ih.trans (List.suffix_cons _ _)

theorem afterStatement_length_le (depth : Nat) (ts : List Token) :
    (afterStatement depth ts).length ≤ ts.length := (afterStatement_suffix depth ts).length_le

/-- The exports among the tokens of a module, in order. -/
def all (ts : List Token) : List Export :=
  match ts with
  | [] => []
  | .word "export" :: .word "const" :: rest =>
    match _h : constant? rest with
    | some r =>
      have := constant?_snd_length_lt _h
      r.1 :: all r.2
    | none =>
      have := afterStatement_length_le 0 rest
      all (afterStatement 0 rest)
  | .word "export" :: rest =>
    have := afterStatement_length_le 0 rest
    all (afterStatement 0 rest)
  | _ :: rest => all rest
termination_by ts.length
decreasing_by all_goals simp; try omega

/-- The exports of the text of a module. -/
def ofSource (source : String) : List Export := all (Token.all (stripComments source).toList)

end Export

end FrontendSync.Module
