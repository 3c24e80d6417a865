import FrontendSync.Php.Token

/-!
# Brackets

The tokens inside a group of brackets, pieces between commas, and statements up to a semicolon.
Brackets are counted and not matched by kind.
-/

namespace FrontendSync.Php.Brackets

/-- The tokens up to the bracket that closes the group, and the tokens after that bracket; the
group runs to the end if nothing closes it.  `depth` groups are open inside it. -/
def group : Nat → List Token → List Token × List Token
  | _, [] => ([], [])
  | depth, t :: ts =>
    if t.opens then
      let (inside, rest) := group (depth + 1) ts
      (t :: inside, rest)
    else if t.closes then
      match depth with
      | 0 => ([], ts)
      | depth + 1 =>
        let (inside, rest) := group depth ts
        (t :: inside, rest)
    else
      let (inside, rest) := group depth ts
      (t :: inside, rest)

theorem group_suffix (depth : Nat) (ts : List Token) : (group depth ts).2 <:+ ts := by
  fun_induction group depth ts with
  | case1 => exact List.suffix_refl []
  | case3 t ts => exact List.suffix_cons t ts
  | case2 _ t _ _ _ _ heq ih | case4 t _ _ _ _ _ _ heq ih | case5 _ t _ _ _ _ _ heq ih =>
    rw [heq] at ih
    exact ih.trans (List.suffix_cons t _)

theorem group_snd_length_le (depth : Nat) (ts : List Token) :
    (group depth ts).2.length ≤ ts.length := (group_suffix depth ts).length_le

/-- The pieces between the commas outside of inner brackets. -/
def commaPieces : Nat → List Token → List (List Token)
  | _, [] => [[]]
  | depth, t :: ts =>
    if t.isPunct .comma && depth == 0 then [] :: commaPieces 0 ts
    else
      let depth := if t.opens then depth + 1 else if t.closes then depth - 1 else depth
      match commaPieces depth ts with
      | [] => [[t]]
      | piece :: more => (t :: piece) :: more

/-- The items of a list separated by commas: its pieces that are not empty. -/
def items (ts : List Token) : List (List Token) := (commaPieces 0 ts).filter (· ≠ [])

/-- An attribute's opening bracket is none of a statement's. -/
def opensInStatement (t : Token) : Bool := t.opens && !t.isPunct .attributeOpen

/-- The tokens before the semicolon that ends a statement, and those after it. -/
def statement : Nat → List Token → List Token × List Token
  | _, [] => ([], [])
  | depth, t :: ts =>
    if t.isPunct .semicolon && depth == 0 then ([], ts)
    else
      let depth :=
        if opensInStatement t then depth + 1 else if t.closes then depth - 1 else depth
      let (inside, rest) := statement depth ts
      (t :: inside, rest)

theorem statement_suffix (depth : Nat) (ts : List Token) : (statement depth ts).2 <:+ ts := by
  fun_induction statement depth ts with
  | case1 => exact List.suffix_refl []
  | case2 _ t ts => exact List.suffix_cons t ts
  | case3 _ t _ _ _ _ _ heq ih =>
    rw [heq] at ih
    exact ih.trans (List.suffix_cons t _)

theorem statement_snd_length_le (depth : Nat) (ts : List Token) :
    (statement depth ts).2.length ≤ ts.length := (statement_suffix depth ts).length_le

/-- The tokens before the first token with `p`, and those after it. -/
def splitAt (p : Token → Bool) (ts : List Token) : List Token × List Token :=
  let before := ts.takeWhile (!p ·)
  (before, ts.drop (before.length + 1))

theorem splitAt_suffix (p : Token → Bool) (ts : List Token) : (splitAt p ts).2 <:+ ts :=
  List.drop_suffix _ _

theorem splitAt_snd_length_le (p : Token → Bool) (ts : List Token) :
    (splitAt p ts).2.length ≤ ts.length := (splitAt_suffix p ts).length_le

end FrontendSync.Php.Brackets
