import FrontendSync.Module.Literal
import FrontendSync.Text.Letter
import FrontendSync.Text.Blank

/-!
# Module tokens

The words, strings, numbers and single marks of a module without comments.
-/

namespace FrontendSync.Module

inductive Token where
  | word (text : String)
  | string (text : String)
  | number (text : String)
  | mark (c : Char)
deriving DecidableEq, Repr

namespace Token

def isWordStart (c : Char) : Bool := Text.isLetter c || c == '_' || c == '$'

def isWordChar (c : Char) : Bool := Text.isLetterOrNumeral c || c == '_' || c == '$'

def isNumberChar (c : Char) : Bool := c.isAlphanum || c == '.' || c == '_'

/-- The character with a number in hexadecimal digits, which may have a plus sign. -/
def codePoint? (digits : List Char) : Option Char :=
  let ds := match digits with
    | '+' :: ds => ds
    | ds => ds
  if ds ≠ [] ∧ ds.all Decimal.isHexDigit then
    let n := Decimal.value 16 ds
    if n.isValidChar then some (Char.ofNat n) else none
  else none

/-- The character an escape of one letter stands for. -/
def escaped : Char → Char
  | 'n' => '\n'
  | 'r' => '\r'
  | 't' => '\t'
  | c => c

def push (c : Char) (r : List Char × List Char) : List Char × List Char := (c :: r.1, r.2)

/-- The text of a string after its opening quote, and what follows the closing one. -/
def unquote (q : Char) : List Char → List Char × List Char
  | [] => ([], [])
  | '\\' :: 'u' :: a :: b :: c :: d :: s =>
    match codePoint? [a, b, c, d] with
    | some x => push x (unquote q s)
    | none => push 'u' (unquote q (a :: b :: c :: d :: s))
  | '\\' :: 'u' :: s =>
    match codePoint? s with
    | some x => ([x], [])
    | none => push 'u' (unquote q s)
  | '\\' :: c :: s => push (escaped c) (unquote q s)
  | ['\\'] => ([], [])
  | c :: s => if c = q then ([], s) else push c (unquote q s)

theorem unquote_snd_length_le (q : Char) (s : List Char) :
    (unquote q s).2.length ≤ s.length := by
  fun_induction unquote q s <;> simp_all [push] <;> omega

def isQuote (c : Char) : Bool := c == '"' || c == '\'' || c == '`'

/-- The tokens of a text without comments. -/
def all (s : List Char) : List Token :=
  match s with
  | [] => []
  | c :: rest =>
    if Text.isBlank c then all rest
    else if isQuote c then
      have := unquote_snd_length_le c rest
      .string (String.ofList (unquote c rest).1) :: all (unquote c rest).2
    else if c.isDigit || c == '.' && rest.head?.any Char.isDigit then
      let more := rest.takeWhile isNumberChar
      .number (String.ofList ((c :: more).filter (· ≠ '_'))) :: all (rest.drop more.length)
    else if isWordStart c then
      let more := rest.takeWhile isWordChar
      .word (String.ofList (c :: more)) :: all (rest.drop more.length)
    else .mark c :: all rest
termination_by s.length
decreasing_by all_goals simp; try omega

end Token

end FrontendSync.Module
