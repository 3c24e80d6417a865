import FrontendSync.Number.Reader
import FrontendSync.Settings.Document
import FrontendSync.Text.Lines

/-!
# TOML scalars

Values without quotes or brackets: truth values, integers in four bases, floats, dates and times.
-/

namespace FrontendSync.Toml

/-- A digit of a base. -/
def isDigitOf (base : Nat) (c : Char) : Bool :=
  Decimal.isHexDigit c && Decimal.digitValue c < base

/-- Digits without the underscores between them. -/
def digits? (base : Nat) (s : List Char) : Option (List Char) :=
  let runs := Text.pieces '_' s
  if runs.all fun run ↦ run ≠ [] && run.all (isDigitOf base) then some runs.flatten else none

/-- Decimal digits that start with a zero only if it is the only one. -/
def whole? (s : List Char) : Option (List Char) :=
  (digits? 10 s).filter fun ds ↦ ds.head? ≠ some '0' || ds.length = 1

/-- A sign, and what follows it. -/
def sign : List Char → List Char × List Char
  | '-' :: s => (['-'], s)
  | '+' :: s => ([], s)
  | s => ([], s)

def inBase? (base : Nat) (s : List Char) : Option Int :=
  (digits? base s).map fun ds ↦ (Decimal.value base ds : Int)

def int? (s : List Char) : Option Int :=
  let n := match s with
    | '0' :: 'x' :: s => inBase? 16 s
    | '0' :: 'o' :: s => inBase? 8 s
    | '0' :: 'b' :: s => inBase? 2 s
    | s => (whole? (sign s).2).map fun ds ↦
        if (sign s).1 = [] then (Decimal.value 10 ds : Int) else -(Decimal.value 10 ds : Int)
  n.filter Decimal.fits

/-- The plain digits of an exponent with its mark, or nothing. -/
def exponent? : List Char → Option (List Char)
  | [] => some []
  | _ :: s => (digits? 10 (sign s).2).map fun ds ↦ 'e' :: (sign s).1 ++ ds

/-- The plain digits of a fraction with its point, or nothing. -/
def fraction? : List Char → Option (List Char)
  | [] => some []
  | _ :: s => (digits? 10 s).map ('.' :: ·)

/-- A number with a fraction or an exponent, or the name of one. -/
def float? (s : List Char) : Option Binary64 :=
  let (negative, magnitude) := sign s
  if magnitude = "inf".toList ∨ magnitude = "nan".toList then
    Binary64.ofText? (negative ++ magnitude)
  else
    let isMark (c : Char) : Bool := c == 'e' || c == 'E'
    let mantissa := magnitude.takeWhile (!isMark ·)
    let tail := magnitude.dropWhile (!isMark ·)
    let point := mantissa.dropWhile (· ≠ '.')
    if point = [] ∧ tail = [] then none
    else do
      let whole ← whole? (mantissa.takeWhile (· ≠ '.'))
      let fraction ← fraction? point
      let exponent ← exponent? tail
      (Binary64.ofText? (negative ++ whole ++ fraction ++ exponent)).filter
        (· ≠ .infinite false)

/-- A number of the given width that is at least `low` and at most `high`. -/
def isCount (width low high : Nat) (s : List Char) : Bool :=
  s.length == width && s.all Char.isDigit && low ≤ Decimal.value 10 s
    && Decimal.value 10 s ≤ high

/-- The days of a month.  Every fourth year is a leap year, except the centuries that four does not
divide. -/
def daysIn (year month : Nat) : Nat :=
  if month = 2 then
    if year % 4 = 0 ∧ (year % 100 ≠ 0 ∨ year % 400 = 0) then 29 else 28
  else if month ∈ [4, 6, 9, 11] then 30 else 31

def isDate (s : List Char) : Bool :=
  match Text.pieces '-' s with
  | [y, m, d] =>
    isCount 4 0 9999 y && isCount 2 1 12 m
      && isCount 2 1 (daysIn (Decimal.value 10 y) (Decimal.value 10 m)) d
  | _ => false

/-- A time of day, with a fraction of the second or without. -/
def isTime (s : List Char) : Bool :=
  match Text.pieces ':' s with
  | [h, m, sec] =>
    isCount 2 0 23 h && isCount 2 0 59 m && isCount 2 0 60 (sec.take 2) &&
      match sec.drop 2 with
      | [] => true
      | '.' :: ds => ds ≠ [] && ds.all Char.isDigit
      | _ => false
  | _ => false

def isOffset (s : List Char) : Bool :=
  match s with
  | [] | ['Z'] | ['z'] => true
  | c :: s =>
    (c == '+' || c == '-') &&
      match Text.pieces ':' s with
      | [h, m] => isCount 2 0 23 h && isCount 2 0 59 m
      | _ => false

/-- A date, a time, or both with an offset or without. -/
def isMoment (s : List Char) : Bool :=
  let isSeparator (c : Char) : Bool := c == 'T' || c == 't' || c == ' '
  let isClock (c : Char) : Bool := c.isDigit || c == ':' || c == '.'
  match s.dropWhile (!isSeparator ·) with
  | [] => isDate s || isTime s
  | _ :: time =>
    isDate (s.takeWhile (!isSeparator ·)) && isTime (time.takeWhile isClock)
      && isOffset (time.dropWhile isClock)

/-- The value of a word. -/
def scalar? (s : List Char) : Option Document :=
  if s = "true".toList then some (.bool true)
  else if s = "false".toList then some (.bool false)
  else
    ((int? s).map Document.int).or (((float? s).map Document.float).or
      (if isMoment s then some (.date (String.ofList s)) else none))

/-- The characters of words. -/
def isWordChar (c : Char) : Bool :=
  c.isAlphanum || c == '_' || c == '+' || c == '-' || c == '.' || c == ':'

/-- The word at the start of a text, and what follows it.  A space may stand between a date and a
time. -/
def word (s : List Char) : List Char × List Char :=
  let first := s.takeWhile isWordChar
  let rest := s.dropWhile isWordChar
  match rest with
  | ' ' :: c :: more =>
    if isDate first && c.isDigit then
      (first ++ ' ' :: (c :: more).takeWhile isWordChar, (c :: more).dropWhile isWordChar)
    else (first, rest)
  | rest => (first, rest)

end FrontendSync.Toml
