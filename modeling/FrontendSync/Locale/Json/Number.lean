import FrontendSync.Locale.Tree

/-!
# JSON numbers

A number without fraction and exponent is an integer if it fits 64 bits and is not a negative
zero.  Any other number takes up its digits as long as they fit a word of 64 bits, and is that
word times or over one power of ten.
-/

namespace FrontendSync.Json

/-- The first number that needs more than 64 bits. -/
def wordLimit : Nat := 0x10000000000000000

/-- Digits are added to a word from left to right; the first that does not fit and all after it
are left over. -/
def absorb (word : Nat) : List Char → Nat × List Char
  | [] => (word, [])
  | d :: ds =>
    let next := word * 10 + Decimal.digitValue d
    if next < wordLimit then absorb next ds else (word, d :: ds)

def powerOfTen (n : Nat) : Binary64 := Binary64.ofScientific false 1 n

/-- A magnitude times a power of ten; none if it is too large.  Powers below the smallest are
taken in steps. -/
def scaled (x : Binary64) (e : Int) : Option Binary64 :=
  if 308 < e then if x.isZero then some x else none
  else if 0 ≤ e then
    let y := x.times (powerOfTen e.toNat)
    if y.isInfinite then none else some y
  else if -308 ≤ e then some (x.dividedBy (powerOfTen (-e).toNat))
  else if x.isZero then some x
  else scaled (x.dividedBy (powerOfTen 308)) (e + 308)
termination_by (-e).toNat
decreasing_by omega

/-- The parts of a number: digits before and after the point, and the exponent if there is one. -/
structure Parts where
  negative : Bool
  whole : List Char
  fraction : Option (List Char)
  exponent : Option Int

namespace Parts

def signed (negative : Bool) (x : Binary64) : Binary64 := if negative then -x else x

def float? (p : Parts) : Option Binary64 :=
  let (word, left) := absorb 0 p.whole
  let fraction := p.fraction.getD []
  let (word, unread) := absorb word fraction
  let taken : Nat := fraction.length - unread.length
  let e : Int := (left.length : Int) - taken + p.exponent.getD 0
  (scaled (Binary64.ofNat word) e).map (signed p.negative)

def tree? (p : Parts) : Option Tree :=
  if p.fraction.isNone && p.exponent.isNone then
    let n : Int := Decimal.value 10 p.whole
    let n := if p.negative then -n else n
    if Decimal.fits n && !(p.negative && n == 0) then some (.int n) else p.float?.map .float
  else p.float?.map .float

end Parts

/-- An exponent after its letter, with the sign and at least one digit. -/
def exponent? (s : List Char) : Option (Int × List Char) :=
  let (negative, s) := match s with
    | '-' :: s => (true, s)
    | '+' :: s => (false, s)
    | s => (false, s)
  let ds := s.takeWhile Char.isDigit
  if ds = [] then none
  else
    let n : Int := Decimal.value 10 ds
    some (if negative then -n else n, s.drop ds.length)

/-- The fraction after a point, if there is a point; it has at least one digit. -/
def fraction? : List Char → Option (Option (List Char) × List Char)
  | '.' :: s =>
    let ds := s.takeWhile Char.isDigit
    if ds = [] then none else some (some ds, s.drop ds.length)
  | s => some (none, s)

def exponentPart? : List Char → Option (Option Int × List Char)
  | [] => some (none, [])
  | c :: s =>
    if c = 'e' ∨ c = 'E' then (exponent? s).map fun (e, s) ↦ (some e, s) else some (none, c :: s)

/-- A number at the start of a text, and what follows it.  A zero is not followed by more
digits. -/
def number? (s : List Char) : Option (Tree × List Char) := do
  let (negative, s) := match s with
    | '-' :: s => (true, s)
    | s => (false, s)
  let whole := s.takeWhile Char.isDigit
  if whole = [] ∨ (whole.head? = some '0' ∧ whole ≠ ['0']) then none
  else
    let (fraction, s) ← fraction? (s.drop whole.length)
    let (exponent, s) ← exponentPart? s
    let t ← (Parts.mk negative whole fraction exponent).tree?
    return (t, s)

end FrontendSync.Json
