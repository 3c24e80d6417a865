import FrontendSync.Number.Binary64

/-!
# Reading binary numbers

A number is a sign, digits with an optional point among or beside them and an optional exponent,
or the name of an infinity or of no number in any letter case.  It reads as the nearest binary
number.
-/

namespace FrontendSync.Binary64

/-- The number nearest to `m * 10 ^ e`, where exponents that can only overflow or vanish are
settled first; `width` is the number of digits of `m`. -/
def ofDigits (negative : Bool) (m width : Nat) (e : Int) : Binary64 :=
  if m = 0 then .finite negative 0 minExponent
  else if 400 < e then .infinite negative
  else if e + width < -400 then .finite negative 0 minExponent
  else ofScientific negative m e

/-- A signed exponent, which has at least one digit. -/
def exponent? (s : List Char) : Option Int :=
  match s with
  | '-' :: ds => (Decimal.unsigned? ds).map fun n ↦ -(n : Int)
  | '+' :: ds => (Decimal.unsigned? ds).map Int.ofNat
  | ds => (Decimal.unsigned? ds).map Int.ofNat

/-- An unsigned number with a digit before or after the point. -/
def unsigned? (negative : Bool) (s : List Char) : Option Binary64 :=
  let whole := s.takeWhile Char.isDigit
  let s := s.dropWhile Char.isDigit
  let (fraction, s) := match s with
    | '.' :: s => (s.takeWhile Char.isDigit, s.dropWhile Char.isDigit)
    | s => ([], s)
  let ds := whole ++ fraction
  if ds = [] then none
  else
    let finish (e : Int) : Binary64 :=
      let significant := ds.dropWhile (· = '0')
      ofDigits negative (Decimal.value 10 significant) significant.length (e - fraction.length)
    match s with
    | [] => some (finish 0)
    | c :: s => if c = 'e' ∨ c = 'E' then (exponent? s).map finish else none

def magnitude? (negative : Bool) (s : List Char) : Option Binary64 :=
  let name := s.map Char.toLower
  if name = "inf".toList ∨ name = "infinity".toList then some (.infinite negative)
  else if name = "nan".toList then some .nan
  else unsigned? negative s

def ofText? : List Char → Option Binary64
  | '-' :: s => magnitude? true s
  | '+' :: s => magnitude? false s
  | s => magnitude? false s

end FrontendSync.Binary64
