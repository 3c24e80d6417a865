import FrontendSync.Number.Decimal

/-!
# Binary floating point

Numbers of the binary interchange format of 64 bits, by what they stand for: a finite number is
`mantissa * 2 ^ exponent` with a mantissa below `2 ^ 53` and an exponent from `-1074` to `971`,
and the mantissa is at least `2 ^ 52` unless the exponent is the smallest one.  Every operation
rounds its exact result to the nearest number, a tie going to the even mantissa.
-/

namespace FrontendSync

inductive Binary64 where
  | nan
  | infinite (negative : Bool)
  | finite (negative : Bool) (mantissa : Nat) (exponent : Int)
deriving DecidableEq, Repr, Inhabited

namespace Binary64

/-- A quotient of natural numbers rounded to the nearest one, ties to the even one. -/
def roundHalfEven (num den : Nat) : Nat :=
  let q := num / den
  let r := num % den
  if 2 * r < den then q
  else if den < 2 * r then q + 1
  else if q % 2 = 0 then q else q + 1

def minExponent : Int := -1074

def maxExponent : Int := 971

/-- The least mantissa above the smallest exponent, `2 ^ 52`. -/
def leastNormal : Nat := 0x10000000000000

/-- The quotient `num / den` in units of `2 ^ e`, again as a quotient. -/
def inUnits (num den : Nat) (e : Int) : Nat × Nat :=
  if 0 ≤ e then (num, den * Nat.pow 2 e.toNat) else (num * Nat.pow 2 (-e).toNat, den)

/-- The exponent that leaves a quotient 53 bits before the point, or the smallest exponent. -/
def exponentFor (num den : Nat) : Int :=
  let guess : Int := (num.log2 : Int) - den.log2 - 52
  let (n, d) := inUnits num den guess
  max minExponent (if n < d * leastNormal then guess - 1 else guess)

/-- The number nearest to `num / den`. -/
def ofRatio (negative : Bool) (num den : Nat) : Binary64 :=
  if num = 0 then .finite negative 0 minExponent
  else
    let e := exponentFor num den
    let (n, d) := inUnits num den e
    let m := roundHalfEven n d
    let (m, e) := if m = 2 * leastNormal then (leastNormal, e + 1) else (m, e)
    if maxExponent < e then .infinite negative else .finite negative m e

/-- The number nearest to `m * 10 ^ e`. -/
def ofScientific (negative : Bool) (m : Nat) (e : Int) : Binary64 :=
  if 0 ≤ e then ofRatio negative (m * Nat.pow 10 e.toNat) 1
  else ofRatio negative m (Nat.pow 10 (-e).toNat)

def ofNat (n : Nat) : Binary64 := ofRatio false n 1

def zero : Binary64 := .finite false 0 minExponent

/-- The magnitude of a finite number as a quotient of natural numbers. -/
def ratio (mantissa : Nat) (exponent : Int) : Nat × Nat :=
  if 0 ≤ exponent then (mantissa * Nat.pow 2 exponent.toNat, 1)
  else (mantissa, Nat.pow 2 (-exponent).toNat)

def neg : Binary64 → Binary64
  | .nan => .nan
  | .infinite s => .infinite (!s)
  | .finite s m e => .finite (!s) m e

instance : Neg Binary64 := ⟨neg⟩

def isInfinite : Binary64 → Bool
  | .infinite _ => true
  | _ => false

def isZero : Binary64 → Bool
  | .finite _ 0 _ => true
  | _ => false

/-- The product of two finite numbers; of anything else it is no number. -/
def times : Binary64 → Binary64 → Binary64
  | .finite s m e, .finite t n f =>
    let (a, b) := ratio m e
    let (c, d) := ratio n f
    ofRatio (s != t) (a * c) (b * d)
  | _, _ => .nan

/-- The quotient of two finite numbers, the second not zero. -/
def dividedBy : Binary64 → Binary64 → Binary64
  | .finite s m e, .finite t n f =>
    let (a, b) := ratio m e
    let (c, d) := ratio n f
    if c = 0 then .nan else ofRatio (s != t) (a * d) (b * c)
  | _, _ => .nan

/-- The integer part of a finite number, towards zero. -/
def truncate (negative : Bool) (mantissa : Nat) (exponent : Int) : Int :=
  let (n, d) := ratio mantissa exponent
  if negative then -((n / d : Nat) : Int) else ((n / d : Nat) : Int)

/-- The integer part as a signed word of 64 bits: out of range it stops at the end of the
range, and for no number it is zero. -/
def toInt64 : Binary64 → Int
  | .nan => 0
  | .infinite s => if s then Decimal.minInt else Decimal.maxInt
  | .finite s m e => max Decimal.minInt (min Decimal.maxInt (truncate s m e))

/-- Whether a finite number has no fraction. -/
def isIntegral : Binary64 → Bool
  | .finite _ m e => let (n, d) := ratio m e; n % d == 0
  | _ => false

end Binary64

end FrontendSync
