/-!
# Decimal digits

Natural numbers and integers in decimal, and the value of a run of digits in any base up to
sixteen.
-/

namespace FrontendSync.Decimal

/-- The decimal digits of a number, without leading zeros. -/
def digits (n : Nat) : List Char := Nat.toDigits 10 n

def intDigits : Int → List Char
  | .ofNat n => digits n
  | .negSucc n => '-' :: digits (n + 1)

/-- An integer in decimal, with a minus sign when it is negative. -/
def ofInt (n : Int) : String := String.ofList (intDigits n)

def ofNat (n : Nat) : String := String.ofList (digits n)

/-- The value of one digit: `0` to `9`, then `a` to `f` in either case. -/
def digitValue (c : Char) : Nat :=
  if '0' ≤ c ∧ c ≤ '9' then c.toNat - '0'.toNat
  else if 'a' ≤ c ∧ c ≤ 'f' then c.toNat - 'a'.toNat + 10
  else if 'A' ≤ c ∧ c ≤ 'F' then c.toNat - 'A'.toNat + 10
  else 0

def isHexDigit (c : Char) : Bool :=
  c.isDigit || ('a' ≤ c && c ≤ 'f') || ('A' ≤ c && c ≤ 'F')

/-- The number a run of digits stands for, most significant first. -/
def value (base : Nat) (ds : List Char) : Nat :=
  ds.foldl (fun n c ↦ base * n + digitValue c) 0

def minInt : Int := -0x8000000000000000

def maxInt : Int := 0x7FFFFFFFFFFFFFFF

/-- Whether an integer fits a signed word of 64 bits. -/
def fits (n : Int) : Bool := minInt ≤ n && n ≤ maxInt

/-- The signed word of 64 bits that an integer wraps to. -/
def wrap (n : Int) : Int := n.bmod 0x10000000000000000

def unsigned? (ds : List Char) : Option Nat :=
  if ds ≠ [] ∧ ds.all Char.isDigit then some (value 10 ds) else none

/-- The 64-bit integer written as digits after an optional sign. -/
def int? : List Char → Option Int
  | '-' :: ds => (unsigned? ds).map (fun n ↦ -(n : Int)) |>.filter fits
  | '+' :: ds => (unsigned? ds).map Int.ofNat |>.filter fits
  | ds => (unsigned? ds).map Int.ofNat |>.filter fits

/-- The 64-bit integer whose own decimal text is `s`. -/
def canonicalInt? (s : List Char) : Option Int :=
  (int? s).filter (intDigits · == s)

end FrontendSync.Decimal
