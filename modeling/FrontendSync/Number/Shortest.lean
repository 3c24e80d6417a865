import FrontendSync.Number.Binary64

/-!
# Shortest decimals

The decimal with the fewest digits among those that round to a given binary number, and of
several such decimals the one nearest to it.  The search takes 1, 2, ... digits and looks at the
two neighbours of the number on the grid of that many digits.
-/

namespace FrontendSync.Binary64

/-- Which of two equally near decimals is taken. -/
inductive Tie where
  | up
  | even
deriving DecidableEq, Repr

/-- The decimal `digits * 10 ^ exponent`. -/
structure Decimal where
  digits : Nat
  exponent : Int
deriving DecidableEq, Repr

namespace Decimal

/-- The same decimal without zeros at the end of its digits. -/
def stripZeros (d : Decimal) : Nat → Decimal
  | 0 => d
  | fuel + 1 =>
    if d.digits % 10 = 0 ∧ d.digits ≠ 0 then stripZeros ⟨d.digits / 10, d.exponent + 1⟩ fuel
    else d

end Decimal

/-- The reals that round to a mantissa, in quarters of its unit `2 ^ exponent`. -/
structure Interval where
  low : Nat
  value : Nat
  high : Nat
  /-- Whether the ends round to the mantissa too. -/
  closed : Bool

def interval (m : Nat) (e : Int) : Interval where
  low := if m = leastNormal ∧ minExponent < e then 4 * m - 1 else 4 * m - 2
  value := 4 * m
  high := 4 * m + 2
  closed := m % 2 = 0

/-- Powers of a base as a quotient of natural numbers. -/
def power (base : Nat) (e : Int) : Nat × Nat :=
  if 0 ≤ e then (Nat.pow base e.toNat, 1) else (1, Nat.pow base (-e).toNat)

/-- The exponent `k` with `10 ^ (k - 1) ≤ num / den < 10 ^ k`, searched upwards from below. -/
def decimalExponent (num den : Nat) : Nat → Int → Int
  | 0, k => k
  | fuel + 1, k =>
    let (a, b) := power 10 k
    if num * b < a * den then k else decimalExponent num den fuel (k + 1)

/-- The best decimal of `n` digits, if one rounds to the number. -/
def candidate? (tie : Tie) (m : Nat) (e k : Int) (n : Nat) : Option Decimal :=
  let i := interval m e
  let (un, ud) := power 2 (e - 2)
  let grid := k - n
  let (gn, gd) := power 10 grid
  -- `x` quarters are `x * unit / step` points of the grid
  let unit := un * gd
  let step := ud * gn
  let below := i.value * unit / step
  let above := below + 1
  let inside (c : Nat) : Bool :=
    if i.closed then i.low * unit ≤ c * step && c * step ≤ i.high * unit
    else i.low * unit < c * step && c * step < i.high * unit
  match inside below, inside above with
  | false, false => none
  | true, false => some ⟨below, grid⟩
  | false, true => some ⟨above, grid⟩
  | true, true =>
    let twice := 2 * i.value * unit
    let middle := (below + above) * step
    if twice < middle then some ⟨below, grid⟩
    else if middle < twice then some ⟨above, grid⟩
    else match tie with
      | .up => some ⟨above, grid⟩
      | .even => some ⟨if below % 2 = 0 then below else above, grid⟩

/-- The shortest decimal of a finite number other than zero: no number needs more than
seventeen digits. -/
def shortest (tie : Tie) (m : Nat) (e : Int) : Decimal :=
  let (num, den) := ratio m e
  -- three tenths of the binary exponent is at most the decimal one
  let start := (((num.log2 : Int) - den.log2 - 1) * 30102).fdiv 100000
  let k := decimalExponent num den 4 start
  let found := (List.range 17).findSome? fun n ↦ candidate? tie m e k (n + 1)
  (found.getD ⟨0, 0⟩).stripZeros 17

end FrontendSync.Binary64
