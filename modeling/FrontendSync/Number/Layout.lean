import FrontendSync.Number.Shortest

/-!
# Texts of binary numbers

Three layouts of the shortest decimal.  Plain text never has an exponent and no fraction that is
zero.  JSON text always shows a fraction or an exponent.  A literal of a generated module is
plain text, except that a number without text in that language is `null`.
-/

namespace FrontendSync.Binary64

def zeros (n : Nat) : List Char := List.replicate n '0'

/-- A decimal in positional notation, a fraction only where it has one. -/
def Decimal.positional (d : Decimal) : List Char :=
  let ds := FrontendSync.Decimal.digits d.digits
  if 0 ≤ d.exponent then ds ++ zeros d.exponent.toNat
  else
    let point : Int := ds.length + d.exponent
    if 0 < point then ds.take point.toNat ++ '.' :: ds.drop point.toNat
    else '0' :: '.' :: zeros (-point).toNat ++ ds

/-- The exponent of the first digit. -/
def Decimal.leading (d : Decimal) : Int :=
  (FrontendSync.Decimal.digits d.digits).length + d.exponent - 1

/-- A decimal with one digit before the point and an exponent. -/
def Decimal.scientific (d : Decimal) : List Char :=
  let fraction := match FrontendSync.Decimal.digits d.digits with
    | first :: [] => [first]
    | first :: more => first :: '.' :: more
    | [] => []
  let e := d.leading
  fraction ++ 'e' :: (if e < 0 then '-' else '+') :: FrontendSync.Decimal.digits e.natAbs

def sign (negative : Bool) : List Char := if negative then ['-'] else []

/-- Plain text: the shortest decimal in positional notation, an exact tie going up. -/
def plain : Binary64 → List Char
  | .nan => ['N', 'a', 'N']
  | .infinite s => sign s ++ ['i', 'n', 'f']
  | .finite s 0 _ => sign s ++ ['0']
  | .finite s m e => sign s ++ (shortest .up m e).positional

def text (x : Binary64) : String := String.ofList x.plain

/-- JSON text: positional from `1e-5` up to `1e16`, with an exponent beyond; an exact tie goes to
the even digit, and what is no finite number is `null`. -/
def json : Binary64 → List Char
  | .nan | .infinite _ => ['n', 'u', 'l', 'l']
  | .finite s 0 _ => sign s ++ ['0', '.', '0']
  | .finite s m e =>
    let d := shortest .even m e
    if -5 ≤ d.leading ∧ d.leading < 16 then
      sign s ++ (if 0 ≤ d.exponent then d.positional ++ ['.', '0'] else d.positional)
    else sign s ++ d.scientific

/-- Whether the magnitude of a finite number is below `10 ^ 15`. -/
def isBelowPlainLimit : Binary64 → Bool
  | .finite _ m e => let (n, d) := ratio m e; n < d * 1000000000000000
  | _ => false

/-- A literal of a generated module: integral numbers below `10 ^ 15` as integers, without the
sign of zero. -/
def literal (x : Binary64) : String :=
  match x with
  | .finite s m e =>
    if x.isIntegral && x.isBelowPlainLimit then FrontendSync.Decimal.ofInt (truncate s m e)
    else x.text
  | _ => "null"

end FrontendSync.Binary64
