/-!
# JSON strings

Only the quote, the backslash and control characters are escaped; every escape of the format is
read.
-/

namespace FrontendSync.Json

def hexDigit (n : Nat) : Char := if n < 10 then Char.ofNat (48 + n) else Char.ofNat (87 + n)

def escapeChar (c : Char) : List Char :=
  match c with
  | '"' => ['\\', '"']
  | '\\' => ['\\', '\\']
  | '\x08' => ['\\', 'b']
  | '\x0c' => ['\\', 'f']
  | '\n' => ['\\', 'n']
  | '\r' => ['\\', 'r']
  | '\t' => ['\\', 't']
  | c =>
    if c.toNat < 0x20 then ['\\', 'u', '0', '0', hexDigit (c.toNat / 16), hexDigit (c.toNat % 16)]
    else [c]

/-- A string between quotes. -/
def quoted (s : String) : List Char := '"' :: s.toList.flatMap escapeChar ++ ['"']

def hexValue? (c : Char) : Option Nat :=
  if '0' ≤ c ∧ c ≤ '9' then some (c.toNat - 48)
  else if 'a' ≤ c ∧ c ≤ 'f' then some (c.toNat - 87)
  else if 'A' ≤ c ∧ c ≤ 'F' then some (c.toNat - 55)
  else none

/-- Four hexadecimal digits, and what follows them. -/
def unit? : List Char → Option (Nat × List Char)
  | a :: b :: c :: d :: s => do
    let a ← hexValue? a
    let b ← hexValue? b
    let c ← hexValue? c
    let d ← hexValue? d
    return (((a * 16 + b) * 16 + c) * 16 + d, s)
  | _ => none

def isHigh (n : Nat) : Bool := 0xD800 ≤ n && n < 0xDC00

def isLow (n : Nat) : Bool := 0xDC00 ≤ n && n < 0xE000

/-- The character of an escape by number: a surrogate stands only in a pair. -/
def unicode? (s : List Char) : Option (Char × List Char) := do
  let (n, s) ← unit? s
  if isHigh n then
    match s with
    | '\\' :: 'u' :: s =>
      let (m, s) ← unit? s
      if isLow m then return (Char.ofNat (0x10000 + (n - 0xD800) * 0x400 + (m - 0xDC00)), s)
      else none
    | _ => none
  else if isLow n then none
  else return (Char.ofNat n, s)

/-- The character after a backslash that is no escape by number. -/
def simpleEscape? : Char → Option Char
  | '"' => some '"'
  | '\\' => some '\\'
  | '/' => some '/'
  | 'b' => some '\x08'
  | 'f' => some '\x0c'
  | 'n' => some '\n'
  | 'r' => some '\r'
  | 't' => some '\t'
  | _ => none

/-- The characters of a string after its opening quote, and what follows the closing one.  The
number bounds the characters read. -/
def unquote? : Nat → List Char → Option (List Char × List Char)
  | 0, _ => none
  | _ + 1, [] => none
  | _ + 1, '"' :: s => some ([], s)
  | n + 1, '\\' :: 'u' :: s => do
    let (c, s) ← unicode? s
    let (cs, s) ← unquote? n s
    return (c :: cs, s)
  | n + 1, '\\' :: e :: s => do
    let c ← simpleEscape? e
    let (cs, s) ← unquote? n s
    return (c :: cs, s)
  | n + 1, c :: s =>
    if c.toNat < 0x20 || c == '\\' then none
    else do
      let (cs, s) ← unquote? n s
      return (c :: cs, s)

end FrontendSync.Json
