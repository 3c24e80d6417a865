import FrontendSync.Number.Decimal
import FrontendSync.Text.Trim

/-!
# TOML strings

A string stands between quotes, in which escapes are read, or between apostrophes, in which
nothing is escaped.  Three of either open a string of several lines.
-/

namespace FrontendSync.Toml

def isSpace (c : Char) : Bool := c == ' ' || c == '\t'

def skipSpaces (s : List Char) : List Char := s.dropWhile isSpace

/-- No control character but the tab stands in strings and comments. -/
def isPlain (c : Char) : Bool := c == '\t' || 0x20 ≤ c.toNat && c.toNat ≠ 0x7F

/-- What follows a line break. -/
def afterBreak? : List Char → Option (List Char)
  | '\n' :: s => some s
  | '\r' :: '\n' :: s => some s
  | _ => none

theorem afterBreak?_length_lt {s rest : List Char} (h : afterBreak? s = some rest) :
    rest.length < s.length := by
  unfold afterBreak? at h
  split at h
  · simp_all
  · simp only [Option.some.injEq] at h
    subst h
    simp only [List.length_cons]
    omega
  · simp at h

/-- The character of an escape by number, with the characters it takes. -/
def numbered? (width : Nat) (s : List Char) : Option (Char × Nat) :=
  let ds := s.take width
  let n := Decimal.value 16 ds
  if ds.length = width ∧ ds.all Decimal.isHexDigit ∧ n.isValidChar then
    some (Char.ofNat n, width + 1)
  else none

/-- The character of an escape after its backslash, with the characters it takes. -/
def escape? : List Char → Option (Char × Nat)
  | 'b' :: _ => some ('\x08', 1)
  | 't' :: _ => some ('\t', 1)
  | 'n' :: _ => some ('\n', 1)
  | 'f' :: _ => some ('\x0c', 1)
  | 'r' :: _ => some ('\r', 1)
  | '"' :: _ => some ('"', 1)
  | '\\' :: _ => some ('\\', 1)
  | 'u' :: s => numbered? 4 s
  | 'U' :: s => numbered? 8 s
  | _ => none

/-- The characters of a string of one line after its opening quote, and what follows the closing
one. -/
def line? (quote : Char) : List Char → Option (List Char × List Char)
  | [] => none
  | c :: s =>
    if c = quote then some ([], s)
    else if c = '\\' ∧ quote = '"' then
      match escape? s with
      | none => none
      | some (c, n) => (line? quote (s.drop n)).map fun (cs, s) ↦ (c :: cs, s)
    else if isPlain c then (line? quote s).map fun (cs, s) ↦ (c :: cs, s)
    else none
termination_by s => s.length
decreasing_by all_goals (simp only [List.length_drop, List.length_cons]; omega)

/-- What follows blanks of which one is a line break. -/
def continued? (s : List Char) : Option (List Char) :=
  if (afterBreak? (skipSpaces s)).isSome then
    some (s.dropWhile fun c ↦ isSpace c || c == '\n' || c == '\r')
  else none

theorem continued?_length_le {s rest : List Char} (h : continued? s = some rest) :
    rest.length ≤ s.length := by
  unfold continued? at h
  split at h
  · simp only [Option.some.injEq] at h
    subst h
    exact (List.dropWhile_sublist _).length_le
  · simp at h

/-- The characters of a string of several lines, and what follows it.  One or two quotes may stand
before the closing ones; a backslash at the end of a line takes the blanks after it with it. -/
def lines? (quote : Char) (s : List Char) : Option (List Char × List Char) :=
  match Text.stripStart? [quote, quote, quote] s with
  | some rest =>
    let extra := (rest.takeWhile (· = quote)).take 2
    some (extra, rest.drop extra.length)
  | none =>
    match _hb : afterBreak? s with
    | some rest =>
      have := afterBreak?_length_lt _hb
      (lines? quote rest).map fun (cs, s) ↦ ('\n' :: cs, s)
    | none =>
      match s with
      | [] => none
      | c :: s =>
        if c = '\\' ∧ quote = '"' then
          match _hc : continued? s with
          | some rest =>
            have := continued?_length_le _hc
            lines? quote rest
          | none =>
            match escape? s with
            | none => none
            | some (c, n) => (lines? quote (s.drop n)).map fun (cs, s) ↦ (c :: cs, s)
        else if isPlain c then (lines? quote s).map fun (cs, s) ↦ (c :: cs, s)
        else none
termination_by s.length
decreasing_by
  · exact this
  · simp only [List.length_cons]; omega
  · simp only [List.length_drop, List.length_cons]; omega
  · simp only [List.length_cons]; omega

/-- A string of one line or of several; a line break right after the opening quotes is none of
it. -/
def string? (quote : Char) (s : List Char) : Option (String × List Char) :=
  let read := match Text.stripStart? [quote, quote, quote] s with
    | some rest => lines? quote ((afterBreak? rest).getD rest)
    | none =>
      match s with
      | c :: s => if c = quote then line? quote s else none
      | [] => none
  read.map fun (cs, s) ↦ (String.ofList cs, s)

end FrontendSync.Toml
