import FrontendSync.Text.Letter
import FrontendSync.Text.Lines

/-!
# Plural texts

A plural text holds its forms between bars.  A form may start with a marker of the counts it is
for: `{2}` for one count, or `[2,5]` and `[2,*]` for a range.
-/

namespace FrontendSync.Locale

open FrontendSync.Text

inductive PluralForm where
  | zero
  | one
  | other
deriving DecidableEq, Repr

namespace PluralForm

def suffix : PluralForm → String
  | zero => "zero"
  | one => "one"
  | other => "other"

/-- The form for the counts between two bounds as they are written. -/
def ofRange (low high : List Char) : PluralForm :=
  if low = ['0'] ∧ high = ['0'] then zero
  else if low = ['1'] ∧ high = ['1'] then one
  else other

end PluralForm

/-- Digits of any script, at least one. -/
def count? (s : List Char) : Option (List Char × List Char) :=
  let ds := s.takeWhile isDecimalDigit
  if ds = [] then none else some (ds, s.drop ds.length)

/-- The upper bound of a range: a count, or an asterisk for none. -/
def upperBound? : List Char → Option (List Char × List Char)
  | '*' :: s => some (['*'], s)
  | s => count? s

/-- A marker at the start of a text, and what follows it. -/
def marker? : List Char → Option (PluralForm × List Char)
  | '{' :: s =>
    match count? s with
    | some (n, '}' :: s) => some (PluralForm.ofRange n n, s)
    | _ => none
  | '[' :: s =>
    match count? s with
    | none => none
    | some (low, s) =>
      match trimStart s with
      | ',' :: s =>
        match upperBound? (trimStart s) with
        | some (high, ']' :: s) => some (PluralForm.ofRange low high, s)
        | _ => none
      | _ => none
  | _ => none

/-- Whether a marker stands somewhere in a text. -/
def hasMarker : List Char → Bool
  | [] => false
  | c :: s => (marker? (c :: s)).isSome || hasMarker s

def isPlural (s : List Char) : Bool := s.contains '|' || hasMarker s

/-- One form of a plural text, without its marker and the blanks around it. -/
structure Segment where
  form : Option PluralForm
  text : List Char
deriving DecidableEq, Repr

namespace Segment

def ofText (s : List Char) : Segment :=
  match marker? (trimStart s) with
  | some (form, rest) => ⟨some form, trim rest⟩
  | none => ⟨none, trim s⟩

end Segment

def segments (s : List Char) : List Segment := (pieces '|' s).map Segment.ofText

end FrontendSync.Locale
