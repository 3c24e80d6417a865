import FrontendSync.Artifact
import FrontendSync.Text.Lines

/-!
# Envelope

What every generated file has around its text: a banner that tells readers not to edit it, a
directive against the check of line lengths where a line is long, and plain line breaks.
-/

namespace FrontendSync.Module.Envelope

open FrontendSync.Text

def banner : List (List Char) :=
  ["/**", " * This file is generated by frontgen. Do not edit it by hand.",
    " * Changes will be overwritten the next time the generator runs.", " */"].map String.toList

def directive : List Char := "/* eslint-disable max-len */".toList

/-- Carriage returns, alone or before a line feed, become line feeds. -/
def plainBreaks : List Char → List Char
  | [] => []
  | '\r' :: '\n' :: s => '\n' :: plainBreaks s
  | '\r' :: s => '\n' :: plainBreaks s
  | c :: s => c :: plainBreaks s

theorem plainBreaks_cons {c : Char} (h : c ≠ '\r') (s : List Char) :
    plainBreaks (c :: s) = c :: plainBreaks s := by
  rw [plainBreaks] <;> simp [h]

theorem carriageReturn_notMem_plainBreaks (t : List Char) : '\r' ∉ plainBreaks t := by
  fun_induction plainBreaks t <;> simp_all [eq_comm]

def isBlankLine (line : List Char) : Bool := line.all isBlank

/-- The lines without the blank ones at the end. -/
def dropBlankEnd (ls : List (List Char)) : List (List Char) :=
  (ls.reverse.dropWhile isBlankLine).reverse

/-- The lines of a body: line breaks are of any of the three kinds. -/
def bodyLines (body : List Char) : List (List Char) :=
  dropBlankEnd (pieces '\n' (plainBreaks body))

/-- Whether some line is longer than the limit; a limit of zero is none. -/
def isTooLong (limit : Option Nat) (ls : List (List Char)) : Bool :=
  match limit with
  | none | some 0 => false
  | some n => ls.any fun line ↦ n < line.length

/-- The lines of a file.  A JSON document has no comments. -/
def fileLines (format : Format) (limit : Option Nat) (body : List Char) : List (List Char) :=
  match format with
  | .json => bodyLines body
  | .ts | .js =>
    let ls := banner ++ [] :: bodyLines body
    if isTooLong limit ls then directive :: ls else ls

def wrapChars (format : Format) (limit : Option Nat) (body : List Char) : List Char :=
  join '\n' (fileLines format limit body) ++ ['\n']

/-- The contents of a file with the given text. -/
def wrap (format : Format) (limit : Option Nat) (body : String) : String :=
  String.ofList (wrapChars format limit body.toList)

end FrontendSync.Module.Envelope
