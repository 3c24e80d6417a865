import FrontendSync.Number.Reader
import FrontendSync.Php.Token
import FrontendSync.Text.Lines

/-!
# Lexemes of PHP source

A source is cut into lexemes from left to right: the first characters, which decide what the
lexeme is, and everything that belongs to it.  Blanks, comments and open tags are lexemes without
a token.  Reading never fails: a character that starts nothing is a symbol, and what lacks its
end runs to the end of the source.
-/

namespace FrontendSync.Php

open FrontendSync.Text

/-- The characters of a lexeme as written, and the token they spell. -/
structure Lexeme where
  text : List Char
  kind : Option Token.Kind
deriving DecidableEq, Repr

namespace Lexeme

def isNameStart (c : Char) : Bool := c.isAlpha || c == '_' || 0x80 ≤ c.toNat

def isNameChar (c : Char) : Bool := c.isAlphanum || c == '_' || 0x80 ≤ c.toNat

/-! ## Names -/

/-- The rest of a name: a backslash belongs to it when another segment follows. -/
def nameTail : List Char → List Char
  | [] => []
  | c :: s =>
    if isNameChar c || (c == '\\' && s.head?.any isNameStart) then c :: nameTail s else []

/-! ## Numbers -/

def isDigitOrMark (c : Char) : Bool := c.isDigit || c == '_'

def isHexOrMark (c : Char) : Bool := Decimal.isHexDigit c || c == '_'

def dropMarks (s : List Char) : List Char := s.filter (· ≠ '_')

/-- A point and the digits after it, if a digit follows the point. -/
def fractionTail : List Char → List Char
  | '.' :: d :: s => if d.isDigit then '.' :: d :: s.takeWhile isDigitOrMark else []
  | _ => []

/-- An exponent, if it has digits. -/
def exponentTail : List Char → List Char
  | e :: s =>
    if e = 'e' ∨ e = 'E' then
      let signs := s.takeWhile (fun c ↦ c = '+' || c = '-') |>.take 1
      let digits := (s.drop signs.length).takeWhile Char.isDigit
      if digits = [] then [] else e :: signs ++ digits
    else []
  | [] => []

def hexadecimal (text digits : List Char) : Lexeme :=
  let ds := dropMarks digits
  let n := Decimal.value 16 ds
  ⟨text, some (if ds ≠ [] ∧ Decimal.fits n then .int n else .symbol '0')⟩

/-- A number starts with a digit, or with a point that a digit follows. -/
def decimal (s : List Char) : Lexeme :=
  let whole := s.takeWhile isDigitOrMark
  let fraction := fractionTail (s.drop whole.length)
  let exponent := exponentTail (s.drop (whole.length + fraction.length))
  let text := whole ++ fraction ++ exponent
  let float := Token.Kind.float ((Binary64.ofText? (dropMarks text)).getD .zero)
  let kind :=
    if fraction = [] ∧ exponent = [] then
      match Decimal.int? (dropMarks text) with
      | some n => .int n
      | none => float
    else float
  ⟨text, some kind⟩

def number : List Char → Lexeme
  | '0' :: x :: s =>
    if x = 'x' ∨ x = 'X' then
      let digits := s.takeWhile isHexOrMark
      hexadecimal ('0' :: x :: digits) digits
    else decimal ('0' :: x :: s)
  | s => decimal s

/-! ## Strings -/

/-- What follows an opening quote, up to and with the closing one. -/
def quotedTail (quote : Char) : List Char → List Char
  | [] => []
  | '\\' :: c :: s => '\\' :: c :: quotedTail quote s
  | c :: s => if c = quote then [c] else c :: quotedTail quote s

/-- The character a backslash and `c` stand for between double quotes. -/
def escape? : Char → Option Char
  | 'n' => some '\n'
  | 't' => some '\t'
  | 'r' => some '\r'
  | 'v' => some '\x0b'
  | 'e' => some '\x1b'
  | 'f' => some '\x0c'
  | '0' => some '\x00'
  | '"' => some '"'
  | '\\' => some '\\'
  | '$' => some '$'
  | _ => none

/-- Between single quotes a backslash stands only before a quote or a backslash. -/
def singleEscape? : Char → Option Char
  | '\'' => some '\''
  | '\\' => some '\\'
  | _ => none

/-- The text between an opening quote and its closing one; a backslash that escapes nothing
stands for itself. -/
def unquote (quote : Char) (escape? : Char → Option Char) : List Char → List Char
  | [] => []
  | '\\' :: c :: s =>
    match escape? c with
    | some d => d :: unquote quote escape? s
    | none => '\\' :: c :: unquote quote escape? s
  | c :: s => if c = quote then [] else c :: unquote quote escape? s

def quoted (quote : Char) (s : List Char) : Lexeme :=
  let escape? := if quote = '"' then escape? else singleEscape?
  ⟨quote :: quotedTail quote s, some (.string (String.ofList (unquote quote escape? s)))⟩

/-! ## Heredocs -/

def closesHeredoc (label line : List Char) : Bool :=
  label ≠ [] && startsWith label (trimStart line)

/-- A line without at most `n` spaces or tabs at its start. -/
def outdent (n : Nat) (line : List Char) : List Char :=
  line.drop (min n (line.takeWhile fun c ↦ c = ' ' || c = '\t').length)

def dropEmptyEnd (ls : List (List Char)) : List (List Char) :=
  if ls.getLast? = some [] then ls.dropLast else ls

/-- The body of a heredoc ends at the first line that starts with its label after blanks; those
blanks are taken off every line. -/
def heredocBody (label s : List Char) : Lexeme :=
  match (pieces '\n' s).span (fun line ↦ !closesHeredoc label line) with
  | (body, closing :: _) =>
    let indent := closing.takeWhile isBlank
    let value := join '\n' (body.map (outdent indent.length))
    ⟨body.flatMap (· ++ ['\n']) ++ indent ++ label, some (.string (String.ofList value))⟩
  | (body, []) => ⟨s, some (.string (String.ofList (join '\n' (dropEmptyEnd body))))⟩

/-- A heredoc after its `<<<`: a label, bare or in quotes, the rest of that line, and a body. -/
def heredoc (s : List Char) : Lexeme :=
  let spaces := s.takeWhile (· = ' ')
  let s := s.drop spaces.length
  let opening := (s.takeWhile fun c ↦ c = '\'' || c = '"').take 1
  let s := s.drop opening.length
  let label := s.takeWhile isNameChar
  let s := s.drop label.length
  let closing := s.take opening.length
  let s := s.drop closing.length
  let line := s.takeWhile (· ≠ '\n')
  let line := line ++ (s.drop line.length).take 1
  let body := heredocBody label (s.drop line.length)
  ⟨spaces ++ opening ++ label ++ closing ++ line ++ body.text, body.kind⟩

/-! ## Comments -/

/-- A block comment after its first slash, up to and with the first `*/`. -/
def commentTail : List Char → List Char
  | [] => []
  | '*' :: '/' :: _ => ['*', '/']
  | c :: s => c :: commentTail s

/-- A line comment after its first character: it ends before a line break or a closing tag. -/
def lineCommentTail : List Char → List Char
  | [] => []
  | '\n' :: _ => []
  | '?' :: '>' :: _ => []
  | c :: s => c :: lineCommentTail s

/-- `/**` opens a documentation comment, except as the start of an empty comment. -/
def isDocComment : List Char → Bool
  | '*' :: '*' :: '/' :: _ => false
  | '*' :: '*' :: _ => true
  | _ => false

/-! ## All lexemes -/

def tags : List (List Char) := ["<?php".toList, "<?=".toList, "?>".toList]

def symbol (c : Char) (s : List Char) : Lexeme :=
  match Punct.all.find? fun p ↦ startsWith p.spelling.toList (c :: s) with
  | some p =>
    if p = .assign ∧ s.head? = some '=' then ⟨['=', '='], some (.symbol '=')⟩
    else ⟨p.spelling.toList, some (.punct p)⟩
  | none => ⟨[c], some (.symbol c)⟩

/-- The lexeme that starts with `c` before `s`. -/
def first (c : Char) (s : List Char) : Lexeme :=
  if isBlank c then ⟨[c], none⟩
  else match tags.find? (startsWith · (c :: s)) with
  | some tag => ⟨tag, none⟩
  | none =>
    if startsWith ['<', '<', '<'] (c :: s) then
      let rest := heredoc (s.drop 2)
      ⟨['<', '<', '<'] ++ rest.text, rest.kind⟩
    else if c = '/' ∧ isDocComment s then
      let text := c :: commentTail s
      ⟨text, some (.docComment (String.ofList text))⟩
    else if c = '/' ∧ s.head? = some '*' then ⟨c :: commentTail s, none⟩
    else if c = '/' ∧ s.head? = some '/' ∨ c = '#' ∧ s.head? ≠ some '[' then
      ⟨c :: lineCommentTail s, none⟩
    else if c = '\'' ∨ c = '"' then quoted c s
    else if c = '$' ∧ s.head?.any isNameStart then
      let name := s.takeWhile isNameChar
      ⟨c :: name, some (.var (String.ofList name))⟩
    else if c.isDigit ∨ c = '.' ∧ s.head?.any Char.isDigit then number (c :: s)
    else if isNameStart c ∨ c = '\\' ∧ s.head?.any isNameStart then
      let name := c :: nameTail s
      ⟨name, some (.name (String.ofList name))⟩
    else symbol c s

/-- All lexemes after the first `skip` characters. -/
def all : Nat → List Char → List Lexeme
  | _, [] => []
  | skip + 1, _ :: s => all skip s
  | 0, c :: s => first c s :: all ((first c s).text.length - 1) s

/-- The tokens of lexemes, the first of which starts on the given line. -/
def tokens : Nat → List Lexeme → List Token
  | _, [] => []
  | line, l :: ls =>
    let more := tokens (line + l.text.count '\n') ls
    match l.kind with
    | some kind => ⟨kind, line⟩ :: more
    | none => more

end Lexeme

/-- The tokens of a source text. -/
def tokens (source : String) : List Token := Lexeme.tokens 1 (Lexeme.all 0 source.toList)

end FrontendSync.Php
