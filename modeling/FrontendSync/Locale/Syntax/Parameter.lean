/-!
# Parameters

A parameter of a locale text is a colon and a name.  The frontend libraries write the name
between brackets of their own.
-/

namespace FrontendSync.Locale

def isNameChar (c : Char) : Bool := c.isAlphanum || c == '_'

/-- Each parameter, by its name between `opening` and `closing`. -/
def substitute (opening closing : List Char) (s : List Char) : List Char :=
  match s with
  | [] => []
  | c :: s =>
    let name := if c = ':' then s.takeWhile isNameChar else []
    if name = [] then c :: substitute opening closing s
    else opening ++ name ++ closing ++ substitute opening closing (s.drop name.length)
termination_by s.length
decreasing_by all_goals simp; try omega

/-- The brackets of a library around the name of a parameter. -/
structure Brackets where
  opening : List Char
  closing : List Char

namespace Brackets

def single : Brackets := ⟨['{'], ['}']⟩

def double : Brackets := ⟨['{', '{'], ['}', '}']⟩

def substitute (b : Brackets) (s : List Char) : List Char :=
  Locale.substitute b.opening b.closing s

end Brackets

end FrontendSync.Locale
