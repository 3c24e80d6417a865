import FrontendSync.Text.Blank

/-!
# Trimming

Texts are worked on as lists of characters.  Trimming takes blanks, or repetitions of a given
text, off one end or both.
-/

namespace FrontendSync.Text

def trimStart (s : List Char) : List Char := s.dropWhile isBlank

def trimEnd (s : List Char) : List Char := (trimStart s.reverse).reverse

def trim (s : List Char) : List Char := trimEnd (trimStart s)

/-- What follows `p` at the start of `s`, if `s` starts with it. -/
def stripStart? : List Char → List Char → Option (List Char)
  | [], s => some s
  | _ :: _, [] => none
  | p :: ps, c :: s => if p = c then stripStart? ps s else none

def startsWith (p s : List Char) : Bool := (stripStart? p s).isSome

/-- What is stripped off and what is left make up the whole text. -/
theorem stripStart?_eq_some_iff {p s rest : List Char} :
    stripStart? p s = some rest ↔ s = p ++ rest := by
  induction p generalizing s with
  | nil => simp [stripStart?]
  | cons c p ih =>
    cases s with
    | nil => simp [stripStart?]
    | cons d s =>
      by_cases h : c = d
      · subst h; simp [stripStart?, ih]
      · simp [stripStart?, h, Ne.symm h]

theorem stripStart?_append (p s : List Char) : stripStart? p (p ++ s) = some s :=
  stripStart?_eq_some_iff.2 rfl

theorem eq_append_of_stripStart? {p s rest : List Char} (h : stripStart? p s = some rest) :
    s = p ++ rest := stripStart?_eq_some_iff.1 h

/-- Every repetition of `p` at the start is taken off; an empty `p` takes nothing. -/
def trimStartOf (p : List Char) (s : List Char) : List Char :=
  match p with
  | [] => s
  | c :: p' =>
    match _h : stripStart? (c :: p') s with
    | some rest => trimStartOf (c :: p') rest
    | none => s
termination_by s.length
decreasing_by
  have := congrArg List.length (eq_append_of_stripStart? _h)
  simp only [List.length_append, List.length_cons] at this
  omega

def trimEndOf (p : List Char) (s : List Char) : List Char :=
  (trimStartOf p.reverse s.reverse).reverse

end FrontendSync.Text
