import FrontendSync.Text.Trim

/-!
# Lines, pieces and replacement

Splitting a text at one character, and replacing each occurrence of a text from left to right.
-/

namespace FrontendSync.Text

/-- The pieces between the occurrences of `c`: always at least one. -/
def pieces (c : Char) : List Char → List (List Char)
  | [] => [[]]
  | d :: s =>
    match pieces c s with
    | [] => [[d]]
    | piece :: more => if d = c then [] :: piece :: more else (d :: piece) :: more

/-- The pieces put together again with `c` between them. -/
def join (c : Char) : List (List Char) → List Char
  | [] => []
  | [piece] => piece
  | piece :: more => piece ++ c :: join c more

theorem pieces_ne_nil (c : Char) (s : List Char) : pieces c s ≠ [] := by
  cases s with
  | nil => simp [pieces]
  | cons d s => simp only [pieces]; split <;> (try split) <;> simp

theorem join_pieces (c : Char) (s : List Char) : join c (pieces c s) = s := by
  induction s with
  | nil => rfl
  | cons d s ih =>
    simp only [pieces]
    split
    · rename_i h; exact absurd h (pieces_ne_nil c s)
    · rename_i piece more h
      rw [h] at ih
      split
      · rename_i hd; simp [join, ih, hd]
      · cases more with
        | nil => simp_all [join]
        | cons m more => simpa [join] using ih

/-- A carriage return at the end of a line belongs to its line break. -/
def dropReturn (line : List Char) : List Char :=
  match line.getLast? with
  | some '\r' => line.dropLast
  | _ => line

/-- The lines of a text without their line breaks; nothing follows a final line break. -/
def lines (s : List Char) : List (List Char) :=
  let all := pieces '\n' s
  all.dropLast.map dropReturn ++ all.getLast?.toList.filter (· ≠ [])

/-- Each occurrence of `old`, from left to right and not overlapping, becomes `new`. -/
def replace (old new : List Char) (s : List Char) : List Char :=
  match s with
  | [] => []
  | c :: s' =>
    match old with
    | [] => c :: replace [] new s'
    | o :: old' =>
      match _h : stripStart? (o :: old') (c :: s') with
      | some rest => new ++ replace (o :: old') new rest
      | none => c :: replace (o :: old') new s'
termination_by s.length
decreasing_by
  · simp
  · have := congrArg List.length (eq_append_of_stripStart? _h)
    simp only [List.length_append, List.length_cons] at this ⊢
    omega
  · simp

/-- Lines put together with a line break between them. -/
def unlines (ls : List String) : String := "\n".intercalate ls

/-- Replacement on strings. -/
def replaceIn (old new s : String) : String :=
  String.ofList (replace old.toList new.toList s.toList)

end FrontendSync.Text
