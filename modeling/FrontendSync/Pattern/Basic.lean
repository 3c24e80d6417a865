import FrontendSync.Text.Lines

/-!
# Path patterns

A pattern is a path in which a star stands for any characters of a name, a question mark for one
character, brackets for one character of a class, and two stars as a whole segment for any number
of directories.
-/

namespace FrontendSync

namespace Pattern

inductive Piece where
  | char (c : Char)
  | one
  | many
  /-- A character in one of the ranges, whose ends are included. -/
  | oneOf (ranges : List (Char × Char))
  | noneOf (ranges : List (Char × Char))
deriving DecidableEq, Repr

inductive Segment where
  | name (text : List Char)
  | shape (pieces : List Piece)
  /-- Any directories, one in the other. -/
  | deep
deriving DecidableEq, Repr

/-! ## Reading -/

/-- The members of a class: ranges, and characters that stand for themselves. -/
def ranges : List Char → List (Char × Char)
  | a :: '-' :: b :: s => (a, b) :: ranges s
  | a :: s => (a, a) :: ranges s
  | [] => []

/-- The members of a class up to its closing bracket, and what follows.  A bracket that comes
first is a member. -/
def members? : List Char → Option (List (Char × Char) × List Char)
  | [] => none
  | c :: s =>
    match s.dropWhile (· ≠ ']') with
    | [] => none
    | _ :: rest => some (ranges (c :: s.takeWhile (· ≠ ']')), rest)

/-- The class after an opening bracket. -/
def class? : List Char → Option (Piece × List Char)
  | '!' :: s => (members? s).map fun (rs, rest) ↦ (.noneOf rs, rest)
  | s => (members? s).map fun (rs, rest) ↦ (.oneOf rs, rest)

theorem members?_snd_length_lt {s : List Char} {r : List (Char × Char) × List Char}
    (h : members? s = some r) : r.2.length < s.length := by
  cases s with
  | nil => simp [members?] at h
  | cons c s =>
    simp only [members?] at h
    have hle := (List.dropWhile_sublist (fun x ↦ decide (x ≠ ']')) (l := s)).length_le
    split at h
    · simp at h
    · next heq =>
      simp only [Option.some.injEq] at h
      subst h
      rw [heq] at hle
      simp only [List.length_cons] at hle ⊢
      omega

theorem class?_snd_length_lt {s : List Char} {r : Piece × List Char} (h : class? s = some r) :
    r.2.length < s.length := by
  unfold class? at h
  split at h <;> obtain ⟨m, hm, rfl⟩ := Option.map_eq_some_iff.1 h
  · have := members?_snd_length_lt hm
    simp only [List.length_cons]
    omega
  · exact members?_snd_length_lt hm

/-- The pieces of a segment.  Two stars have no meaning inside it. -/
def pieces? : List Char → Option (List Piece)
  | [] => some []
  | '*' :: '*' :: _ => none
  | '*' :: s => (pieces? s).map (.many :: ·)
  | '?' :: s => (pieces? s).map (.one :: ·)
  | '[' :: s =>
    match h : class? s with
    | none => none
    | some (p, rest) =>
      have := class?_snd_length_lt h
      (pieces? rest).map (p :: ·)
  | c :: s => (pieces? s).map (.char c :: ·)
termination_by s => s.length
decreasing_by all_goals (simp_all only [List.length_cons]; omega)

def literal? : Piece → Option Char
  | .char c => some c
  | _ => none

def segment? (s : List Char) : Option Segment :=
  if s = ['*', '*'] then some .deep
  else (pieces? s).map fun ps ↦
    match ps.mapM literal? with
    | some text => .name text
    | none => .shape ps

/-- Parts between separators; a separator at the end closes the last part. -/
def parts (s : List Char) : List (List Char) :=
  let all := Text.pieces '/' s
  if all.getLast? = some [] then all.dropLast else all

/-! ## Matching -/

def inRanges (rs : List (Char × Char)) (c : Char) : Bool := rs.any fun r ↦ r.1 ≤ c && c ≤ r.2

def Piece.admits (c : Char) : Piece → Bool
  | .char c' => c == c'
  | .one | .many => true
  | .oneOf rs => inRanges rs c
  | .noneOf rs => !inRanges rs c

/-- The ends of a text, from the text itself to the empty one. -/
def tails : List Char → List (List Char)
  | [] => [[]]
  | c :: s => (c :: s) :: tails s

/-- What a piece may leave of texts, each the end of the one before it. -/
def Piece.after (p : Piece) (rests : List (List Char)) : List (List Char) :=
  match p with
  | .many => (rests.head?.map tails).getD []
  | p => rests.filterMap fun
    | c :: s => if p.admits c then some s else none
    | [] => none

/-- Whether pieces stand for a text.  All that the first pieces may leave is carried along, which
takes time in the product of both lengths. -/
def fits (ps : List Piece) (s : List Char) : Bool :=
  (ps.foldl (fun rests p ↦ p.after rests) [s]).contains []

def Segment.admits (name : List Char) : Segment → Bool
  | .name text => name == text
  | .shape ps => fits ps name
  | .deep => true

end Pattern

structure Pattern where
  isAbsolute : Bool
  segments : List Pattern.Segment
  /-- Whether only directories are meant. -/
  dirOnly : Bool
deriving DecidableEq, Repr

namespace Pattern

/-- Whether a path has characters of a pattern in it. -/
def isPattern (text : String) : Bool := text.toList.any fun c ↦ c == '*' || c == '?' || c == '['

def ofText? (text : String) : Option Pattern :=
  let s := text.toList
  ((parts s).mapM segment?).map fun segments ↦
    ⟨s.head? == some '/', segments, s.getLast? == some '/'⟩

end Pattern

end FrontendSync
