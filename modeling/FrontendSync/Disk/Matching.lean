import FrontendSync.Disk.Basic
import FrontendSync.Pattern.Basic

/-!
# Paths that match a pattern

What is on a disk under the paths that a pattern stands for.
-/

namespace FrontendSync.Disk

open Pattern

/-- What the paths of the entries of a directory start with: nothing at the working directory. -/
def stem (p : Path) : Path := if p.same ⟨"."⟩ then ⟨""⟩ else p

/-- The entries of a directory with their paths. -/
def children (d : Disk) (p : Path) : List (String × Path) :=
  ((d.find? p).getD (.dir [])).entries.map fun (name, _) ↦ (name, (stem p).join ⟨name⟩)

/-- Everything below a directory with its path. -/
def descendants (d : Disk) (p : Path) : List (Path × Node) :=
  ((d.find? p).getD (.dir [])).descendants (stem p)

/-- The entry of a name, if it is there.  A dot and two dots are in every directory. -/
def named (d : Disk) (p : Path) (text : List Char) : List Path :=
  let next := (stem p).join ⟨String.ofList text⟩
  if text = ['.'] ∨ text = ['.', '.'] then if d.isDir p then [next] else []
  else if d.holds next then [next] else []

/-- Dots that fit pieces, the parent directory first; the first piece has to be a dot itself. -/
def fittingDots (d : Disk) (p : Path) (ps : List Piece) : List Path :=
  if ps.head? = some (.char '.') && d.isDir p then
    ([['.', '.'], ['.']].filter (fits ps)).map fun text ↦ p.join ⟨String.ofList text⟩
  else []

/-- The paths that segments lead to from a path, dots before the entries of a directory. -/
def reached (d : Disk) (dirOnly : Bool) : List Segment → Path → List Path
  | [], p => if dirOnly && !d.isDir p then [] else [p]
  | .name text :: more, p => (d.named p text).flatMap (reached d dirOnly more)
  | .shape ps :: more, p =>
    (d.fittingDots p ps
      ++ ((d.children p).filter fun (name, _) ↦ fits ps name.toList).map Prod.snd).flatMap
        (reached d dirOnly more)
  | [.deep], p => ((d.descendants p).filter (·.2.isDir)).map Prod.fst
  | .deep :: s :: more, p =>
    (((d.descendants p).map Prod.fst).filter fun q ↦
      s.admits (q.fileName?.getD "").toList).flatMap (reached d dirOnly more)

/-- Segments without a deep one before another. -/
def collapse : List Segment → List Segment
  | .deep :: .deep :: more => collapse (.deep :: more)
  | s :: more => s :: collapse more
  | [] => []

/-- The paths that a pattern stands for. -/
def matching (d : Disk) (p : Pattern) : List Path :=
  if p.isAbsolute then [] else d.reached p.dirOnly (collapse p.segments) ⟨"."⟩

end FrontendSync.Disk
