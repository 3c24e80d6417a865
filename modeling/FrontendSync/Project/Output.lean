import FrontendSync.Disk.Basic
import FrontendSync.Fault

/-!
# Output files

What a run generates, and how it gets on a disk.
-/

namespace FrontendSync

structure OutputFile where
  path : Path
  contents : String
deriving DecidableEq, Repr

/-- What became of an output file. -/
inductive Outcome where
  | written
  /-- The file had these contents already. -/
  | unchanged
deriving DecidableEq, Repr

namespace Outcome

def name : Outcome → String
  | written => "written"
  | unchanged => "unchanged"

end Outcome

namespace OutputFile

/-- Fails at the first item with the path of one before it. -/
def checkPaths (seen : List (Path × String)) : List (Path × String) → Except Fault Unit
  | [] => .ok ()
  | (p, name) :: items =>
    match seen.find? (p.same ·.1) with
    | some (_, first) => .error (.sharedOutput p first name)
    | none => checkPaths ((p, name) :: seen) items

/-- Puts a file on the disk, with the directories above it. -/
def install (f : OutputFile) (d : Disk) : Except Fault Outcome × Disk :=
  let parent := f.path.parent?.getD ⟨""⟩
  match d.makeDirs parent with
  | none => (.error (.disk parent), d)
  | some made =>
    match made.writeText f.path f.contents with
    | none => (.error (.disk f.path), made)
    | some d => (.ok .written, d)

/-- Writes a file unless it has the contents already.  What is in its place has to be text. -/
def write (f : OutputFile) (d : Disk) : Except Fault Outcome × Disk :=
  if d.holds f.path then
    match d.text? f.path with
    | none => (.error (.disk f.path), d)
    | some text => if text = f.contents then (.ok .unchanged, d) else f.install d
  else f.install d

end OutputFile

/-- Writes files up to the first failure, with what became of each. -/
def Disk.writeAll (d : Disk) : List OutputFile → Except Fault (List (Path × Outcome)) × Disk
  | [] => (.ok [], d)
  | f :: fs =>
    match f.write d with
    | (.error e, d) => (.error e, d)
    | (.ok outcome, d) =>
      let (rest, d) := d.writeAll fs
      (rest.map ((f.path, outcome) :: ·), d)

end FrontendSync
