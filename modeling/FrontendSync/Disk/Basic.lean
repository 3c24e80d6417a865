import FrontendSync.Path.Basic

/-!
# Disks

The files and directories below a working directory.  The entries of a directory are in the order
of their names.  Paths are followed step by step: each step needs a directory to start from, and
nothing outside the working directory is reached.  A name has at most 255 bytes and no NUL, and a
path has less than 4096 bytes; what does not keep to that leads nowhere.
-/

namespace FrontendSync

/-- A file with its bytes, or a directory. -/
inductive Node where
  | file (bytes : ByteArray)
  | dir (entries : List (String × Node))
deriving Inhabited

namespace Node

def isDir : Node → Bool
  | dir _ => true
  | file _ => false

def isFile : Node → Bool
  | file _ => true
  | dir _ => false

def entries : Node → List (String × Node)
  | dir es => es
  | file _ => []

def child? (name : String) (n : Node) : Option Node := n.entries.lookup name

/-- Entries with one more, or with one replaced. -/
def setEntry (name : String) (n : Node) : List (String × Node) → List (String × Node)
  | [] => [(name, n)]
  | (k, m) :: es =>
    if name = k then (name, n) :: es
    else if name < k then (name, n) :: (k, m) :: es
    else (k, m) :: setEntry name n es

/-- The node at the end of a way of names. -/
def get? (n : Node) : List String → Option Node
  | [] => some n
  | name :: names => (n.child? name).bind (get? · names)

/-- The tree with `m` at the end of a way whose last name may be new. -/
def put (n : Node) (m : Node) : List String → Node
  | [] => m
  | name :: names => dir (setEntry name (put ((n.child? name).getD (dir [])) m names) n.entries)

def eraseEntry (name : String) (es : List (String × Node)) : List (String × Node) :=
  es.filter (·.1 ≠ name)

/-- The text of a file, if its bytes are UTF-8. -/
def text? : Node → Option String
  | file bytes => String.fromUTF8? bytes
  | dir _ => none

mutual

/-- Everything below a node in the order of the names, a directory before what is in it. -/
def descendants (path : Path) : Node → List (Path × Node)
  | file _ => []
  | dir es => descendantsOf path es

def descendantsOf (path : Path) : List (String × Node) → List (Path × Node)
  | [] => []
  | (name, n) :: es =>
    (path.join ⟨name⟩, n) :: descendants (path.join ⟨name⟩) n ++ descendantsOf path es

end

end Node

/-- A disk by its working directory. -/
structure Disk where
  top : Node

namespace Disk

def empty : Disk := ⟨.dir []⟩

/-- Whether an entry can have a name. -/
def canName (segment : List Char) : Bool :=
  !segment.contains '\x00' && (String.ofList segment).utf8ByteSize ≤ 255

/-- One step of a path from the place reached by `names`. -/
def step (d : Disk) (names : List String) (segment : List Char) : Option (List String) :=
  match d.top.get? names with
  | some (.dir _) =>
    match segment with
    | [] | ['.'] => some names
    | ['.', '.'] => if names = [] then none else some names.dropLast
    | segment => if canName segment then some (names ++ [String.ofList segment]) else none
  | _ => none

/-- The way of names that segments stand for. -/
def follow (d : Disk) (segments : List (List Char)) : Option (List String) :=
  segments.foldlM d.step []

def segmentsOf (p : Path) : List (List Char) := Text.pieces '/' p.text.toList

/-- Whether a path is relative and not too long. -/
def canFollow (p : Path) : Bool := !p.isAbsolute && p.text.utf8ByteSize < 4096

/-- The way of names to a path; the empty path leads nowhere. -/
def way? (d : Disk) (p : Path) : Option (List String) :=
  if p.text == "" || !canFollow p then none else d.follow (segmentsOf p)

def find? (d : Disk) (p : Path) : Option Node := (d.way? p).bind d.top.get?

def holds (d : Disk) (p : Path) : Bool := (d.find? p).isSome

def isDir (d : Disk) (p : Path) : Bool := (d.find? p).any Node.isDir

def isFile (d : Disk) (p : Path) : Bool := (d.find? p).any Node.isFile

def text? (d : Disk) (p : Path) : Option String := (d.find? p).bind Node.text?

/-- One step of making a directory: what is missing is made, and a file is in the way. -/
def makeStep (state : Disk × List String) (segment : List Char) : Option (Disk × List String) :=
  let (d, names) := state
  (d.step names segment).bind fun names ↦
    match d.top.get? names with
    | some (.dir _) => some (d, names)
    | some (.file _) => none
    | none => some (⟨d.top.put (.dir []) names⟩, names)

/-- The disk with a directory and all directories above it. -/
def makeDirs (d : Disk) (p : Path) : Option Disk :=
  if p.text == "" then some d
  else if !canFollow p then none
  else ((segmentsOf p).foldlM makeStep (d, [])).map Prod.fst

/-- Whether a segment is the name of an entry. -/
def isName (segment : List Char) : Bool :=
  segment ≠ [] && segment ≠ ['.'] && segment ≠ ['.', '.']

/-- The disk with a file of the given bytes.  Its directory has to be there, and no directory may
be in its place. -/
def write (d : Disk) (p : Path) (bytes : ByteArray) : Option Disk :=
  if isName ((segmentsOf p).getLast?.getD []) then
    (d.way? p).bind fun names ↦
      match d.top.get? names with
      | some (.dir _) => none
      | _ => some ⟨d.top.put (.file bytes) names⟩
  else none

def writeText (d : Disk) (p : Path) (text : String) : Option Disk := d.write p text.toUTF8

/-- The disk without a file. -/
def removeFile (d : Disk) (p : Path) : Option Disk :=
  (d.way? p).bind fun names ↦
    match d.top.get? names, names.getLast?, d.top.get? names.dropLast with
    | some (.file _), some name, some parent =>
      some ⟨d.top.put (.dir (Node.eraseEntry name parent.entries)) names.dropLast⟩
    | _, _, _ => none

/-- All files, by their paths. -/
def files (d : Disk) : List (Path × Node) := (d.top.descendants ⟨""⟩).filter (·.2.isFile)

end Disk

end FrontendSync
