import FrontendSync.CommandLine.Run

/-!
# The program

Reads what is below the working directory, runs, prints, and writes the files that are new or
changed.  Nothing else of the file system is seen.
-/

namespace FrontendSync.CommandLine

/-- How many directories may stand one in the other. -/
def maxNesting : Nat := 64

/-- What is at an entry of a directory.  A file that cannot be read is none of text. -/
def readEntry : Nat → IO.FS.DirEntry → IO Node
  | 0, _ => return .dir []
  | depth + 1, e => do
    if ← e.path.isDir then
      let mut entries := []
      for inner in ← e.path.readDir do
        entries := Node.setEntry inner.fileName (← readEntry depth inner) entries
      return .dir entries
    else try Node.file <$> IO.FS.readBinFile e.path catch _ => return .file ⟨#[0xFF]⟩

/-- Writes the files that the disk before a run did not have. -/
def save (before after : Disk) : IO Unit := do
  for (p, node) in after.files do
    match node, before.find? p with
    | .file bytes, some (.file old) => if bytes != old then IO.FS.writeBinFile p.text bytes
    | .file bytes, _ =>
      IO.FS.createDirAll (p.parent?.getD ⟨"."⟩).text
      IO.FS.writeBinFile p.text bytes
    | .dir _, _ => pure ()

end FrontendSync.CommandLine

open FrontendSync CommandLine

def main (args : List String) : IO UInt32 := do
  let started ← IO.monoMsNow
  let disk : Disk := ⟨← readEntry maxNesting ⟨".", "."⟩⟩
  let run := Run.arguments disk args
  save disk run.disk
  for line in run.printed do
    IO.println line
  if run.ending = .success then
    IO.println ("Done in " ++ Decimal.ofNat ((← IO.monoMsNow) - started) ++ "ms")
  match run.ending with
  | .halted .version => IO.println Invocation.versionLine
  | .halted .help => IO.println Invocation.usage
  | .halted .misuse => IO.eprintln Invocation.usage
  | _ => pure ()
  for line in run.ending.errorLine.toList do
    IO.eprintln line
  return run.ending.exitCode.toUInt32
