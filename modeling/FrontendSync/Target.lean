import FrontendSync.Artifact
import FrontendSync.Path.Basic

/-!
# Output targets

Where the files of one kind go: a directory, and a template for their names with places for the
name of the item and the extension of the format.
-/

namespace FrontendSync

structure Target where
  dir : Path
  file : String
  format : Format
deriving DecidableEq, Repr

namespace Target

/-- The file name of an item.  The places are filled one kind after the other. -/
def fileName (t : Target) (name : String) : String :=
  Text.replaceIn "\x7bext\x7d" t.format.extension
    (Text.replaceIn "\x7blocale\x7d" name (Text.replaceIn "\x7bname\x7d" name t.file))

def path (t : Target) (name : String) : Path := t.dir.join ⟨t.fileName name⟩

end Target

end FrontendSync
