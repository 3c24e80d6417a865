import FrontendSync.Disk.Basic
import FrontendSync.Settings.Basic
import FrontendSync.Settings.Toml.Reader

/-!
# Settings files

Settings are written in TOML.  A project without a settings file has the defaults.
-/

namespace FrontendSync.Settings

def ofText? (text : String) : Option Settings :=
  (Toml.parse? text.toList).bind (ofDocument? true)

/-- The settings in a file, or the defaults if it is not there. -/
def load? (d : Disk) (p : Path) : Option Settings :=
  if d.holds p then (d.text? p).bind ofText? else some default

end FrontendSync.Settings
