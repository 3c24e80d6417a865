import FrontendSync.Path.Relative

/-!
# Import specifiers

What a generated module writes to import another one: a path below a configured base, or the
relative path without its extension.
-/

namespace FrontendSync.Module.Specifier

/-- Specifiers have forward slashes on every system. -/
def slashed (p : Path) : String :=
  String.ofList (p.text.toList.map fun c ↦ if c = '\\' then '/' else c)

/-- A relative specifier starts with a dot. -/
def dotted (s : String) : String := if s.toList.head? = some '.' then s else "./" ++ s

def relative (source target : Path) : String :=
  let dir := source.parent?.getD ⟨"."⟩
  let target := target.dropExtension
  match target.relative? dir with
  | some p => dotted (slashed p)
  | none => slashed target

def below (base : String) (target : Path) : String :=
  String.ofList (base.toList.reverse.dropWhile (· = '/')).reverse ++ "/" ++ target.stem?.getD ""

/-- The specifier of `target` in the module `source`. -/
def of (base : Option String) (source target : Path) : String :=
  match base with
  | some base => below base target
  | none => relative source target

end FrontendSync.Module.Specifier
