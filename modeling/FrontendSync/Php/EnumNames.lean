import FrontendSync.Php.Lexeme
import FrontendSync.Php.Name

/-!
# Names of declared enums

The enums a source declares, by name only: the word `enum` before a plain name, unless it is the
name of a member.  Their bodies are not looked at.
-/

namespace FrontendSync.Php.EnumNames

def isMemberAccess (t : Token) : Bool :=
  t.isPunct .arrow || t.isPunct .nullsafeArrow || t.isPunct .doubleColon

/-- A name that can be declared has no segments. -/
def declared? (space : Option String) (ts : List Token) : Option String :=
  (ts.head?.bind Token.name?).bind fun name ↦
    if name.toList.contains '\\' then none else some (Name.inside space name)

/-- The names among `ts`; `member` tells whether the token before them accesses a member. -/
def among (space : Option String) (member : Bool) : List Token → List String
  | [] => []
  | t :: ts =>
    match t.keyword? with
    | some "namespace" => among ((ts.head?.bind Token.name?).map Name.dropRoot) false ts
    | some "enum" =>
      if member then among space false ts
      else (declared? space ts).toList ++ among space false ts
    | _ => among space (isMemberAccess t) ts

def ofSource (source : String) : List String := among none false (tokens source)

end FrontendSync.Php.EnumNames
