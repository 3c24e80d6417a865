import FrontendSync.Locale.Tree
import FrontendSync.Php.Name

/-!
# Keys of locale data

Keys that are class names stand for the class by its short name, at every depth.
-/

namespace FrontendSync.Tree

mutual

def shortKeys : Tree → Tree
  | map ms => map (Ordered.ofList (shortMembers ms))
  | list ts => list (shortItems ts)
  | t => t

def shortMembers : Members → Members
  | [] => []
  | (k, t) :: ms => (Php.Name.short k, shortKeys t) :: shortMembers ms

def shortItems : List Tree → List Tree
  | [] => []
  | t :: ts => shortKeys t :: shortItems ts

end

/-- Members with short keys; of members that get the same key, the last value counts. -/
def normalize (ms : Members) : Members := Ordered.ofList (shortMembers ms)

end FrontendSync.Tree
