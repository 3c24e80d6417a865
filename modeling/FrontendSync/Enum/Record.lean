import FrontendSync.Module.Literal
import FrontendSync.Path.Basic

/-!
# Enum records

What is generated for an enum: its cases with their values, and groups of values that its methods
return.
-/

namespace FrontendSync

namespace EnumRecord

structure Case where
  name : String
  value : Scalar
  doc : Option String
deriving DecidableEq, Repr

inductive Shape where
  | array
  | record
deriving DecidableEq, Repr

namespace Shape

def name : Shape → String
  | array => "array"
  | record => "record"

end Shape

/-- A value of a group: a case of the enum by its name, or a literal. -/
inductive Entry where
  | ofCase (name : String)
  | ofScalar (s : Scalar)
deriving DecidableEq, Repr

/-- A group; the keys of an array are `0`, `1`, ... in order. -/
structure Group where
  name : String
  shape : Shape
  entries : List (String × Entry)
deriving DecidableEq, Repr

end EnumRecord

structure EnumRecord where
  name : String
  qualified : String
  space : Option String
  doc : Option String
  cases : List EnumRecord.Case
  groups : List EnumRecord.Group
  path : Path
deriving DecidableEq, Repr

end FrontendSync
