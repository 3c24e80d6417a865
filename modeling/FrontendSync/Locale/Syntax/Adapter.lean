import FrontendSync.Artifact
import FrontendSync.Locale.Tree
import FrontendSync.Locale.Syntax.Parameter
import FrontendSync.Locale.Syntax.Plural

/-!
# Adapters

An adapter brings locale data into the form that a frontend library reads.  It may replace a text
by several members of the same map.
-/

namespace FrontendSync.Locale

structure Adapter where
  /-- The name of the library in the settings. -/
  name : String
  /-- The members that replace the text of a key. -/
  expand : String → String → Members
  /-- The text that replaces a text without a key when `expand` gives more than one. -/
  inline : String → String

namespace Adapter

/-- Members are added unless their key is taken. -/
def addNew (out : Members) (ms : Members) : Members :=
  ms.foldl (fun out m ↦ if Ordered.contains m.1 out then out else Ordered.insert m.1 m.2 out) out

/-- A text in a list. -/
def item (a : Adapter) (s : String) : Tree :=
  match a.expand "" s with
  | [(_, t)] => t
  | _ => .text (a.inline s)

mutual

/-- The members `ms` adapted, after those already in `out`. -/
def addMembers (a : Adapter) (out : Members) : Members → Members
  | [] => out
  | (k, .text s) :: ms => a.addMembers (addNew out (a.expand k s)) ms
  | (k, t) :: ms => a.addMembers (Ordered.insert k (a.adapt t) out) ms

def adapt (a : Adapter) : Tree → Tree
  | .map ms => .map (a.addMembers [] ms)
  | .list ts => .list (a.adaptItems ts)
  | t => t

def adaptItems (a : Adapter) : List Tree → List Tree
  | [] => []
  | .text s :: ts => a.item s :: a.adaptItems ts
  | t :: ts => a.adapt t :: a.adaptItems ts

end

def transform (a : Adapter) (ms : Members) : Members := a.addMembers [] ms

/-! ## The libraries -/

/-- The first text of each form, in the order of the forms.  A form without a marker is that of
one for the first segment and that of others for the rest. -/
def forms (seen : List PluralForm) (first : Bool) : List Segment → List (PluralForm × List Char)
  | [] => []
  | s :: more =>
    let form := s.form.getD (if first then .one else .other)
    if form ∈ seen then forms seen false more else (form, s.text) :: forms (form :: seen) false more

/-- Parameters between two braces; a plural text becomes a member for each of its forms. -/
def i18next : Adapter where
  name := "i18next"
  expand k s :=
    if isPlural s.toList then
      (forms [] true (segments s.toList)).map fun (form, text) ↦
        (k ++ "_" ++ form.suffix, .text (String.ofList (Brackets.double.substitute text)))
    else [(k, .text (String.ofList (Brackets.double.substitute s.toList)))]
  inline s := String.ofList (Brackets.double.substitute s.toList)

/-- Parameters between braces; the forms of a plural text without their markers, with a separator
between them. -/
def joinForms (separator s : List Char) : List Char :=
  if isPlural s then
    separator.intercalate ((segments s).map fun seg ↦ Brackets.single.substitute seg.text)
  else Brackets.single.substitute s

def vueI18n : Adapter where
  name := "vue-i18n"
  expand k s := [(k, .text (String.ofList (joinForms [' ', '|', ' '] s.toList)))]
  inline s := s

def passthrough : Adapter where
  name := "passthrough"
  expand k s := [(k, .text (String.ofList (joinForms ['|'] s.toList)))]
  inline s := s

/-- Leaves every text as it is. -/
def source : Adapter where
  name := "source"
  expand k s := [(k, .text s)]
  inline s := s

def named? (library : String) : Option Adapter :=
  match Text.choice library with
  | "i18next" | "react-i18next" => some i18next
  | "vue-i18n" | "vue" => some vueI18n
  | "passthrough" => some passthrough
  | "source" | "none" => some source
  | _ => none

end Adapter

end FrontendSync.Locale
