import FrontendSync.Enum.Record
import FrontendSync.Registry
import FrontendSync.Target
import FrontendSync.Text.Upper

/-!
# Records of declared enums

The record of an enum as its declaration and the arguments of its marker ask for it.  The first
fault in the order of the declaration is reported.
-/

namespace FrontendSync.EnumRecord

open Php

/-- What the marker of an enum asks for. -/
structure Wishes where
  needsDocs : Bool
  methods : List String

namespace Wishes

def of (e : EnumDecl) : Wishes :=
  match e.attribute? Registry.generateMarker with
  | some a => ⟨a.boolArg "requiresComments" 0 false, a.stringsArg "includeMethods" 1⟩
  | none => ⟨false, []⟩

end Wishes

/-- The value of a case, which has to be of the type of the enum. -/
def caseValue (backing : Backing) (c : CaseDecl) : Except CaseFault Scalar :=
  match c.value, backing with
  | some (.ok (.string s)), .string => .ok (.string s)
  | some (.ok (.int n)), .int => .ok (.int n)
  | some (.ok v), _ => .error (.mismatch v.kindName)
  | some (.error e), _ => .error (.expression e)
  | none, _ => .error .noValue

def caseOf (enumName : String) (backing : Backing) (needsDocs : Bool) (c : CaseDecl) :
    Except Fault Case :=
  match caseValue backing c with
  | .error cause => .error (.caseValue enumName c.name cause)
  | .ok v =>
    if needsDocs && c.doc.isNone then .error (.missingDoc enumName c.name)
    else .ok ⟨c.name, v, c.doc⟩

def casesOf (e : EnumDecl) (needsDocs : Bool) : Except Fault (List Case) :=
  match e.backing with
  | none => .error (.caseValue e.name ((e.cases.head?.map CaseDecl.name).getD "") .notBacked)
  | some backing => e.cases.mapM (caseOf e.name backing needsDocs)

/-- The value that a body of the form `return ...;` returns. -/
def returnedValue (ctx : Context) (body : List Token) : Except ReturnFault Value :=
  match body with
  | [] => .error .notSingle
  | t :: ts =>
    if t.isKeyword "return" then
      match Expression.read ctx ts with
      | .error e _ => .error (.expression e)
      | .value v [semicolon] _ =>
        if semicolon.isPunct .semicolon then .ok v else .error .notSingle
      | .value _ _ _ => .error .notSingle
    else .error .notSingle

def returnedEntries (ctx : Context) (body : List Token) :
    Except ReturnFault (List (Key × Value)) :=
  match returnedValue ctx body with
  | .ok (.array entries) => .ok entries
  | .ok v => .error (.notArray v.kindName)
  | .error cause => .error cause

/-- A value of a group: a scalar, or a case of the enum itself. -/
def entryOf (e : EnumDecl) : Value → Except EntryFault Entry
  | .null => .ok (.ofScalar .null)
  | .bool b => .ok (.ofScalar (.bool b))
  | .int n => .ok (.ofScalar (.int n))
  | .float x => .ok (.ofScalar (.float x))
  | .string s => .ok (.ofScalar (.string s))
  | .enumCase className caseName =>
    if !Name.same className e.qualified then .error (.foreignCase className caseName)
    else if (e.case? caseName).isNone then .error (.unknownCase caseName e.name)
    else .ok (.ofCase caseName)
  | .array _ => .error .nestedArray

/-- The name of a group: that of its method with the first character in upper case. -/
def groupName (method : String) : String :=
  match method.toList with
  | [] => ""
  | c :: cs => String.ofList (Text.upper c ++ cs)

/-- The entries of a group from what method `m` returns. -/
def entriesOf (e : EnumDecl) (m : MethodDecl) (entries : List (Key × Value)) :
    Except Fault (List (String × Entry)) :=
  entries.mapM fun (k, v) ↦
    match entryOf e v with
    | .ok entry => .ok (k.text, entry)
    | .error cause => .error (.groupEntry e.name m.name k.text cause)

/-- The group that a method returns.  Only public static methods without parameters do. -/
def groupOf (lookup : String → String → Option Value) (e : EnumDecl) (method : String) :
    Except Fault Group :=
  match e.method? method with
  | none => .error (.noMethod e.name method)
  | some m =>
    if m.params ≠ 0 then .error (.methodParams e.name m.name m.params)
    else if !m.isPublic || !m.isStatic then .error (.methodBinding e.name m.name m.line)
    else
      match returnedEntries ⟨e.scope, some e.qualified, lookup⟩ (m.body.getD []) with
      | .error cause => .error (.methodReturn e.name m.name cause)
      | .ok entries =>
        (entriesOf e m entries).map fun es ↦
          ⟨groupName m.name, if Value.isList entries then .array else .record, es⟩

/-- The groups of methods, after those of the methods before them.  Their names differ from each
other and from the name of the enum. -/
def groupsOf (lookup : String → String → Option Value) (e : EnumDecl)
    (before : List (String × Group)) : List String → Except Fault (List Group)
  | [] => .ok (before.map Prod.snd)
  | method :: methods =>
    match groupOf lookup e method with
    | .error fault => .error fault
    | .ok g =>
      if g.name == e.name then .error (.groupName e.name g.name .theEnum)
      else
        match before.find? (·.2.name == g.name) with
        | some (other, _) => .error (.groupName e.name g.name (.groupOf other))
        | none => groupsOf lookup e (before ++ [(method, g)]) methods

/-- The record of an enum; `lookup` knows the values of the cases of all enums. -/
def ofDecl (lookup : String → String → Option Value) (target : Target) (e : EnumDecl) :
    Except Fault EnumRecord := do
  let wishes := Wishes.of e
  let cases ← casesOf e wishes.needsDocs
  let groups ← groupsOf lookup e [] wishes.methods
  return ⟨e.name, e.qualified, e.space, e.doc, cases, groups, target.path e.name⟩

end FrontendSync.EnumRecord
