import FrontendSync.Fault
import FrontendSync.Php.Declaration

/-!
# Enum registry

The enums of a project in the order they were found.  Of two enums whose qualified names differ
in letter case only, the first one counts.
-/

namespace FrontendSync

open Php

structure Registry where
  enums : List EnumDecl
  /-- The position of each enum, under its qualified name in lower case. -/
  index : List (String × Nat)
  index_eq_some_iff : ∀ key i, Ordered.get? key index = some i ↔
    ∃ e, enums[i]? = some e ∧ e.qualified.toLower = key

namespace Registry

def empty : Registry := ⟨[], [], by simp⟩

/-- The attribute that marks an enum for generation. -/
def generateMarker : String := "GenerateTs"

/-- The attribute that asks for a translator helper. -/
def translatorMarker : String := "GenerateTranslator"

def contains (r : Registry) (qualified : String) : Bool :=
  Ordered.contains qualified.toLower r.index

theorem getElem?_concat_eq_some_iff {es : List EnumDecl} {e d : EnumDecl} {i : Nat} :
    (es ++ [e])[i]? = some d ↔ es[i]? = some d ∨ es.length = i ∧ e = d := by
  by_cases hi : i < es.length
  · rw [List.getElem?_append_left hi]
    simp [Nat.ne_of_gt hi]
  · have hlength : es.length ≤ i := Nat.le_of_not_lt hi
    rw [List.getElem?_append_right hlength, List.getElem?_eq_none hlength, List.getElem?_singleton]
    have hzero : i - es.length = 0 ↔ es.length = i := by omega
    simp [hzero]

/-- A new name has the position behind all others. -/
theorem get?_insert_index_eq_some_iff {r : Registry} {e : EnumDecl}
    (h : r.contains e.qualified = false) (key : String) (i : Nat) :
    Ordered.get? key (Ordered.insert e.qualified.toLower r.enums.length r.index) = some i ↔
      ∃ d, (r.enums ++ [e])[i]? = some d ∧ d.qualified.toLower = key := by
  simp only [getElem?_concat_eq_some_iff]
  rw [Ordered.get?_insert]
  split
  · rename_i hkey
    constructor
    · intro hi
      exact ⟨e, .inr ⟨Option.some.inj hi, rfl⟩, hkey⟩
    · rintro ⟨d, hold | ⟨rfl, -⟩, hname⟩
      · have hfound := (r.index_eq_some_iff key i).mpr ⟨d, hold, hname⟩
        simp [contains, Ordered.contains, hkey, hfound] at h
      · rfl
  · rename_i hkey
    rw [r.index_eq_some_iff]
    constructor
    · rintro ⟨d, hold, hname⟩
      exact ⟨d, .inl hold, hname⟩
    · rintro ⟨d, hold | ⟨-, rfl⟩, hname⟩
      · exact ⟨d, hold, hname⟩
      · exact absurd hname hkey

/-- A name that is known already is left out. -/
def register (r : Registry) (e : EnumDecl) : Registry :=
  if h : r.contains e.qualified then r
  else
    ⟨r.enums ++ [e], Ordered.insert e.qualified.toLower r.enums.length r.index,
      get?_insert_index_eq_some_iff (by simpa using h)⟩

def registerAll (r : Registry) (es : List EnumDecl) : Registry := es.foldl register r

/-- An enum by its qualified name, which may be rooted. -/
def get? (r : Registry) (name : String) : Option EnumDecl :=
  (Ordered.get? (Name.dropRoot name).toLower r.index).bind (r.enums[·]?)

/-- An enum by its qualified name, or else the first one with that short name. -/
def find? (r : Registry) (name : String) : Option EnumDecl :=
  (r.get? name).or (r.enums.find? fun e ↦ Name.same e.name name)

/-- The enums that are named, each once, in the order of their first mention. -/
def select (r : Registry) (names : List String) : Except Fault (List EnumDecl) :=
  names.foldlM (fun selected name ↦
    match r.find? name with
    | none => .error (.unknownEnum name)
    | some e =>
      .ok (if selected.any (·.qualified == e.qualified) then selected else selected ++ [e])) []

/-- The value of a case, if it has one and it is constant. -/
def caseValue (r : Registry) (className caseName : String) : Option Value :=
  match ((r.get? className).bind (·.case? caseName)).bind CaseDecl.value with
  | some (.ok v) => some v
  | _ => none

/-- Which enums take part in a run that names none. -/
structure Policy where
  /-- Whether backed enums take part without the marker. -/
  allBacked : Bool
  /-- Short or qualified names that never take part. -/
  exclude : List String

namespace Policy

def excludes (p : Policy) (e : EnumDecl) : Bool :=
  p.exclude.any fun name ↦
    Name.same (Name.dropRoot name) e.name || Name.same (Name.dropRoot name) e.qualified

def includes (p : Policy) (e : EnumDecl) : Bool :=
  ((e.attribute? generateMarker).isSome || p.allBacked && e.backing.isSome) && !p.excludes e

end Policy

def included (r : Registry) (p : Policy) : List EnumDecl := r.enums.filter p.includes

end Registry

end FrontendSync
