import FrontendSync.Php.Lexeme
import FrontendSync.Php.Declaration.Body

/-!
# Source files

The enums that a source declares, and the namespace and imports in effect at its end.
-/

namespace FrontendSync.Php

namespace Import

/-- One class import: the name it is written with after a common part, and an alias after
`as`. -/
def ofTokens? (common : String) : List Token → Option (String × String)
  | [] => none
  | t :: rest =>
    t.name?.map fun written ↦
      let name := Name.dropRoot written
      let qualified := if common = "" then name else common ++ "\\" ++ name
      let short := match rest with
        | as :: short :: _ =>
          if as.isKeyword "as" then short.name?.getD name else Name.short qualified
        | _ => Name.short qualified
      (short.toLower, qualified)

/-- The inside of a group import and what follows it, if a backslash and a brace come next. -/
def braces? : List Token → Option (List Token × List Token)
  | slash :: brace :: rest =>
    if slash.isSymbol '\\' && brace.isPunct .braceOpen then some (Brackets.group 0 rest) else none
  | _ => none

theorem braces?_snd_length_le {ts inside rest : List Token} (h : braces? ts = some (inside, rest)) :
    rest.length ≤ ts.length := by
  unfold braces? at h
  split at h
  · rename_i tail
    have := Brackets.group_snd_length_le 0 tail
    split at h <;> simp_all
    omega
  · simp at h

/-- The imports of a statement between `use` and its semicolon, in order. -/
def ofStatement (ts : List Token) : List (String × String) :=
  match ts with
  | [] => []
  | t :: rest =>
    match t.name? with
    | none => ofStatement rest
    | some name =>
      match _h : braces? rest with
      | some (inside, after) =>
        (Brackets.items inside).filterMap (ofTokens? (Name.dropRoot name)) ++ ofStatement after
      | none =>
        let piece := rest.takeWhile (!Token.isPunct .comma ·)
        (ofTokens? "" (t :: piece)).toList ++ ofStatement (rest.drop (piece.length + 1))
termination_by ts.length
decreasing_by
  · simp
  · have := braces?_snd_length_le _h; simp only [List.length_cons]; omega
  · simp only [List.length_drop, List.length_cons]; omega

/-- Functions and constants are imported by statements of their own, which name no class. -/
def isOfClasses : List Token → Bool
  | [] => true
  | t :: _ => !(t.isKeyword "function" || t.isKeyword "const")

end Import

namespace Scope

/-- The scope after the `use` statement that `ts` holds up to the first semicolon. -/
def addImports (scope : Scope) (ts : List Token) : Scope :=
  if Import.isOfClasses ts then
    { scope with
      imports := Ordered.insertAll scope.imports
        (Import.ofStatement (Brackets.splitAt (Token.isPunct .semicolon) ts).1) }
  else scope

end Scope

namespace EnumDecl

def backing? : List Token → Option Backing
  | t :: _ =>
    match t.keyword? with
    | some "string" => some .string
    | some "int" => some .int
    | _ => none
  | [] => none

/-- The declared type behind a colon, and the tokens from its end on. -/
def readType : List Token → Option Backing × List Token
  | t :: rest => if t.isPunct .colon then (backing? rest, rest.drop 1) else (none, t :: rest)
  | [] => (none, [])

theorem readType_suffix (ts : List Token) : (readType ts).2 <:+ ts := by
  unfold readType
  split
  · split
    · exact (List.drop_suffix 1 _).trans (List.suffix_cons _ _)
    · exact List.suffix_refl _
  · exact List.suffix_refl []

/-- The inside of the first braces, and the tokens after them. -/
def braces? (ts : List Token) : Option (List Token × List Token) :=
  match ts.dropWhile (!Token.isPunct .braceOpen ·) with
  | [] => none
  | _ :: rest => some (Brackets.group 0 rest)

theorem exists_of_braces? {ts : List Token} {group : List Token × List Token}
    (h : braces? ts = some group) :
    ∃ brace rest, brace :: rest <:+ ts ∧ group = Brackets.group 0 rest := by
  unfold braces? at h
  split at h
  · simp at h
  · rename_i brace rest heq
    exact ⟨brace, rest, heq ▸ List.dropWhile_suffix (!Token.isPunct .braceOpen ·),
      (Option.some.inj h).symm⟩

theorem braces?_suffix {ts : List Token} {group : List Token × List Token}
    (h : braces? ts = some group) : group.2 <:+ ts := by
  obtain ⟨brace, rest, hrest, rfl⟩ := exists_of_braces? h
  exact ((Brackets.group_suffix 0 rest).trans (List.suffix_cons brace rest)).trans hrest

/-- The enum with the given name whose type and body are in `ts`, and the tokens after it. -/
def readNamed? (scope : Scope) (attributes : List Attribute) (doc : Option String) (name : String)
    (ts : List Token) : Option (EnumDecl × List Token) :=
  (braces? (readType ts).2).map fun group ↦
    let qualified := Name.inside scope.space name
    let members := Members.read ⟨scope, some qualified, fun _ _ ↦ none⟩ none true false group.1
    (⟨name, qualified, scope.space, (readType ts).1, attributes, doc, members.cases,
      members.methods, scope, ""⟩, group.2)

/-- The enum whose `enum` keyword stands before `ts`, and the tokens after its body.  There is
none without a name or an opening brace. -/
def read? (scope : Scope) (attributes : List Attribute) (doc : Option String) :
    List Token → Option (EnumDecl × List Token)
  | [] => none
  | t :: rest => t.name?.bind fun name ↦ readNamed? scope attributes doc name rest

section Read

variable {scope : Scope} {attributes : List Attribute} {doc : Option String} {ts : List Token}
  {r : EnumDecl × List Token}

/-- An enum that is read has the name in front, and its members are those in the braces behind the
name and the type. -/
theorem exists_of_read? (h : read? scope attributes doc ts = some r) :
    ∃ t rest name group, ts = t :: rest ∧ t.name? = some name ∧
      braces? (readType rest).2 = some group ∧ ∃ members,
        members = Members.read ⟨scope, some (Name.inside scope.space name), fun _ _ ↦ none⟩ none
          true false group.1 ∧
        r = (⟨name, Name.inside scope.space name, scope.space, (readType rest).1, attributes, doc,
          members.cases, members.methods, scope, ""⟩, group.2) := by
  cases ts with
  | nil => simp [read?] at h
  | cons t rest =>
    simp only [read?, Option.bind_eq_some_iff, readNamed?, Option.map_eq_some_iff] at h
    obtain ⟨name, hname, group, hgroup, rfl⟩ := h
    exact ⟨t, rest, name, group, rfl, hname, hgroup, _, rfl, rfl⟩

theorem read?_suffix (h : read? scope attributes doc ts = some r) : r.2 <:+ ts := by
  obtain ⟨t, rest, name, group, rfl, -, hgroup, members, -, rfl⟩ := exists_of_read? h
  exact ((braces?_suffix hgroup).trans (readType_suffix rest)).trans (List.suffix_cons t rest)

theorem read?_snd_length_lt (h : read? scope attributes doc ts = some r) :
    r.2.length < ts.length := by
  obtain ⟨t, rest, name, group, rfl, -, hgroup, members, -, rfl⟩ := exists_of_read? h
  exact Nat.lt_succ_of_le ((braces?_suffix hgroup).trans (readType_suffix rest)).length_le

end Read

end EnumDecl

/-- The state between two tokens of a file: the scope, the depth of open braces, the depth at
which the braces of a namespace were opened, and the attributes and documentation for the
declaration to come. -/
structure FileState where
  scope : Scope
  depth : Nat
  block : Option Nat
  attributes : List Attribute
  doc : Option String

namespace FileState

def start : FileState := ⟨Scope.empty, 0, none, [], none⟩

/-- Imports stand at this depth of braces. -/
def importDepth (s : FileState) : Nat :=
  match s.block with
  | some d => d + 1
  | none => 0

def dropPending (s : FileState) : FileState := { s with attributes := [], doc := none }

def openBrace (s : FileState) : FileState := { s with depth := s.depth + 1 }

/-- The brace that closes a namespace ends its scope. -/
def closeBrace (s : FileState) : FileState :=
  let depth := s.depth - 1
  if s.block = some depth then { s with depth := depth, block := none, scope := Scope.empty }
  else { s with depth := depth }

/-- The name that comes next, if any, and the tokens after it. -/
def spaceName : List Token → Option String × List Token
  | [] => (none, [])
  | t :: rest => if t.name?.isSome then (t.name?, rest) else (none, t :: rest)

/-- The state after a namespace declaration without its keyword.  A brace behind the name opens a
block. -/
def enterNamespace (s : FileState) (ts : List Token) : FileState :=
  let (name, ts) := spaceName ts
  if ts.head?.any (Token.isPunct .braceOpen) then
    { s with scope := ⟨name, []⟩, block := some s.depth, depth := s.depth + 1 }
  else { s with scope := ⟨name, []⟩ }

/-- The tokens after a namespace declaration: the one behind the name belongs to it. -/
def afterNamespace (ts : List Token) : List Token := (spaceName ts).2.drop 1

theorem spaceName_suffix (ts : List Token) : (spaceName ts).2 <:+ ts := by
  unfold spaceName
  split
  · exact List.suffix_refl []
  · split
    · exact List.suffix_cons _ _
    · exact List.suffix_refl _

theorem afterNamespace_suffix (ts : List Token) : afterNamespace ts <:+ ts :=
  (List.drop_suffix 1 _).trans (spaceName_suffix ts)

theorem afterNamespace_length_le (ts : List Token) : (afterNamespace ts).length ≤ ts.length :=
  (afterNamespace_suffix ts).length_le

end FileState

/-- The enums of a source, in order, and the scope at its end. -/
structure SourceFile where
  enums : List EnumDecl
  scope : Scope

namespace SourceFile

def addEnum (e : EnumDecl) (f : SourceFile) : SourceFile := { f with enums := e :: f.enums }

def attributeContext (scope : Scope) : Context := ⟨scope, none, fun _ _ ↦ none⟩

/-- Documentation, attributes and modifiers wait for the declaration they stand before; any other
token drops them. -/
def read (s : FileState) (ts : List Token) : SourceFile :=
  match ts with
  | [] => ⟨[], s.scope⟩
  | t :: rest =>
    match t.kind with
    | .docComment raw => read { s with doc := DocComment.text? raw } rest
    | .punct .attributeOpen =>
      have := Attribute.readGroup_snd_length_le (attributeContext s.scope) rest
      let group := Attribute.readGroup (attributeContext s.scope) rest
      read { s with attributes := s.attributes ++ group.1 } group.2
    | .punct .braceOpen => read s.openBrace.dropPending rest
    | .punct .braceClose => read s.closeBrace.dropPending rest
    | .name word =>
      match word.toLower with
      | "namespace" =>
        have := FileState.afterNamespace_length_le rest
        read (s.enterNamespace rest) (FileState.afterNamespace rest)
      | "use" =>
        if s.depth = s.importDepth then
          have := Brackets.splitAt_snd_length_le (Token.isPunct .semicolon) rest
          read { s with scope := s.scope.addImports rest }
            (Brackets.splitAt (Token.isPunct .semicolon) rest).2
        else read s.dropPending rest
      | "enum" =>
        match _h : EnumDecl.read? s.scope s.attributes s.doc rest with
        | some r =>
          have := EnumDecl.read?_snd_length_lt _h
          addEnum r.1 (read s.dropPending r.2)
        | none => read s.dropPending rest
      | "final" | "readonly" | "abstract" => read s rest
      | _ => read s.dropPending rest
    | _ => read s.dropPending rest
termination_by ts.length
decreasing_by all_goals simp_all <;> omega

def ofTokens (ts : List Token) : SourceFile := read FileState.start ts

def ofSource (source : String) : SourceFile := ofTokens (tokens source)

end SourceFile

end FrontendSync.Php
