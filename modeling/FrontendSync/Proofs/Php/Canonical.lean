import FrontendSync.Enum.OfDecl
import FrontendSync.Proofs.Php.DocComment
import FrontendSync.Proofs.Php.Nesting
import FrontendSync.Proofs.Registry

/-!
# Canonical enums

An enum as its cases and the groups that its methods return, and the source it is written as.
-/

namespace FrontendSync.Php

open EnumRecord (Entry)
open Lexeme (ofKind blank commaList)

/-- A backed enum with its documentation, its cases, and its methods with the entries they
return. -/
structure CanonicalEnum where
  space : Option (List String)
  name : String
  backing : Backing
  doc : Option String
  cases : List EnumRecord.Case
  groups : List (String × List (Key × Entry))

namespace Lexeme

def word (text : String) : Lexeme := ofKind (.name text)

def mark (p : Punct) : Lexeme := ofKind (.punct p)

def lineBreak : Lexeme := blank '\n'

/-- Words with a space after each. -/
def words (texts : List String) : List Lexeme := texts.flatMap fun text ↦ [word text, blank ' ']

def indent (n : Nat) : List Lexeme := List.replicate n (blank ' ')

/-- A documentation comment of one line. -/
def doc (text : String) : Lexeme := ofKind (.docComment (DocComment.frame text))

def docLine (depth : Nat) : Option String → List Lexeme
  | some text => indent depth ++ [doc text, lineBreak]
  | none => []

end Lexeme

open Lexeme (word mark lineBreak words indent docLine)

def Value.ofScalar : Scalar → Value
  | .null => .null
  | .bool b => .bool b
  | .int n => .int n
  | .float x => .float x
  | .string s => .string s

/-- The value of an entry in the class of its enum. -/
def Value.ofEntry (className : String) : Entry → Value
  | .ofCase name => .enumCase className name
  | .ofScalar s => .ofScalar s

namespace Backing

def name : Backing → String
  | string => "string"
  | int => "int"

end Backing

namespace CanonicalEnum

/-- The namespace as it is written. -/
def spaceName (e : CanonicalEnum) : Option String :=
  e.space.map fun segments ↦ String.ofList (Text.join '\\' (segments.map String.toList))

def qualified (e : CanonicalEnum) : String := Name.inside e.spaceName e.name

def spaceLexemes : Option String → List Lexeme
  | some name => words ["namespace"] ++ [word name, mark .semicolon, lineBreak, lineBreak]
  | none => []

def attributeLexemes (methods : List String) : List Lexeme :=
  [mark .attributeOpen, word Registry.generateMarker, mark .parenOpen, word "includeMethods",
    mark .colon, blank ' ', mark .bracketOpen]
  ++ commaList (methods.map fun m ↦ [ofKind (.string m)])
  ++ [mark .bracketClose, mark .parenClose, mark .bracketClose, lineBreak]

def caseLexemes (c : EnumRecord.Case) : List Lexeme :=
  docLine 4 c.doc ++ indent 4 ++ words ["case", c.name] ++ [mark .assign, blank ' ']
  ++ (Value.ofScalar c.value).lexemes id ++ [mark .semicolon, lineBreak]

/-- The value a method returns. -/
def returned (className : String) (entries : List (Key × Entry)) : Value :=
  .array (entries.map fun e ↦ (e.1, .ofEntry className e.2))

/-- The body of a method; `own` is how the enum calls itself. -/
def bodyLexemes (own className : String) (entries : List (Key × Entry)) : List Lexeme :=
  lineBreak :: indent 8 ++ words ["return"] ++ (returned className entries).lexemes (fun _ ↦ own)
  ++ [mark .semicolon, lineBreak] ++ indent 4

def methodLexemes (own className : String) (g : String × List (Key × Entry)) : List Lexeme :=
  indent 4 ++ words ["public", "static", "function"]
  ++ [word g.1, mark .parenOpen, mark .parenClose, mark .colon, blank ' ']
  ++ words ["array"] ++ [mark .braceOpen] ++ bodyLexemes own className g.2
  ++ [mark .braceClose, lineBreak]

/-- What stands between the braces of an enum that calls itself `own`. -/
def memberLexemes (own : String) (e : CanonicalEnum) : List Lexeme :=
  e.cases.flatMap caseLexemes ++ e.groups.flatMap (methodLexemes own e.qualified)

def lexemes (own : String) (e : CanonicalEnum) : List Lexeme :=
  [Lexeme.openTag, lineBreak, lineBreak] ++ spaceLexemes e.spaceName ++ docLine 0 e.doc
  ++ attributeLexemes (e.groups.map Prod.fst)
  ++ words ["enum"] ++ [word e.name, mark .colon, blank ' '] ++ words [e.backing.name]
  ++ [mark .braceOpen, lineBreak] ++ e.memberLexemes own ++ [mark .braceClose, lineBreak]

def source (own : String) (e : CanonicalEnum) : String :=
  String.ofList (Lexeme.textOf (e.lexemes own))

end CanonicalEnum

/-! ## Canonical enums -/

/-- The integers whose negative and whose successor are no further from zero than the greatest. -/
def IsCanonicalInt (n : Int) : Prop := -Decimal.maxInt ≤ n ∧ n < Decimal.maxInt

instance : DecidablePred IsCanonicalInt := fun _ ↦ inferInstanceAs (Decidable (_ ∧ _))

theorem IsCanonicalInt.isLiteral {n : Int} (h : IsCanonicalInt n) : Decimal.IsLiteral n :=
  ⟨h.1, Int.le_of_lt h.2⟩

def Key.IsCanonical : Key → Prop
  | .int n => IsCanonicalInt n
  | .string text => Decimal.canonicalInt? text.toList = none

instance : DecidablePred Key.IsCanonical
  | .int n => inferInstanceAs (Decidable (IsCanonicalInt n))
  | .string _ => inferInstanceAs (Decidable (_ = none))

theorem Key.IsCanonical.isWritable {k : Key} (h : k.IsCanonical) : k.IsWritable := by
  cases k with
  | int n => exact IsCanonicalInt.isLiteral h
  | string text => exact h

/-- A name with an upper-case letter at its start. -/
def capitalized (name : String) : String :=
  match name.toList with
  | [] => ""
  | c :: s => String.ofList (c.toUpper :: s)

namespace CanonicalEnum

/-- A value of the backing type. -/
def IsBacked : Backing → Scalar → Prop
  | .string, .string _ => True
  | .int, .int n => IsCanonicalInt n
  | _, _ => False

instance : (b : Backing) → DecidablePred (IsBacked b)
  | .string, .string _ => .isTrue trivial
  | .int, .int n => inferInstanceAs (Decidable (IsCanonicalInt n))
  | .string, .null | .string, .bool _ | .string, .int _ | .string, .float _ => .isFalse id
  | .int, .null | .int, .bool _ | .int, .float _ | .int, .string _ => .isFalse id

/-- A scalar other than a floating point number, or a case by its name. -/
def IsCanonicalEntry (caseNames : List String) : Entry → Prop
  | .ofCase name => name ∈ caseNames
  | .ofScalar (.int n) => IsCanonicalInt n
  | .ofScalar (.float _) => False
  | .ofScalar _ => True

instance (caseNames : List String) : DecidablePred (IsCanonicalEntry caseNames)
  | .ofCase name => inferInstanceAs (Decidable (name ∈ caseNames))
  | .ofScalar (.int n) => inferInstanceAs (Decidable (IsCanonicalInt n))
  | .ofScalar (.float _) => .isFalse id
  | .ofScalar .null | .ofScalar (.bool _) | .ofScalar (.string _) => .isTrue trivial

@[mk_iff]
structure IsCanonicalCase (backing : Backing) (c : EnumRecord.Case) : Prop where
  name : isIdentifier c.name.toList = true
  notClass : c.name.toLower ≠ "class"
  value : IsBacked backing c.value
  doc : ∀ text ∈ c.doc, DocComment.IsDocLine text.toList

instance (backing : Backing) : DecidablePred (IsCanonicalCase backing) := fun c ↦
  decidable_of_iff _ (isCanonicalCase_iff backing c).symm

@[mk_iff]
structure IsCanonicalGroup (caseNames : List String) (g : String × List (Key × Entry)) : Prop where
  name : isIdentifier g.1.toList = true
  keys : (Ordered.keys g.2).Nodup
  entries : ∀ e ∈ g.2, e.1.IsCanonical ∧ IsCanonicalEntry caseNames e.2

instance (caseNames : List String) : DecidablePred (IsCanonicalGroup caseNames) := fun g ↦
  decidable_of_iff _ (isCanonicalGroup_iff caseNames g).symm

/-- What the source of an enum needs to say so that it is read back: names are names, no two
members have one name, and no group has the name of the enum. -/
@[mk_iff]
structure IsCanonical (e : CanonicalEnum) : Prop where
  space : ∀ segments ∈ e.space, segments ≠ [] ∧ ∀ s ∈ segments, isIdentifier s.toList = true
  name : isIdentifier e.name.toList = true
  doc : ∀ text ∈ e.doc, DocComment.IsDocLine text.toList
  cases : ∀ c ∈ e.cases, IsCanonicalCase e.backing c
  caseNames : (e.cases.map EnumRecord.Case.name).Nodup
  groups : ∀ g ∈ e.groups, IsCanonicalGroup (e.cases.map EnumRecord.Case.name) g
  methodNames : (e.groups.map fun g ↦ g.1.toLower).Nodup
  groupNames : ∀ g ∈ e.groups, capitalized g.1 ≠ e.name

instance : DecidablePred IsCanonical := fun e ↦ decidable_of_iff _ (isCanonical_iff e).symm

/-- The names by which an enum can refer to its own cases. -/
def IsOwnName (e : CanonicalEnum) (own : String) : Prop :=
  own = "self" ∨ own = "static" ∨ own = e.name

end CanonicalEnum

/-! ## Reading the lexemes of the source -/

namespace Lexeme

/-- Lexemes that are read before whatever follows. -/
def AreStandalone (ls : List Lexeme) : Prop := ∀ rest, AreReadBefore ls rest

theorem areStandalone_nil : AreStandalone [] := fun _ ↦ trivial

theorem AreStandalone.append {ls ms : List Lexeme} (hl : AreStandalone ls)
    (hm : AreStandalone ms) : AreStandalone (ls ++ ms) := fun _ ↦
  areReadBefore_append.mpr ⟨hl _, hm _⟩

theorem areStandalone_flatMap {α : Type} {f : α → List Lexeme} {xs : List α}
    (h : ∀ x ∈ xs, AreStandalone (f x)) : AreStandalone (xs.flatMap f) := by
  induction xs with
  | nil => exact areStandalone_nil
  | cons x xs ih =>
    obtain ⟨hx, hxs⟩ := List.forall_mem_cons.mp h
    exact hx.append (ih hxs)

theorem areStandalone_blank {c : Char} (h : Text.isBlank c = true) : AreStandalone [blank c] :=
  fun _ ↦ ⟨isReadBefore_blank h _, trivial⟩

theorem areStandalone_indent (n : Nat) : AreStandalone (indent n) := by
  induction n with
  | zero => exact areStandalone_nil
  | succ n ih =>
    rw [indent, List.replicate_succ]
    exact (areStandalone_blank (by decide)).append ih

/-- Marks that no other mark starts with. -/
def isFinal (p : Punct) : Bool := p ∉ [.colon, .assign, .question, .dot, .minus]

theorem areStandalone_mark {p : Punct} (h : isFinal p = true) : AreStandalone [mark p] := by
  intro rest
  refine ⟨isReadBefore_punct ?_, trivial⟩
  cases p <;> trivial

/-- Lexemes that need something behind them, and what stands behind them. -/
theorem AreSeparable.standalone {ls ms : List Lexeme} (hl : AreSeparable ls)
    (hm : AreStandalone ms) (hbreaks : ∀ rest, Breaks (textOf ms ++ rest)) :
    AreStandalone (ls ++ ms) := fun rest ↦
  areReadBefore_append.mpr ⟨hl _ (hbreaks rest), hm rest⟩

theorem areStandalone_words {texts : List String} (h : ∀ t ∈ texts, IsName t.toList) :
    AreStandalone (words texts) :=
  areStandalone_flatMap fun t ht ↦
    (areSeparable_name (h t ht)).standalone (areStandalone_blank (by decide)) fun _ ↦
      breaks_cons (by decide) _

theorem isReadBefore_word {text : String} (h : isIdentifier text.toList = true) {rest : List Char}
    (hbreaks : Breaks rest) : (word text).IsReadBefore rest :=
  (areSeparable_name (isName_of_isIdentifier h) rest hbreaks).1

theorem areStandalone_docLine (n : Nat) {doc : Option String}
    (h : ∀ text ∈ doc, DocComment.IsDocLine text.toList) : AreStandalone (docLine n doc) := by
  cases doc with
  | none => exact areStandalone_nil
  | some text =>
    refine (areStandalone_indent n).append fun rest ↦ ?_
    exact ⟨isReadBefore_docComment (h text rfl).isSpelled _, areStandalone_blank (by decide) rest⟩

end Lexeme

/-! ## The source is read as its lexemes -/

theorem isName_of_mem_identifiers {texts : List String}
    (h : texts.all (fun t ↦ isIdentifier t.toList) = true) : ∀ t ∈ texts, IsName t.toList :=
  fun t ht ↦ isName_of_isIdentifier (List.all_eq_true.mp h t ht)

/-- Segments with backslashes between them are a name. -/
theorem isName_join {segments : List String} (hne : segments ≠ [])
    (h : ∀ s ∈ segments, isIdentifier s.toList = true) :
    IsName (Text.join '\\' (segments.map String.toList)) := by
  -- the name after a backslash starts with a letter and not with another backslash
  suffices hstart : ∃ c s, Text.join '\\' (segments.map String.toList) = c :: s ∧
      Text.isBlank c = false ∧ Lexeme.isNameStart c = true ∧ IsNameTail s by
    obtain ⟨c, s, heq, hblank, hc, hs⟩ := hstart
    rw [heq]
    exact isName_cons hblank hc hs
  induction segments with
  | nil => exact absurd rfl hne
  | cons segment segments ih =>
    obtain ⟨hsegment, hsegments⟩ := List.forall_mem_cons.mp h
    obtain ⟨c, s, heq, hblank, hc, hs⟩ := exists_of_isIdentifier hsegment
    cases segments with
    | nil => exact ⟨c, s, heq, hblank, hc, isNameTail_of_all hs⟩
    | cons next more =>
      obtain ⟨d, t, hjoin, -, hd, ht⟩ := ih (List.cons_ne_nil _ _) hsegments
      refine ⟨c, s ++ '\\' :: d :: t, ?_, hblank, hc, ?_⟩
      · rw [← List.cons_append, ← heq, ← hjoin]
        rfl
      · refine isNameTail_append hs ⟨.inr ⟨rfl, by simpa using hd⟩, ?_⟩
        exact ⟨.inl (Lexeme.isNameChar_of_isNameStart hd), ht⟩

/-- Without imports, an identifier is a name of the namespace. -/
theorem Scope.resolve_of_isIdentifier (space : Option String) {name : String}
    (h : isIdentifier name.toList = true) : resolve ⟨space, []⟩ name = Name.inside space name := by
  obtain ⟨c, s, heq, -, hc, -⟩ := exists_of_isIdentifier h
  rw [resolve, heq]
  split
  · rename_i habsolute
    obtain ⟨rfl, -⟩ := List.cons.inj habsolute
    exact absurd hc (by decide)
  · rfl

namespace CanonicalEnum

open Lexeme

theorem areStandalone_spaceLexemes {space : Option String}
    (h : ∀ name ∈ space, IsName name.toList) : AreStandalone (spaceLexemes space) := by
  cases space with
  | none => exact areStandalone_nil
  | some name =>
    have hend : AreStandalone [mark .semicolon, lineBreak, lineBreak] :=
      (areStandalone_mark rfl).append
        ((areStandalone_blank (by decide)).append (areStandalone_blank (by decide)))
    refine (areStandalone_words (isName_of_mem_identifiers (by decide))).append ?_
    exact (areSeparable_name (h name rfl)).standalone hend fun _ ↦ breaks_cons (by decide) _

theorem areStandalone_attributeLexemes (methods : List String) :
    AreStandalone (attributeLexemes methods) := by
  have hopen : AreStandalone [mark .attributeOpen, word Registry.generateMarker, mark .parenOpen,
      word "includeMethods", mark .colon, blank ' ', mark .bracketOpen] := fun rest ↦
    ⟨isReadBefore_punct trivial, isReadBefore_word (by decide) (breaks_cons (by decide) _),
      isReadBefore_punct trivial, isReadBefore_word (by decide) (breaks_cons (by decide) _),
      isReadBefore_punct (by simp [Token.Kind.Stops, blank]), isReadBefore_blank (by decide) _,
      isReadBefore_punct trivial, trivial⟩
  have hmethods : AreSeparable (commaList (methods.map fun m ↦ [ofKind (.string m)])) := by
    refine areSeparable_commaList fun i hi ↦ ?_
    obtain ⟨m, -, rfl⟩ := List.mem_map.mp hi
    exact areSeparable_string m
  have hclose :
      AreStandalone [mark .bracketClose, mark .parenClose, mark .bracketClose, lineBreak] :=
    (areStandalone_mark rfl).append ((areStandalone_mark rfl).append
      ((areStandalone_mark rfl).append (areStandalone_blank (by decide))))
  rw [attributeLexemes, List.append_assoc]
  exact hopen.append (hmethods.standalone hclose fun _ ↦ breaks_cons (by decide) _)

variable {backing : Backing} {ctx : Context} {write : String → String}

theorem isWritable_of_isBacked {v : Scalar} (h : IsBacked backing v) :
    (Value.ofScalar v).IsWritable ctx write := by
  cases backing <;> cases v <;> first | exact h.elim | skip
  · exact .string _
  · exact .int h.isLiteral

theorem areStandalone_semicolon : AreStandalone [mark .semicolon, lineBreak] :=
  (areStandalone_mark rfl).append (areStandalone_blank (by decide))

theorem areStandalone_caseLexemes {c : EnumRecord.Case} (h : IsCanonicalCase backing c) :
    AreStandalone (caseLexemes c) := by
  have hassign : AreStandalone [mark .assign, blank ' '] := fun rest ↦
    ⟨isReadBefore_punct ⟨by simp [blank], by simp [blank]⟩, isReadBefore_blank (by decide) _,
      trivial⟩
  have hwords : AreStandalone (words ["case", c.name]) := by
    refine areStandalone_words (isName_of_mem_identifiers ?_)
    simp [h.name]
    decide
  have hwritable : (Value.ofScalar c.value).IsWritable (SourceFile.attributeContext Scope.empty) id :=
    isWritable_of_isBacked h.value
  have hvalue := hwritable.areSeparable
  rw [caseLexemes, List.append_assoc]
  exact ((((areStandalone_docLine 4 h.doc).append (areStandalone_indent 4)).append hwords).append
    hassign).append (hvalue.standalone areStandalone_semicolon fun _ ↦ breaks_cons (by decide) _)

/-- The value of a canonical entry can be written with a name that stands for its class. -/
theorem isWritable_ofEntry {own className : String} {caseNames : List String}
    (hown : IsName own.toList) (hclass : Expression.className? ctx own = some className)
    (hcases : ∀ name ∈ caseNames, isIdentifier name.toList = true ∧ name.toLower ≠ "class")
    {e : Entry} (h : IsCanonicalEntry caseNames e) :
    (Value.ofEntry className e).IsWritable ctx (fun _ ↦ own) := by
  cases e with
  | ofCase name =>
    obtain ⟨hname, hnotClass⟩ := hcases name h
    exact .enumCase hclass hown (isName_of_isIdentifier hname) hnotClass
  | ofScalar s =>
    cases s with
    | null => exact .null
    | bool b => exact .bool b
    | int n => exact .int (IsCanonicalInt.isLiteral h)
    | float x => exact h.elim
    | string text => exact .string text

theorem isWritable_returned {own className : String} {caseNames : List String}
    (hown : IsName own.toList) (hclass : Expression.className? ctx own = some className)
    (hcases : ∀ name ∈ caseNames, isIdentifier name.toList = true ∧ name.toLower ≠ "class")
    {g : String × List (Key × Entry)} (h : IsCanonicalGroup caseNames g) :
    (returned className g.2).IsWritable ctx (fun _ ↦ own) := by
  constructor
  · rw [Ordered.keys, List.map_map]
    exact h.keys
  · intro e he
    obtain ⟨p, hp, rfl⟩ := List.mem_map.mp he
    exact (h.entries p hp).1.isWritable
  · intro e he
    obtain ⟨p, hp, rfl⟩ := List.mem_map.mp he
    exact isWritable_ofEntry hown hclass hcases (h.entries p hp).2

theorem areStandalone_bodyLexemes {own className : String} {entries : List (Key × Entry)}
    (h : (returned className entries).IsWritable ctx (fun _ ↦ own)) :
    AreStandalone (bodyLexemes own className entries) := by
  have hreturn : AreStandalone (words ["return"]) :=
    areStandalone_words (isName_of_mem_identifiers (by decide))
  have hvalue := h.areSeparable.standalone areStandalone_semicolon fun _ ↦
    breaks_cons (by decide) _
  have hstart := ((areStandalone_blank (c := '\n') (by decide)).append
    (areStandalone_indent 8)).append hreturn
  have hall := (hstart.append hvalue).append (areStandalone_indent 4)
  rwa [← List.append_assoc] at hall

theorem areStandalone_methodLexemes {own className : String} {g : String × List (Key × Entry)}
    (hname : isIdentifier g.1.toList = true)
    (h : (returned className g.2).IsWritable ctx (fun _ ↦ own)) :
    AreStandalone (methodLexemes own className g) := by
  have hmodifiers : AreStandalone (words ["public", "static", "function"]) :=
    areStandalone_words (isName_of_mem_identifiers (by decide))
  have hsignature : AreStandalone
      [word g.1, mark .parenOpen, mark .parenClose, mark .colon, blank ' '] := fun rest ↦
    ⟨isReadBefore_word hname (breaks_cons (by decide) _), isReadBefore_punct trivial,
      isReadBefore_punct trivial, isReadBefore_punct (by simp [Token.Kind.Stops, blank]),
      isReadBefore_blank (by decide) _, trivial⟩
  have htype : AreStandalone (words ["array"]) :=
    areStandalone_words (isName_of_mem_identifiers (by decide))
  have hend : AreStandalone [mark .braceClose, lineBreak] :=
    (areStandalone_mark rfl).append (areStandalone_blank (by decide))
  exact ((((((areStandalone_indent 4).append hmodifiers).append hsignature).append htype).append
    (areStandalone_mark rfl)).append (areStandalone_bodyLexemes h)).append hend

/-- The context in which the members of the enum are read. -/
def context (e : CanonicalEnum) (lookup : String → String → Option Value) : Context :=
  ⟨⟨e.spaceName, []⟩, some e.qualified, lookup⟩

section Source

variable {e : CanonicalEnum} (h : e.IsCanonical) {own : String} (hown : e.IsOwnName own)
include h

theorem isName_of_mem_spaceName : ∀ name ∈ e.spaceName, IsName name.toList := by
  intro name hname
  obtain ⟨segments, hsegments, rfl⟩ := Option.map_eq_some_iff.mp hname
  obtain ⟨hne, hidentifiers⟩ := h.space segments hsegments
  rw [String.toList_ofList]
  exact isName_join hne hidentifiers

theorem notClass_of_mem_caseNames : ∀ name ∈ e.cases.map EnumRecord.Case.name,
    isIdentifier name.toList = true ∧ name.toLower ≠ "class" := by
  intro name hname
  obtain ⟨c, hc, rfl⟩ := List.mem_map.mp hname
  exact ⟨(h.cases c hc).name, (h.cases c hc).notClass⟩

include hown

theorem isIdentifier_of_isOwnName : isIdentifier own.toList = true := by
  rcases hown with rfl | rfl | rfl
  · decide
  · decide
  · exact h.name

/-- Each of its names stands for the enum. -/
theorem className?_of_isOwnName (lookup : String → String → Option Value) :
    Expression.className? (e.context lookup) own = some e.qualified := by
  unfold Expression.className?
  split
  · rfl
  · rename_i hkeyword
    rcases hown with rfl | rfl | rfl
    · exact absurd (.inl (by decide +kernel)) hkeyword
    · exact absurd (.inr (by decide +kernel)) hkeyword
    · exact congrArg some (Scope.resolve_of_isIdentifier e.spaceName h.name)

theorem isWritable_of_mem_groups (lookup : String → String → Option Value)
    {g : String × List (Key × Entry)} (hg : g ∈ e.groups) :
    (returned e.qualified g.2).IsWritable (e.context lookup) (fun _ ↦ own) :=
  isWritable_returned (isName_of_isIdentifier (isIdentifier_of_isOwnName h hown))
    (className?_of_isOwnName h hown lookup) (notClass_of_mem_caseNames h) (h.groups g hg)

theorem areStandalone_lexemes : AreStandalone (e.lexemes own) := by
  have htag : AreStandalone [Lexeme.openTag, lineBreak, lineBreak] := fun rest ↦
    ⟨isReadBefore_openTag _, isReadBefore_blank (by decide) _, isReadBefore_blank (by decide) _,
      trivial⟩
  have hspace := areStandalone_spaceLexemes (isName_of_mem_spaceName h)
  have hdoc := areStandalone_docLine 0 h.doc
  have henum : AreStandalone (words ["enum"]) :=
    areStandalone_words (isName_of_mem_identifiers (by decide))
  have hname : AreStandalone [word e.name, mark .colon, blank ' '] := fun rest ↦
    ⟨isReadBefore_word h.name (breaks_cons (by decide) _),
      isReadBefore_punct (by simp [Token.Kind.Stops, blank]), isReadBefore_blank (by decide) _,
      trivial⟩
  have hbacking : AreStandalone (words [e.backing.name]) :=
    areStandalone_words (isName_of_mem_identifiers (by cases e.backing <;> decide))
  have hopen : AreStandalone [mark .braceOpen, lineBreak] :=
    (areStandalone_mark rfl).append (areStandalone_blank (by decide))
  have hcases : AreStandalone (e.cases.flatMap caseLexemes) :=
    areStandalone_flatMap fun c hc ↦ areStandalone_caseLexemes (h.cases c hc)
  have hgroups : AreStandalone (e.groups.flatMap (methodLexemes own e.qualified)) :=
    areStandalone_flatMap fun g hg ↦ areStandalone_methodLexemes (h.groups g hg).name
      (isWritable_of_mem_groups h hown (fun _ _ ↦ none) hg)
  have hclose : AreStandalone [mark .braceClose, lineBreak] :=
    (areStandalone_mark rfl).append (areStandalone_blank (by decide))
  exact ((((((((htag.append hspace).append hdoc).append
    (areStandalone_attributeLexemes _)).append henum).append hname).append hbacking).append
    hopen).append (hcases.append hgroups)).append hclose

/-- The source has the tokens of its lexemes. -/
theorem tokens_source : tokens (e.source own) = Lexeme.tokens 1 (e.lexemes own) :=
  tokens_textOf (areStandalone_lexemes h hown [])

end Source

end CanonicalEnum

end FrontendSync.Php
