import FrontendSync.Php.Declaration.File
import FrontendSync.Proofs.Php.Nesting

/-!
# Declarations, one statement after the other

What each statement of a source, and each member of an enum, adds to what the rest of the source
declares.
-/

namespace FrontendSync.Php

/-! ## Members of an enum -/

namespace Members

variable {ctx : Context}

theorem read_case {ls : List Lexeme} {v : Value} (h : Expression.Reads ctx ls v)
    (hflat : ∀ line, ∀ t ∈ Lexeme.tokens line ls,
      t.opens = false ∧ t.closes = false ∧ t.isPunct .semicolon = false)
    (doc : Option String) (isPublic isStatic : Bool) (name : String) (l₁ l₂ l₃ l₄ line : Nat)
    (rest : List Token) :
    read ctx doc isPublic isStatic
        (⟨.name "case", l₁⟩ :: ⟨.name name, l₂⟩ :: ⟨.punct .assign, l₃⟩ ::
          (Lexeme.tokens line ls ++ ⟨.punct .semicolon, l₄⟩ :: rest))
      = addCase ⟨name, some (.ok v), doc⟩ (read ctx .none true false rest) := by
  have hlower : "case".toLower = "case" := by decide +kernel
  have hplain : ∀ t ∈ ⟨.name name, l₂⟩ :: ⟨.punct .assign, l₃⟩ :: Lexeme.tokens line ls,
      t.opens = false ∧ t.closes = false ∧ t.isPunct .semicolon = false :=
    List.forall_mem_cons.mpr ⟨⟨rfl, rfl, rfl⟩,
      List.forall_mem_cons.mpr ⟨⟨rfl, rfl, rfl⟩, hflat line⟩⟩
  have hstatement := Brackets.statement_append_semicolon hplain l₄ rest
  have hvalue : CaseDecl.wholeValue ctx (Lexeme.tokens line ls) = .ok v := by
    have hread := h line [] Expression.ends_nil
    rw [List.append_nil] at hread
    obtain ⟨_, hread⟩ := hread
    rw [CaseDecl.wholeValue, hread]
  rw [List.cons_append, List.cons_append] at hstatement
  rw [read.eq_def]
  have hcase : CaseDecl.ofTokens ctx doc (⟨.name name, l₂⟩ :: ⟨.punct .assign, l₃⟩ ::
      Lexeme.tokens line ls) = ⟨name, some (.ok v), doc⟩ := by
    have hassign : Token.isPunct .assign ⟨.punct .assign, l₃⟩ = true := rfl
    rw [CaseDecl.ofTokens]
    simp only [hassign, hvalue]
    rfl
  simp only [hlower, hstatement, hcase]

theorem read_docComment (doc : Option String) (isPublic isStatic : Bool) (raw : String) (line : Nat)
    (rest : List Token) :
    read ctx doc isPublic isStatic (⟨.docComment raw, line⟩ :: rest)
      = read ctx (DocComment.text? raw) isPublic isStatic rest := by
  rw [read.eq_def]

/-- A method without parameters and with a return type. -/
theorem read_method {body : List Token} {p : Token → Prop} (h : Brackets.Nested p body)
    (doc : Option String) (isPublic isStatic : Bool) (name : String)
    (l₁ l₂ l₃ l₄ l₅ l₆ l₇ l₈ l₉ l₁₀ : Nat) (rest : List Token) :
    read ctx doc isPublic isStatic (⟨.name "public", l₁⟩ :: ⟨.name "static", l₂⟩ ::
        ⟨.name "function", l₃⟩ :: ⟨.name name, l₄⟩ :: ⟨.punct .parenOpen, l₅⟩ ::
        ⟨.punct .parenClose, l₆⟩ :: ⟨.punct .colon, l₇⟩ :: ⟨.name "array", l₈⟩ ::
        ⟨.punct .braceOpen, l₉⟩ :: (body ++ ⟨.punct .braceClose, l₁₀⟩ :: rest))
      = addMethod (some ⟨name, true, true, 0, some body, l₃⟩) (read ctx .none true false rest) := by
  have hpublic : "public".toLower = "public" := by decide +kernel
  have hstatic : "static".toLower = "static" := by decide +kernel
  have hfunction : "function".toLower = "function" := by decide +kernel
  have hcloses : (⟨.punct .braceClose, l₁₀⟩ : Token).closes = true := rfl
  have hbody := Brackets.group_append_closer h hcloses rest
  have hmethod : MethodDecl.read true true l₃ (⟨.name name, l₄⟩ :: ⟨.punct .parenOpen, l₅⟩ ::
        ⟨.punct .parenClose, l₆⟩ :: ⟨.punct .colon, l₇⟩ :: ⟨.name "array", l₈⟩ ::
        ⟨.punct .braceOpen, l₉⟩ :: (body ++ ⟨.punct .braceClose, l₁₀⟩ :: rest))
      = (some ⟨name, true, true, 0, some body, l₃⟩, rest) := by
    simp [MethodDecl.read, MethodDecl.afterReference, Token.isSymbol, Token.name?,
      MethodDecl.readFrom, Token.isPunct, Brackets.group, Token.opens, Token.closes, Punct.opens,
      Punct.closes, Brackets.items, Brackets.commaPieces, MethodDecl.afterType, MethodDecl.readBody,
      hbody]
  rw [read.eq_def]
  simp only [hpublic]
  rw [read.eq_def]
  simp only [hstatic]
  rw [read.eq_def]
  simp only [hfunction, hmethod]

end Members

/-! ## Attributes -/

namespace Attribute

variable {ctx : Context} {ls : List Lexeme} {v : Value}

/-- An attribute with one argument, which is named. -/
def namedTokens (name label : String) (l₁ l₂ l₃ l₄ line l₅ : Nat) (ls : List Lexeme) : List Token :=
  ⟨.name name, l₁⟩ :: ⟨.punct .parenOpen, l₂⟩ ::
    ((⟨.name label, l₃⟩ :: ⟨.punct .colon, l₄⟩ :: Lexeme.tokens line ls)
      ++ ⟨.punct .parenClose, l₅⟩ :: [])

variable (name label : String) (l₁ l₂ l₃ l₄ line l₅ : Nat)

theorem nested_namedTokens (h : IsPiece ls) :
    Brackets.Nested (fun t ↦ t.isPunct .comma = false)
      (namedTokens name label l₁ l₂ l₃ l₄ line l₅ ls) := by
  refine .token rfl rfl rfl (.group rfl rfl ?_ .nil)
  exact .token rfl rfl trivial (.token rfl rfl trivial ((h line).mono fun _ _ ↦ trivial))

/-- The argument is no positional one if its label is no literal. -/
theorem addArg_named (h : Expression.Reads ctx ls v)
    (hlabel : label.toLower ∉ ["true", "false", "null", "array"]) :
    addArg ctx ⟨name, [], []⟩ (⟨.name label, l₃⟩ :: ⟨.punct .colon, l₄⟩ :: Lexeme.tokens line ls)
      = ⟨name, [], [(label, v)]⟩ := by
  have hvalue : whole? ctx (Lexeme.tokens line ls) = some v := by
    have hread := h line [] Expression.ends_nil
    rw [List.append_nil] at hread
    obtain ⟨_, hread⟩ := hread
    rw [whole?, hread]
  have hwhole : whole? ctx (⟨.name label, l₃⟩ :: ⟨.punct .colon, l₄⟩ :: Lexeme.tokens line ls)
      = none := by
    simp only [List.mem_cons, List.not_mem_nil, or_false, not_or] at hlabel
    obtain ⟨htrue, hfalse, hnull, harray⟩ := hlabel
    have hword (t : Token) (ts : List Token) :
        Expression.word t label ts = .error (.unsupported t) ts := by
      unfold Expression.word
      split <;> simp_all
    have hcolon : Token.isPunct .doubleColon ⟨.punct .colon, l₄⟩ = false := rfl
    rw [whole?, Expression.read.eq_def, Expression.unary_eq_primary rfl rfl,
      Expression.primary.eq_def]
    simp only [hcolon, harray, hword, false_and, Bool.false_eq_true, if_false]
  simp only [addArg, hwhole, hvalue]
  rfl

theorem ofTokens?_items_namedTokens (h : Expression.Reads ctx ls v) (hpiece : IsPiece ls)
    (hlabel : label.toLower ∉ ["true", "false", "null", "array"]) :
    (Brackets.items (namedTokens name label l₁ l₂ l₃ l₄ line l₅ ls)).filterMap (ofTokens? ctx)
      = [⟨name, [], [(label, v)]⟩] := by
  have hitems := Brackets.items_of_nested
    (nested_namedTokens name label l₁ l₂ l₃ l₄ line l₅ hpiece) (by simp [namedTokens]) (fun _ h ↦ h)
  have hargument : Brackets.Nested (fun t ↦ t.isPunct .comma = false)
      (⟨.name label, l₃⟩ :: ⟨.punct .colon, l₄⟩ :: Lexeme.tokens line ls) :=
    .token rfl rfl rfl (.token rfl rfl rfl (hpiece line))
  have hcloses : (⟨.punct .parenClose, l₅⟩ : Token).closes = true := rfl
  have hgroup := Brackets.group_append_closer hargument hcloses []
  have harguments := Brackets.items_of_nested hargument (by simp) (fun _ h ↦ h)
  have hopen : Token.isPunct .parenOpen ⟨.punct .parenOpen, l₂⟩ = true := rfl
  rw [hitems, List.filterMap_cons, namedTokens, ofTokens?]
  simp only [hgroup, hopen, harguments, if_true, List.foldl_cons, List.foldl_nil, Token.name?,
    Option.map_some]
  rw [addArg_named name label l₃ l₄ line h hlabel]
  rfl

end Attribute

/-! ## Statements of a file -/

namespace SourceFile

theorem read_namespace (s : FileState) (name : String) (l₁ l₂ l₃ : Nat) (rest : List Token) :
    read s (⟨.name "namespace", l₁⟩ :: ⟨.name name, l₂⟩ :: ⟨.punct .semicolon, l₃⟩ :: rest)
      = read { s with scope := ⟨some name, []⟩ } rest := by
  have hlower : "namespace".toLower = "namespace" := by decide +kernel
  rw [read.eq_def]
  simp only [hlower]
  rfl

theorem read_docComment (s : FileState) (raw : String) (line : Nat) (rest : List Token) :
    read s (⟨.docComment raw, line⟩ :: rest)
      = read { s with doc := DocComment.text? raw } rest := by
  rw [read.eq_def]

theorem read_attributes {inside : List Token} {p : Token → Prop} (h : Brackets.Nested p inside)
    (s : FileState) {attributes : List Attribute}
    (hattributes : (Brackets.items inside).filterMap
      (Attribute.ofTokens? (attributeContext s.scope)) = attributes)
    (l₁ l₂ : Nat) (rest : List Token) :
    read s (⟨.punct .attributeOpen, l₁⟩ :: (inside ++ ⟨.punct .bracketClose, l₂⟩ :: rest))
      = read { s with attributes := s.attributes ++ attributes } rest := by
  have hcloses : (⟨.punct .bracketClose, l₂⟩ : Token).closes = true := rfl
  have hgroup := Brackets.group_append_closer h hcloses rest
  rw [read.eq_def]
  simp only [Attribute.readGroup, hgroup, hattributes]

/-- The enum that is declared by a name, a type and the members in `body`. -/
def declared (s : FileState) (name : String) (backing : Option Backing) (body : List Token) :
    EnumDecl :=
  let qualified := Name.inside s.scope.space name
  let members := Members.read ⟨s.scope, some qualified, fun _ _ ↦ none⟩ none true false body
  ⟨name, qualified, s.scope.space, backing, s.attributes, s.doc, members.cases, members.methods,
    s.scope, ""⟩

/-- An enum with a type. -/
theorem read_enum {body : List Token} {p : Token → Prop} (h : Brackets.Nested p body)
    (s : FileState) (name : String) {type : String} {backing : Backing}
    (htype : ∀ l ts, EnumDecl.backing? (⟨.name type, l⟩ :: ts) = some backing)
    (l₁ l₂ l₃ l₄ l₅ l₆ : Nat) (rest : List Token) :
    read s (⟨.name "enum", l₁⟩ :: ⟨.name name, l₂⟩ :: ⟨.punct .colon, l₃⟩ :: ⟨.name type, l₄⟩ ::
        ⟨.punct .braceOpen, l₅⟩ :: (body ++ ⟨.punct .braceClose, l₆⟩ :: rest))
      = addEnum (declared s name (some backing) body) (read s.dropPending rest) := by
  have hlower : "enum".toLower = "enum" := by decide +kernel
  have hcloses : (⟨.punct .braceClose, l₆⟩ : Token).closes = true := rfl
  have hgroup := Brackets.group_append_closer h hcloses rest
  have hread : EnumDecl.read? s.scope s.attributes s.doc (⟨.name name, l₂⟩ :: ⟨.punct .colon, l₃⟩ ::
      ⟨.name type, l₄⟩ :: ⟨.punct .braceOpen, l₅⟩ :: (body ++ ⟨.punct .braceClose, l₆⟩ :: rest))
      = some (declared s name (some backing) body, rest) := by
    simp [EnumDecl.read?, Token.name?, EnumDecl.readNamed?, EnumDecl.readType, Token.isPunct, htype,
      EnumDecl.braces?, hgroup, declared]
  rw [read.eq_def]
  simp only [hlower]
  split
  · rename_i r hr
    rw [hread] at hr
    obtain rfl := Option.some.inj hr
    rfl
  · rename_i hr
    rw [hread] at hr
    simp at hr

end SourceFile

end FrontendSync.Php
