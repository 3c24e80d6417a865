import FrontendSync.Proofs.Php.Canonical
import FrontendSync.Proofs.Php.Statements

/-!
# Reading a canonical enum

The source of a canonical enum declares this enum and no other, with its cases and methods in
order.
-/

namespace FrontendSync.Php

open EnumRecord (Entry)
open Lexeme (ofKind blank commaList word mark lineBreak words indent docLine)

namespace Lexeme

@[simp] theorem tokens_indent (line n : Nat) : tokens line (indent n) = [] := by
  induction n generalizing line with
  | zero => rfl
  | succ n ih => exact ih _

@[simp] theorem tokens_word (line : Nat) (text : String) (ls : List Lexeme) :
    tokens line (word text :: ls)
      = ⟨.name text, line⟩ :: tokens (line + (Token.Kind.name text).spelling.count '\n') ls := rfl

@[simp] theorem tokens_mark (line : Nat) (p : Punct) (ls : List Lexeme) :
    tokens line (mark p :: ls)
      = ⟨.punct p, line⟩ :: tokens (line + (Token.Kind.punct p).spelling.count '\n') ls := rfl

@[simp] theorem tokens_lineBreak (line : Nat) (ls : List Lexeme) :
    tokens line (lineBreak :: ls) = tokens (line + ['\n'].count '\n') ls := rfl

@[simp] theorem words_cons (text : String) (texts : List String) :
    words (text :: texts) = word text :: blank ' ' :: words texts := rfl

@[simp] theorem words_nil : words [] = [] := rfl

end Lexeme

namespace CanonicalEnum

open Lexeme

variable {backing : Backing} {ctx : Context}

/-- No statement ends within the value of a case. -/
theorem plain_of_isBacked {v : Scalar} (h : IsBacked backing v) (line : Nat) :
    ∀ t ∈ Lexeme.tokens line ((Value.ofScalar v).lexemes id),
      t.opens = false ∧ t.closes = false ∧ t.isPunct .semicolon = false := by
  cases backing <;> cases v <;> first | exact h.elim | skip
  · rintro t ht
    obtain rfl := List.mem_singleton.mp ht
    exact ⟨rfl, rfl, rfl⟩
  · rename_i n
    rw [Value.ofScalar, Value.lexemes, Lexeme.ofInt]
    split
    · rintro t ht
      rcases List.mem_cons.mp ht with rfl | ht
      · exact ⟨rfl, rfl, rfl⟩
      · obtain rfl := List.mem_singleton.mp ht
        exact ⟨rfl, rfl, rfl⟩
    · rintro t ht
      obtain rfl := List.mem_singleton.mp ht
      exact ⟨rfl, rfl, rfl⟩

def caseDecl (c : EnumRecord.Case) : CaseDecl := ⟨c.name, some (.ok (.ofScalar c.value)), c.doc⟩

theorem read_docLine {doc : Option String} (h : ∀ text ∈ doc, DocComment.IsDocLine text.toList)
    (n line : Nat) (isPublic isStatic : Bool) (rest : List Token) :
    Members.read ctx none isPublic isStatic (Lexeme.tokens line (docLine n doc) ++ rest)
      = Members.read ctx doc isPublic isStatic rest := by
  cases doc with
  | none => rfl
  | some text =>
    rw [docLine, Lexeme.tokens_append, Lexeme.tokens_indent, List.nil_append, Lexeme.doc,
      Lexeme.tokens_ofKind, List.cons_append, Members.read_docComment, (h text rfl).text?_frame]
    rfl

theorem read_caseLexemes {c : EnumRecord.Case} (h : IsCanonicalCase backing c) (line : Nat)
    (rest : List Token) :
    Members.read ctx none true false (Lexeme.tokens line (caseLexemes c) ++ rest)
      = Members.addCase (caseDecl c) (Members.read ctx none true false rest) := by
  have hvalue : (Value.ofScalar c.value).IsWritable ctx id := isWritable_of_isBacked h.value
  simp only [caseLexemes, Lexeme.tokens_append, List.append_assoc, read_docLine h.doc]
  simp only [tokens_indent, words_cons, words_nil, tokens_word, tokens_blank, tokens_nil,
    tokens_mark, tokens_lineBreak, List.cons_append, List.nil_append]
  exact Members.read_case hvalue.unaryReads.reads (plain_of_isBacked h.value) _ _ _ _ _ _ _ _ _ _

/-- A method that returns the entries of a group. -/
structure IsMethodOf (own className : String) (g : String × List (Key × Entry)) (d : MethodDecl) :
    Prop where
  name : d.name = g.1
  isPublic : d.isPublic = true
  isStatic : d.isStatic = true
  params : d.params = 0
  body : ∃ line, d.body = some (Lexeme.tokens line (bodyLexemes own className g.2))

variable {own className : String} {g : String × List (Key × Entry)}

theorem tokens_bodyLexemes (own className : String) (entries : List (Key × Entry)) (line : Nat) :
    ∃ l₁ l₂ l₃, Lexeme.tokens line (bodyLexemes own className entries)
      = ⟨.name "return", l₁⟩ ::
          (Lexeme.tokens l₂ ((returned className entries).lexemes fun _ ↦ own)
            ++ [⟨.punct .semicolon, l₃⟩]) := by
  simp only [bodyLexemes, Lexeme.tokens_append, List.append_assoc, List.cons_append, tokens_indent,
    words_cons, words_nil, tokens_word, tokens_blank, tokens_mark, tokens_lineBreak,
    List.nil_append]
  exact ⟨_, _, _, rfl⟩

theorem nested_bodyLexemes (h : (returned className g.2).IsWritable ctx fun _ ↦ own) (line : Nat) :
    Brackets.Nested (fun _ ↦ True) (Lexeme.tokens line (bodyLexemes own className g.2)) := by
  obtain ⟨l₁, l₂, l₃, htokens⟩ := tokens_bodyLexemes own className g.2 line
  rw [htokens]
  refine .token rfl rfl trivial (((h.isPiece l₂).mono fun _ _ ↦ trivial).append ?_)
  exact .token rfl rfl trivial .nil

theorem read_methodLexemes (h : (returned className g.2).IsWritable ctx fun _ ↦ own) (line : Nat)
    (rest : List Token) : ∃ d, IsMethodOf own className g d ∧
      Members.read ctx none true false (Lexeme.tokens line (methodLexemes own className g) ++ rest)
        = Members.addMethod (some d) (Members.read ctx none true false rest) := by
  simp only [methodLexemes, Lexeme.tokens_append, List.append_assoc, tokens_indent, words_cons,
    words_nil, tokens_word, tokens_blank, tokens_nil, tokens_mark, tokens_lineBreak,
    List.cons_append, List.nil_append]
  refine ⟨_, ?_, Members.read_method (nested_bodyLexemes h _) _ _ _ _ _ _ _ _ _ _ _ _ _ _ _⟩
  exact ⟨rfl, rfl, rfl, rfl, _, rfl⟩

theorem read_methods {groups : List (String × List (Key × Entry))}
    (h : ∀ g ∈ groups, (returned className g.2).IsWritable ctx fun _ ↦ own) (line : Nat) :
    ∃ methods, List.Forall₂ (IsMethodOf own className) groups methods ∧
      Members.read ctx none true false
        (Lexeme.tokens line (groups.flatMap (methodLexemes own className))) = ⟨[], methods⟩ := by
  induction groups generalizing line with
  | nil =>
    refine ⟨[], .nil, ?_⟩
    rw [List.flatMap_nil, Lexeme.tokens_nil, Members.read.eq_def]
    rfl
  | cons g groups ih =>
    obtain ⟨hg, hgroups⟩ := List.forall_mem_cons.mp h
    obtain ⟨methods, hmethods, hread⟩ := ih hgroups
      (line + (textOf (methodLexemes own className g)).count '\n')
    obtain ⟨d, hd, hmethod⟩ := read_methodLexemes hg line (Lexeme.tokens
      (line + (textOf (methodLexemes own className g)).count '\n')
      (groups.flatMap (methodLexemes own className)))
    refine ⟨d :: methods, .cons hd hmethods, ?_⟩
    rw [List.flatMap_cons, Lexeme.tokens_append, hmethod, hread]
    rfl

/-- The members between the braces are the cases, and then the methods, of the enum. -/
theorem read_members {cases : List EnumRecord.Case} {groups : List (String × List (Key × Entry))}
    (hcases : ∀ c ∈ cases, IsCanonicalCase backing c)
    (hgroups : ∀ g ∈ groups, (returned className g.2).IsWritable ctx fun _ ↦ own) (line : Nat) :
    ∃ methods, List.Forall₂ (IsMethodOf own className) groups methods ∧
      Members.read ctx none true false (Lexeme.tokens line
        (cases.flatMap caseLexemes ++ groups.flatMap (methodLexemes own className)))
        = ⟨cases.map caseDecl, methods⟩ := by
  induction cases generalizing line with
  | nil => exact read_methods hgroups line
  | cons c cases ih =>
    obtain ⟨hc, hcases⟩ := List.forall_mem_cons.mp hcases
    obtain ⟨methods, hmethods, hread⟩ := ih hcases (line + (textOf (caseLexemes c)).count '\n')
    refine ⟨methods, hmethods, ?_⟩
    rw [List.flatMap_cons, List.append_assoc, Lexeme.tokens_append, read_caseLexemes hc, hread]
    rfl

theorem nested_docLine (n line : Nat) (doc : Option String) :
    Brackets.Nested (fun _ ↦ True) (Lexeme.tokens line (docLine n doc)) := by
  cases doc with
  | none => exact .nil
  | some text =>
    rw [docLine, Lexeme.tokens_append, Lexeme.tokens_indent, List.nil_append]
    exact .token rfl rfl trivial .nil

theorem nested_caseLexemes {c : EnumRecord.Case} (h : IsCanonicalCase backing c) (line : Nat) :
    Brackets.Nested (fun _ ↦ True) (Lexeme.tokens line (caseLexemes c)) := by
  have hvalue : (Value.ofScalar c.value).IsWritable (SourceFile.attributeContext Scope.empty) id :=
    isWritable_of_isBacked h.value
  simp only [caseLexemes, Lexeme.tokens_append, List.append_assoc]
  refine (nested_docLine 4 _ _).append ?_
  simp only [tokens_indent, words_cons, words_nil, tokens_word, tokens_blank, tokens_nil,
    tokens_mark, tokens_lineBreak, List.cons_append, List.nil_append]
  refine .token rfl rfl trivial (.token rfl rfl trivial (.token rfl rfl trivial ?_))
  exact ((hvalue.isPiece _).mono fun _ _ ↦ trivial).append (.token rfl rfl trivial .nil)

theorem nested_methodLexemes (h : (returned className g.2).IsWritable ctx fun _ ↦ own)
    (line : Nat) :
    Brackets.Nested (fun _ ↦ True) (Lexeme.tokens line (methodLexemes own className g)) := by
  simp only [methodLexemes, Lexeme.tokens_append, List.append_assoc, tokens_indent, words_cons,
    words_nil, tokens_word, tokens_blank, tokens_nil, tokens_mark, tokens_lineBreak,
    List.cons_append, List.nil_append]
  refine .token rfl rfl trivial (.token rfl rfl trivial (.token rfl rfl trivial
    (.token rfl rfl trivial ?_)))
  have hparams : Brackets.Nested (fun _ ↦ True) [] := .nil
  refine .group rfl rfl hparams (.token rfl rfl trivial (.token rfl rfl trivial ?_))
  exact .group rfl rfl (nested_bodyLexemes h _) .nil

theorem nested_flatMap {α : Type} {f : α → List Lexeme} {xs : List α}
    (h : ∀ x ∈ xs, ∀ line, Brackets.Nested (fun _ ↦ True) (Lexeme.tokens line (f x)))
    (line : Nat) : Brackets.Nested (fun _ ↦ True) (Lexeme.tokens line (xs.flatMap f)) := by
  induction xs generalizing line with
  | nil => exact .nil
  | cons x xs ih =>
    obtain ⟨hx, hxs⟩ := List.forall_mem_cons.mp h
    rw [List.flatMap_cons, Lexeme.tokens_append]
    exact (hx line).append (ih hxs _)

/-! ## The file -/

/-- The numbered list of the methods. -/
def methodList (methods : List String) : List (Key × Value) :=
  methods.zipIdx.map fun p ↦ (.int p.2, .string p.1)

theorem reads_methodList {methods : List String} (h : (methods.length : Int) ≤ Decimal.maxInt) :
    Expression.Reads ctx
      (mark .bracketOpen :: (commaList (methods.map fun m ↦ [ofKind (.string m)])
        ++ [mark .bracketClose])) (.array (methodList methods)) := by
  have hitems : ∀ i ∈ (methods.map fun m ↦ ([ofKind (.string m)], Value.string m)).map
      fun p ↦ Expression.Item.ofValue p.1 p.2, i.Reads ctx .bracketClose := by
    intro i hi
    obtain ⟨p, hp, rfl⟩ := List.mem_map.mp hi
    obtain ⟨m, -, rfl⟩ := List.mem_map.mp hp
    exact Expression.Item.reads_ofValue List.mem_cons_self (Expression.unaryReads_string m).reads
  have hread := (Expression.unaryReads_array hitems).reads
  have hfold : (((methods.map fun m ↦ ([ofKind (.string m)], Value.string m)).map
      fun p ↦ Expression.Item.ofValue p.1 p.2).foldl Expression.Item.add ([], 0)).1
        = methodList methods := by
    have hnumbered := @Expression.foldl_add_ofValue
      (methods.map fun m ↦ ([ofKind (.string m)], Value.string m)) [] 0 (by simp [Ordered.keys])
      (by rw [List.length_map]; omega)
    refine hnumbered.trans ?_
    rw [List.nil_append, List.zipIdx_map, List.map_map]
    rfl
  have hlexemes : ((methods.map fun m ↦ ([ofKind (.string m)], Value.string m)).map
      fun p ↦ Expression.Item.ofValue p.1 p.2).map Expression.Item.lexemes
        = methods.map fun m ↦ [ofKind (.string m)] := by
    simp [Expression.Item.ofValue]
  rw [hlexemes, hfold] at hread
  exact hread

/-- The attribute that asks for the groups. -/
def marker (methods : List String) : Attribute :=
  ⟨Registry.generateMarker, [], [("includeMethods", .array (methodList methods))]⟩

theorem read_attributeLexemes {methods : List String} (h : (methods.length : Int) ≤ Decimal.maxInt)
    (s : FileState) (line : Nat) (rest : List Token) :
    SourceFile.read s (Lexeme.tokens line (attributeLexemes methods) ++ rest)
      = SourceFile.read { s with attributes := s.attributes ++ [marker methods] } rest := by
  have hpiece : IsPiece (mark .bracketOpen ::
      (commaList (methods.map fun m ↦ [ofKind (.string m)]) ++ [mark .bracketClose])) := by
    refine isPiece_array fun i hi ↦ ?_
    obtain ⟨m, -, rfl⟩ := List.mem_map.mp hi
    exact isPiece_ofKind (by simp)
  have hlabel : "includeMethods".toLower ∉ ["true", "false", "null", "array"] := by decide +kernel
  have hread (l₀ l₁ l₂ l₃ l₄ line l₅ l₆ : Nat) := SourceFile.read_attributes
    (Attribute.nested_namedTokens Registry.generateMarker "includeMethods" l₁ l₂ l₃ l₄ line l₅
      hpiece) s (Attribute.ofTokens?_items_namedTokens Registry.generateMarker "includeMethods"
      l₁ l₂ l₃ l₄ line l₅ (reads_methodList h) hpiece hlabel) l₀ l₆ rest
  simp only [Attribute.namedTokens, attributeLexemes, List.append_assoc, List.cons_append,
    List.nil_append, Lexeme.tokens_append, tokens_mark, tokens_word, tokens_blank, tokens_lineBreak,
    tokens_nil] at hread ⊢
  exact hread _ _ _ _ _ _ _ _

theorem read_spaceLexemes (space : Option String) (line : Nat) (rest : List Token) :
    SourceFile.read .start (Lexeme.tokens line (spaceLexemes space) ++ rest)
      = SourceFile.read { FileState.start with scope := ⟨space, []⟩ } rest := by
  cases space with
  | none => rfl
  | some name =>
    simp only [spaceLexemes, words_cons, words_nil, List.cons_append, List.nil_append, tokens_word,
      tokens_blank, tokens_mark, tokens_lineBreak, tokens_nil]
    exact SourceFile.read_namespace _ _ _ _ _ _

theorem read_file_docLine {doc : Option String}
    (h : ∀ text ∈ doc, DocComment.IsDocLine text.toList) {s : FileState} (hs : s.doc = none)
    (n line : Nat) (rest : List Token) :
    SourceFile.read s (Lexeme.tokens line (docLine n doc) ++ rest)
      = SourceFile.read { s with doc := doc } rest := by
  cases doc with
  | none =>
    have hsame : { s with doc := none } = s := by
      cases s
      simp_all
    rw [hsame]
    rfl
  | some text =>
    rw [docLine, Lexeme.tokens_append, Lexeme.tokens_indent, List.nil_append, Lexeme.doc,
      Lexeme.tokens_ofKind, List.cons_append, SourceFile.read_docComment, (h text rfl).text?_frame]
    rfl

/-- What is read from the source of an enum. -/
structure IsDeclaration (own : String) (e : CanonicalEnum) (d : EnumDecl) : Prop where
  name : d.name = e.name
  qualified : d.qualified = e.qualified
  space : d.space = e.spaceName
  backing : d.backing = some e.backing
  attributes : d.attributes = [marker (e.groups.map Prod.fst)]
  doc : d.doc = e.doc
  cases : d.cases = e.cases.map caseDecl
  methods : List.Forall₂ (IsMethodOf own e.qualified) e.groups d.methods
  scope : d.scope = ⟨e.spaceName, []⟩

theorem backing?_name (b : Backing) (l : Nat) (ts : List Token) :
    EnumDecl.backing? (⟨.name b.name, l⟩ :: ts) = some b := by
  have hstring : "string".toLower = "string" := by decide +kernel
  have hint : "int".toLower = "int" := by decide +kernel
  cases b <;> simp [EnumDecl.backing?, Backing.name, Token.keyword?, Token.name?, hstring, hint]

theorem length_le_textOf_flatMap {α : Type} {f : α → List Lexeme}
    (h : ∀ x, 0 < (textOf (f x)).length) (xs : List α) :
    xs.length ≤ (textOf (xs.flatMap f)).length := by
  induction xs with
  | nil => simp
  | cons x xs ih =>
    have hx := h x
    rw [List.flatMap_cons, textOf_append, List.length_append, List.length_cons]
    omega

/-- There are not more methods than characters. -/
theorem length_groups_le (own : String) (e : CanonicalEnum) :
    e.groups.length ≤ (e.source own).length := by
  have hgroup (g : String × List (Key × Entry)) :
      0 < (textOf (methodLexemes own e.qualified g)).length := by
    simp [methodLexemes, words, mark, ofKind, Token.Kind.spelling, Punct.spelling]
  have hgroups := length_le_textOf_flatMap hgroup e.groups
  rw [source, String.length_ofList]
  simp only [lexemes, memberLexemes, textOf_append, List.length_append]
  omega

theorem nested_memberLexemes {own : String} {e : CanonicalEnum} (h : e.IsCanonical)
    (hown : e.IsOwnName own) (line : Nat) :
    Brackets.Nested (fun _ ↦ True) (Lexeme.tokens line (e.memberLexemes own)) := by
  rw [memberLexemes, Lexeme.tokens_append]
  refine .append (nested_flatMap (fun c hc ↦ ?_) _) (nested_flatMap (fun g hg ↦ ?_) _)
  · exact nested_caseLexemes (h.cases c hc)
  · exact nested_methodLexemes (isWritable_of_mem_groups h hown (fun _ _ ↦ none) hg)

theorem isDeclaration_declared {own : String} {e : CanonicalEnum} (h : e.IsCanonical)
    (hown : e.IsOwnName own) (line : Nat) :
    IsDeclaration own e (SourceFile.declared
      ⟨⟨e.spaceName, []⟩, 0, none, [marker (e.groups.map Prod.fst)], e.doc⟩ e.name (some e.backing)
      (Lexeme.tokens line (e.memberLexemes own))) := by
  obtain ⟨methods, hmethods, hread⟩ := read_members h.cases
    (fun g hg ↦ isWritable_of_mem_groups h hown (fun _ _ ↦ none) hg) line
  have hmembers : Members.read ⟨⟨e.spaceName, []⟩, some (Name.inside e.spaceName e.name),
      fun _ _ ↦ none⟩ none true false (Lexeme.tokens line (e.memberLexemes own))
        = ⟨e.cases.map caseDecl, methods⟩ := hread
  constructor
  · rfl
  · rfl
  · rfl
  · rfl
  · rfl
  · rfl
  · exact congrArg Members.cases hmembers
  · simp only [SourceFile.declared, hmembers]
    exact hmethods
  · rfl

/-- The source of a canonical enum declares the enum and nothing else. -/
theorem exists_enums_source {own : String} {e : CanonicalEnum} (h : e.IsCanonical)
    (hown : e.IsOwnName own) (hlength : (e.source own).length < 2 ^ 63) :
    ∃ d, (SourceFile.ofSource (e.source own)).enums = [d] ∧ IsDeclaration own e d := by
  have hcount : ((e.groups.map Prod.fst).length : Int) ≤ Decimal.maxInt := by
    have hle := length_groups_le own e
    rw [List.length_map, Decimal.maxInt]
    omega
  have hend (s : FileState) : SourceFile.read s [] = ⟨[], s.scope⟩ := by
    rw [SourceFile.read.eq_def]
  rw [SourceFile.ofSource, SourceFile.ofTokens, tokens_source h hown]
  simp only [lexemes, List.append_assoc, Lexeme.tokens_append]
  simp only [List.nil_append, tokens_openTag, tokens_lineBreak, tokens_nil, read_spaceLexemes]
  rw [read_file_docLine h.doc rfl, read_attributeLexemes hcount]
  simp only [words_cons, words_nil, tokens_word, tokens_blank, tokens_mark, tokens_lineBreak,
    tokens_nil, List.cons_append, List.nil_append]
  rw [SourceFile.read_enum (nested_memberLexemes h hown _) _ _ (backing?_name e.backing), hend]
  exact ⟨_, rfl, isDeclaration_declared h hown _⟩

end CanonicalEnum

end FrontendSync.Php
