import FrontendSync.Proofs.Php.Namespaces
import FrontendSync.Proofs.Php.Segments

/-!
# The scope of an enum

A file is a sequence of statements.  A namespace begins without imports, those of classes are added
one by one, and those of functions and constants are not: what is declared at an enum is the scope
that the enum has, and what its scope makes of a name.
-/

namespace FrontendSync.Php

open SourceFile (Comes step)

/-! ## Declared scopes -/

/-- A namespace, and its imports in the order in which they are written. -/
structure Declared where
  space : Option String
  imports : List (String × String)

namespace Declared

def importing (d : Declared) (imports : List (String × String)) : Declared :=
  { d with imports := d.imports ++ imports }

/-- Of the imports with the same short name the last one counts. -/
def import? (d : Declared) (short : String) : Option String :=
  ((d.imports.filter (·.1 = short)).getLast?).map Prod.snd

/-- A scope has the declared imports, and resolves names by them. -/
structure IsScope (d : Declared) (scope : Scope) : Prop where
  space : scope.space = d.space
  imports : ∀ short, Ordered.get? short scope.imports = d.import? short
  rooted : ∀ name, scope.resolve ("\\" ++ name) = name
  imported : ∀ head more qualified, Name.IsSegment head → d.import? head.toLower = some qualified →
    scope.resolve (Name.ofSegments (head :: more)) = Name.ofSegments (qualified :: more)
  others : ∀ head more, Name.IsSegment head → d.import? head.toLower = none →
    scope.resolve (Name.ofSegments (head :: more))
      = Name.ofSegments (d.space.toList ++ head :: more)

/-- What the reader of a file has for a declared scope. -/
def scope (d : Declared) : Scope := ⟨d.space, Ordered.ofList d.imports⟩

theorem ofSegments_space (space : Option String) (hspace : space ≠ some "") (head : String)
    (more : List String) : Name.inside space (Name.ofSegments (head :: more))
      = Name.ofSegments (space.toList ++ head :: more) := by
  cases space with
  | none => rfl
  | some s =>
    have hs : s ≠ "" := fun h ↦ hspace (congrArg some h)
    have hone : Name.ofSegments [s] = s := by
      refine String.toList_injective ?_
      rw [Name.toList_ofSegments_cons, List.flatMap_nil, List.append_nil]
    rw [Name.inside, if_neg hs, Option.toList_some,
      Name.ofSegments_append (List.cons_ne_nil s []) (List.cons_ne_nil head more), hone]

theorem isScope_scope {d : Declared} (hspace : d.space ≠ some "") : d.IsScope d.scope := by
  have himports (short : String) : Ordered.get? short d.scope.imports = d.import? short := by
    rw [scope, Ordered.get?_ofList, Ordered.get?_reverse]
    rfl
  refine ⟨rfl, himports, d.scope.resolve_rooted, ?_, ?_⟩
  · intro head more qualified hhead himport
    rw [Scope.resolve_ofSegments _ hhead, himports, himport]
  · intro head more hhead himport
    rw [Scope.resolve_ofSegments _ hhead, himports, himport]
    exact ofSegments_space _ hspace head more

end Declared

namespace Written

/-! ## Imports -/

namespace Clause

/-- The segments of the class behind those of the common part. -/
def segments (common : List String) (c : Clause) : List String :=
  common ++ Name.segments c.name.text

/-- The alias in lower case, or else the last segment, and the class without a root. -/
def declared (common : List String) (c : Clause) : String × String :=
  ((c.short.elim ((c.segments common).getLastD "") fun a ↦ a.2.text).toLower,
    Name.ofSegments (c.segments common))

theorem imported_eq_declared {common : List String} (hcommon : ∀ s ∈ common, Name.IsSegment s)
    {c : Clause} (hc : Name.Spells c.name.text (Name.segments c.name.text)) :
    c.imported (Name.ofSegments common) = c.declared common := by
  have hqualified : c.qualified (Name.ofSegments common) = Name.ofSegments (c.segments common) := by
    rw [qualified, Name.dropRoot_of_spells hc, segments]
    by_cases hnil : common = []
    · rw [hnil]
      rfl
    · rw [if_neg (Name.ofSegments_ne_empty hnil hcommon), Name.ofSegments_append hnil hc.ne_nil]
  have hshort : Name.short (Name.ofSegments (c.segments common))
      = (c.segments common).getLastD "" := by
    obtain ⟨front, last, hlast⟩ := (List.eq_nil_or_concat' _).resolve_left hc.ne_nil
    have hfree := (hc.isSegment last (by rw [hlast]; simp)).noBackslash
    rw [segments, hlast, ← List.append_assoc, Name.short_ofSegments _ hfree]
    simp
  rw [imported, declared, hqualified, hshort]

end Clause

/-- A token with a name has the segments of the name. -/
def IsSpelled (t : Token) : Prop :=
  ∀ name, t.kind = .name name → Name.Spells name (Name.segments name)

namespace UseText

def declared : UseText → List (String × String)
  | classes clauses => clauses.all.map (Clause.declared [])
  | group common _ _ clauses _ _ => clauses.all.map (Clause.declared (Name.segments common.text))

theorem imported_eq_declared {text : UseText} (h : ∀ t ∈ text.tokens, IsSpelled t) :
    text.imported = text.declared := by
  have hclause {clauses : Clauses} (hspelled : ∀ t ∈ clauses.tokens, IsSpelled t) :
      ∀ c ∈ clauses.all, Name.Spells c.name.text (Name.segments c.name.text) := by
    intro c hc
    refine hspelled c.name.token ?_ _ c.name.kind_eq
    rcases List.mem_cons.mp hc with rfl | hc
    · exact List.mem_append_left _ List.mem_cons_self
    · obtain ⟨m, hm, rfl⟩ := List.mem_map.mp hc
      exact List.mem_append_right _ (List.mem_flatMap.mpr ⟨m, hm, by simp [Clause.tokens]⟩)
  cases text with
  | classes clauses =>
    have hempty : Name.ofSegments [] = "" := rfl
    rw [imported, declared, ← hempty]
    exact List.map_congr_left fun c hc ↦
      Clause.imported_eq_declared (by simp) (hclause h c hc)
  | group common slash opener clauses trailing closer =>
    have hcommon := h common.token List.mem_cons_self _ common.kind_eq
    have hclauses : ∀ t ∈ clauses.tokens, IsSpelled t := fun t ht ↦ h t (by simp [tokens, ht])
    rw [imported, declared, Name.dropRoot_of_spells hcommon]
    exact List.map_congr_left fun c hc ↦
      Clause.imported_eq_declared hcommon.isSegment (hclause hclauses c hc)

end UseText

/-- An import of functions or of constants. -/
structure OtherUse where
  keyword : Keyword "use"
  word : Token
  notOfClasses : word.keyword? = some "function" ∨ word.keyword? = some "const"
  text : List Token
  flat : ∀ t ∈ text, t.isPunct .semicolon = false
  stop : Mark .semicolon

namespace OtherUse

def tokens (u : OtherUse) : List Token := u.keyword.1 :: u.word :: (u.text ++ [u.stop.1])

/-- Where imports may stand, it is passed over. -/
theorem step_eq (u : OtherUse) {s : FileState} (hs : s.depth = s.importDepth) (rest : List Token) :
    step s u.keyword.1 (u.word :: (u.text ++ u.stop.1 :: rest)) = ⟨none, s, rest⟩ := by
  obtain ⟨word, hkind, hword⟩ := Token.exists_of_keyword? u.keyword.2
  have hofClasses : Import.isOfClasses (u.word :: (u.text ++ u.stop.1 :: rest)) = false := by
    rcases u.notOfClasses with h | h <;> simp [Import.isOfClasses, Token.isKeyword, h]
  have hflat : ∀ t ∈ u.word :: u.text, t.isPunct .semicolon = false := by
    refine List.forall_mem_cons.mpr ⟨?_, u.flat⟩
    obtain ⟨text, hname⟩ : ∃ text, u.word.kind = .name text := by
      rcases u.notOfClasses with h | h <;> exact (Token.exists_of_keyword? h).imp fun _ ↦ And.left
    exact (Token.opens_of_kind_name hname).2.2 _
  have hsplit := splitAt_append_semicolon hflat u.stop rest
  rw [List.cons_append] at hsplit
  simp only [step, hkind, hword, if_pos hs, Scope.addImports, hofClasses, hsplit]
  rfl

end OtherUse

/-! ## Statements -/

/-- Code without imports, in which no word stands for a namespace or for an enum without a body. -/
structure PlainCode where
  code : Code
  words : ∀ t ∈ code.words, t.keyword? ≠ some "namespace" ∧ t.keyword? ≠ some "enum"
  outer : ∀ t ∈ code.outer, t.keyword? ≠ some "use"

/-- What stands in a namespace in front of an enum. -/
inductive Statement where
  | classes (use : Use)
  | others (use : OtherUse)
  | code (code : PlainCode)

namespace Statement

def tokens : Statement → List Token
  | classes use => use.tokens
  | others use => use.tokens
  | code c => c.code.tokens

/-- Only imports of classes are declared. -/
def declared : Statement → List (String × String)
  | classes use => use.text.declared
  | others _ | code _ => []

end Statement

end Written

/-- The heading with a declared scope, outside of the braces of a namespace or right inside of
them. -/
def Declared.heading (d : Declared) (block : Option Nat) : Heading :=
  ⟨d.scope, block.elim 0 (· + 1), block⟩

theorem Declared.importing_heading (d : Declared) (block : Option Nat)
    (imports : List (String × String)) :
    (d.heading block).importing imports = (d.importing imports).heading block := by
  simp [heading, Heading.importing, scope, importing, Ordered.ofList, Ordered.insertAll,
    List.foldl_append]

namespace Written

variable {d : Declared} {braces : Option Nat} {s : FileState}

theorem depth_eq_of_heading (hs : s.heading = d.heading braces) : s.depth = s.importDepth := by
  rw [← s.importDepth_heading, hs]
  exact congrArg Heading.depth hs

/-- A statement adds to the scope what it declares. -/
theorem Statement.exists_comes (st : Statement) (hspelled : ∀ t ∈ st.tokens, IsSpelled t)
    (hs : s.heading = d.heading braces) (after : List Token) :
    ∃ s', Comes s (st.tokens ++ after) s' after ∧
      s'.heading = (d.importing st.declared).heading braces := by
  have hsame : (d.importing []).heading braces = d.heading braces := by
    rw [Declared.importing, List.append_nil]
  cases st with
  | classes u =>
    have htext : u.text.imported = u.text.declared := by
      refine UseText.imported_eq_declared fun t ht ↦ hspelled t ?_
      simp [tokens, Use.tokens, ht]
    obtain ⟨s', hcomes, hheading⟩ := exists_comes_uses [u] (depth_eq_of_heading hs) after
    rw [List.flatMap_singleton] at hcomes hheading
    exact ⟨s', hcomes, by rw [hheading, hs, htext, d.importing_heading, declared]⟩
  | others u =>
    have hstep := u.step_eq (depth_eq_of_heading hs) after
    have hcomes : Comes s (u.tokens ++ after) s after := by
      have hfirst := Comes.of_step_eq hstep
      simpa [OtherUse.tokens] using hfirst
    exact ⟨s, hcomes, by rw [hs, declared, hsame]⟩
  | code c =>
    have hpasses : Passes c.code.words s (c.code.tokens ++ after) (d.heading braces) after :=
      c.code.passes (Nat.le_refl _) (fun _ ↦ c.outer)
        (Code.declaresNothing_of_forall (fun t ht ↦ (c.words t ht).2) _) hs
    cases hpasses with
    | @through s' hcomes hheading _ => exact ⟨s', hcomes, by rw [hheading, declared, hsame]⟩
    | stopped _ _ ht hword => exact absurd hword (c.words _ ht).1

theorem exists_comes_statements (statements : List Statement)
    (hspelled : ∀ t ∈ statements.flatMap Statement.tokens, IsSpelled t)
    (hs : s.heading = d.heading braces) (after : List Token) :
    ∃ s', Comes s (statements.flatMap Statement.tokens ++ after) s' after ∧
      s'.heading = (d.importing (statements.flatMap Statement.declared)).heading braces := by
  induction statements generalizing s d with
  | nil => exact ⟨s, .refl, by rw [hs, List.flatMap_nil, Declared.importing, List.append_nil]⟩
  | cons st statements ih =>
    obtain ⟨hst, hmore⟩ := List.forall_mem_append.mp (List.flatMap_cons ▸ hspelled)
    obtain ⟨s', hcomes, hheading⟩ :=
      st.exists_comes hst hs (statements.flatMap Statement.tokens ++ after)
    obtain ⟨s'', hcomes', hheading'⟩ := ih hmore hheading
    refine ⟨s'', ?_, ?_⟩
    · rw [List.flatMap_cons, List.append_assoc]
      exact hcomes.trans hcomes'
    · rw [hheading', List.flatMap_cons, Declared.importing, Declared.importing,
        Declared.importing, List.append_assoc]

/-! ## Namespaces -/

/-- The namespace of the statements behind its semicolon. -/
structure SpaceStatement where
  keyword : Keyword "namespace"
  name : Name
  stop : Mark .semicolon

/-- A namespace with braces around its statements; one without a name is the global one. -/
structure SpaceOpening where
  keyword : Keyword "namespace"
  name : Option Name
  opener : Mark .braceOpen

theorem eq_of_heading (hs : s.heading = d.heading none) : s.depth = 0 ∧ s.block = none :=
  ⟨congrArg Heading.depth hs, congrArg Heading.block hs⟩

namespace SpaceStatement

def tokens (n : SpaceStatement) : List Token := [n.keyword.1, n.name.token, n.stop.1]

def declared (n : SpaceStatement) : Declared := ⟨some n.name.text, []⟩

theorem exists_comes (n : SpaceStatement) (hs : s.heading = d.heading none) (after : List Token) :
    ∃ s', Comes s (n.tokens ++ after) s' after ∧ s'.heading = n.declared.heading none := by
  obtain ⟨hdepth, hblock⟩ := eq_of_heading hs
  obtain ⟨word, hkind, hword⟩ := Token.exists_of_keyword? n.keyword.2
  have hname : FileState.spaceName (n.name.token :: n.stop.1 :: after)
      = (some n.name.text, n.stop.1 :: after) := by simp [FileState.spaceName, n.name.name?_eq]
  have hstop : n.stop.1.isPunct .braceOpen = false := n.stop.isPunct_eq _
  have hstep : step s n.keyword.1 (n.name.token :: n.stop.1 :: after)
      = ⟨none, { s with scope := n.declared.scope }, after⟩ := by
    simp only [step, hkind, hword, FileState.enterNamespace, FileState.afterNamespace, hname,
      List.head?_cons, Option.any_some, hstop]
    rfl
  refine ⟨{ s with scope := n.declared.scope }, Comes.of_step_eq hstep, ?_⟩
  rw [FileState.heading, hdepth, hblock]
  rfl

end SpaceStatement

namespace SpaceOpening

def tokens (n : SpaceOpening) : List Token :=
  n.keyword.1 :: ((n.name.map Name.token).toList ++ [n.opener.1])

def declared (n : SpaceOpening) : Declared := ⟨n.name.map Name.text, []⟩

theorem exists_comes (n : SpaceOpening) (hs : s.heading = d.heading none) (after : List Token) :
    ∃ s', Comes s (n.tokens ++ after) s' after ∧ s'.heading = n.declared.heading (some 0) := by
  obtain ⟨hdepth, hblock⟩ := eq_of_heading hs
  obtain ⟨word, hkind, hword⟩ := Token.exists_of_keyword? n.keyword.2
  have hopener : n.opener.1.isPunct .braceOpen = true := n.opener.isPunct_eq _
  have hunnamed : n.opener.1.name? = none := by simp [Token.name?, n.opener.2]
  have hname : FileState.spaceName ((n.name.map Name.token).toList ++ n.opener.1 :: after)
      = (n.name.map Name.text, n.opener.1 :: after) := by
    cases n.name with
    | none => simp [FileState.spaceName, hunnamed]
    | some name => simp [FileState.spaceName, name.name?_eq]
  have hstep : step s n.keyword.1 ((n.name.map Name.token).toList ++ n.opener.1 :: after)
      = ⟨none, { s with scope := n.declared.scope, block := some s.depth, depth := s.depth + 1 },
        after⟩ := by
    simp only [step, hkind, hword, FileState.enterNamespace, FileState.afterNamespace, hname,
      List.head?_cons, Option.any_some, hopener]
    rfl
  refine ⟨{ s with scope := n.declared.scope, block := some s.depth, depth := s.depth + 1 }, ?_, ?_⟩
  · rw [tokens, List.cons_append, List.append_assoc, List.singleton_append]
    exact Comes.of_step_eq hstep
  · rw [FileState.heading, hdepth]
    rfl

end SpaceOpening

theorem exists_comes_within (opening : SpaceOpening) (statements : List Statement)
    (hspelled : ∀ t ∈ statements.flatMap Statement.tokens, IsSpelled t)
    (hs : s.heading = d.heading none) (after : List Token) :
    ∃ s', Comes s (opening.tokens ++ (statements.flatMap Statement.tokens ++ after)) s' after ∧
      s'.heading = (opening.declared.importing
        (statements.flatMap Statement.declared)).heading (some 0) := by
  obtain ⟨s₁, hcomes₁, hheading₁⟩ :=
    opening.exists_comes hs (statements.flatMap Statement.tokens ++ after)
  obtain ⟨s₂, hcomes₂, hheading₂⟩ :=
    exists_comes_statements statements hspelled hheading₁ after
  exact ⟨s₂, hcomes₁.trans hcomes₂, hheading₂⟩

/-- A part of a file outside of all braces: a statement, the beginning of a namespace, or a whole
namespace with its braces. -/
inductive Part where
  | statement (statement : Statement)
  | space (start : SpaceStatement)
  | block (opening : SpaceOpening) (statements : List Statement) (closer : Mark .braceClose)

namespace Part

def tokens : Part → List Token
  | statement st => st.tokens
  | space start => start.tokens
  | block opening statements closer =>
    opening.tokens ++ (statements.flatMap Statement.tokens ++ [closer.1])

/-- What is declared behind the part.  Nothing is left of a namespace behind its brace. -/
def declared (d : Declared) : Part → Declared
  | statement st => d.importing st.declared
  | space start => start.declared
  | block _ _ _ => ⟨none, []⟩

theorem exists_comes (p : Part) (hspelled : ∀ t ∈ p.tokens, IsSpelled t)
    (hs : s.heading = d.heading none) (after : List Token) :
    ∃ s', Comes s (p.tokens ++ after) s' after ∧ s'.heading = (p.declared d).heading none := by
  cases p with
  | statement st => exact st.exists_comes hspelled hs after
  | space start => exact start.exists_comes hs after
  | block opening statements closer =>
    have hinside : ∀ t ∈ statements.flatMap Statement.tokens, IsSpelled t :=
      fun t ht ↦ hspelled t (List.mem_append_right _ (List.mem_append_left _ ht))
    obtain ⟨s', hcomes, hheading⟩ :=
      exists_comes_within opening statements hinside hs (closer.1 :: after)
    have hcloser : Comes s' (closer.1 :: after) s'.closeBrace.dropPending after :=
      .head (by simp only [step, closer.2]; exact .refl)
    refine ⟨s'.closeBrace.dropPending, by simpa [tokens] using hcomes.trans hcloser, ?_⟩
    have hdepth : s'.depth = 1 := congrArg Heading.depth hheading
    have hblock : s'.block = some 0 := congrArg Heading.block hheading
    simp only [FileState.heading, FileState.closeBrace, hdepth, hblock, Nat.sub_self, if_true]
    rfl

/-- The names of namespaces are not empty. -/
theorem space_declared_ne (p : Part) (hspelled : ∀ t ∈ p.tokens, IsSpelled t)
    (hd : d.space ≠ some "") : (p.declared d).space ≠ some "" := by
  cases p with
  | statement => exact hd
  | space start =>
    intro hempty
    have hname := hspelled start.name.token (by simp [tokens, SpaceStatement.tokens]) _
      start.name.kind_eq
    exact hname.ne_empty (Option.some.inj hempty)
  | block => simp [declared]

end Part

/-- The declared scope behind several parts. -/
def declaredBehind (parts : List Part) (d : Declared) : Declared := parts.foldl Part.declared d

theorem exists_comes_parts (parts : List Part)
    (hspelled : ∀ t ∈ parts.flatMap Part.tokens, IsSpelled t)
    (hs : s.heading = d.heading none) (after : List Token) :
    ∃ s', Comes s (parts.flatMap Part.tokens ++ after) s' after ∧
      s'.heading = (declaredBehind parts d).heading none := by
  induction parts generalizing s d with
  | nil => exact ⟨s, .refl, hs⟩
  | cons p parts ih =>
    obtain ⟨hp, hmore⟩ := List.forall_mem_append.mp (List.flatMap_cons ▸ hspelled)
    obtain ⟨s', hcomes, hheading⟩ := p.exists_comes hp hs (parts.flatMap Part.tokens ++ after)
    obtain ⟨s'', hcomes', hheading'⟩ := ih hmore hheading
    refine ⟨s'', ?_, hheading'⟩
    rw [List.flatMap_cons, List.append_assoc]
    exact hcomes.trans hcomes'

theorem space_declaredBehind_ne (parts : List Part)
    (hspelled : ∀ t ∈ parts.flatMap Part.tokens, IsSpelled t) (hd : d.space ≠ some "") :
    (declaredBehind parts d).space ≠ some "" := by
  induction parts generalizing d with
  | nil => exact hd
  | cons p parts ih =>
    obtain ⟨hp, hmore⟩ := List.forall_mem_append.mp (List.flatMap_cons ▸ hspelled)
    exact ih hmore (p.space_declared_ne hp hd)

/-! ## Files -/

/-- A file up to an enum, which may stand within the braces of a namespace. -/
structure EnumFile where
  parts : List Part
  block : Option (SpaceOpening × List Statement)
  enum : Enum

namespace EnumFile

def blockTokens (w : EnumFile) : List Token :=
  w.block.elim [] fun b ↦ b.1.tokens ++ b.2.flatMap Statement.tokens

def tokens (w : EnumFile) : List Token :=
  w.parts.flatMap Part.tokens ++ (w.blockTokens ++ w.enum.tokens)

/-- What is declared in the namespace of the enum in front of it. -/
def declared (w : EnumFile) : Declared :=
  match w.block with
  | none => declaredBehind w.parts ⟨none, []⟩
  | some (opening, statements) => opening.declared.importing (statements.flatMap Statement.declared)

variable {w : EnumFile}

/-- The reader comes to the enum with the declared scope. -/
theorem exists_comes_enum (hspelled : ∀ t ∈ w.tokens, IsSpelled t) (rest : List Token) :
    ∃ s, Comes FileState.start (w.tokens ++ rest) s (w.enum.tokens ++ rest) ∧
      s.scope = w.declared.scope := by
  obtain ⟨hparts, hmore⟩ := List.forall_mem_append.mp hspelled
  obtain ⟨hblock, -⟩ := List.forall_mem_append.mp hmore
  have hstart : FileState.start.heading = (⟨none, []⟩ : Declared).heading none := rfl
  obtain ⟨s, hcomes, hheading⟩ := exists_comes_parts w.parts hparts hstart
    (w.blockTokens ++ (w.enum.tokens ++ rest))
  rw [tokens, List.append_assoc, List.append_assoc]
  rw [blockTokens] at hblock hcomes ⊢
  cases h : w.block with
  | none =>
    rw [h] at hcomes
    exact ⟨s, hcomes, by rw [declared, h]; exact congrArg Heading.scope hheading⟩
  | some b =>
    obtain ⟨opening, statements⟩ := b
    rw [h] at hblock hcomes
    obtain ⟨s', hcomes', hheading'⟩ := exists_comes_within opening statements
      (List.forall_mem_append.mp hblock).2 hheading (w.enum.tokens ++ rest)
    rw [← List.append_assoc] at hcomes'
    exact ⟨s', hcomes.trans hcomes', by rw [declared, h]; exact congrArg Heading.scope hheading'⟩

theorem space_declared_ne (hspelled : ∀ t ∈ w.tokens, IsSpelled t) :
    w.declared.space ≠ some "" := by
  obtain ⟨hparts, hmore⟩ := List.forall_mem_append.mp hspelled
  obtain ⟨hblock, -⟩ := List.forall_mem_append.mp hmore
  rw [declared]
  cases h : w.block with
  | none => exact space_declaredBehind_ne w.parts hparts (by simp)
  | some b =>
    rw [blockTokens, h] at hblock
    obtain ⟨hopening, -⟩ := List.forall_mem_append.mp hblock
    intro hempty
    obtain ⟨name, hname, htext⟩ := Option.map_eq_some_iff.mp hempty
    have hspells := hopening name.token (by simp [SpaceOpening.tokens, hname]) _ name.kind_eq
    exact hspells.ne_empty htext

/-- An enum is declared in the scope of the imports of classes in front of it in its namespace, and
names are resolved by them. -/
theorem exists_isScope {w : EnumFile} {source : String} {rest : List Token}
    (hsource : Php.tokens source = w.tokens ++ rest) :
    ∃ e ∈ (SourceFile.ofSource source).enums, DeclaresAt source (w.enum.tokens ++ rest) e ∧
      e.name = w.enum.name.text ∧ w.declared.IsScope e.scope := by
  have hspelled : ∀ t ∈ w.tokens, IsSpelled t := fun t ht name ↦
    spells_of_mem_tokens (hsource ▸ List.mem_append_left rest ht)
  obtain ⟨s, hcomes, hscope⟩ := exists_comes_enum hspelled rest
  rw [← hsource] at hcomes
  obtain ⟨hmem, hdeclares⟩ := w.enum.declaresAt_declared hcomes
  refine ⟨_, hmem, hdeclares, rfl, ?_⟩
  rw [SourceFile.declared, hscope]
  exact Declared.isScope_scope (space_declared_ne hspelled)

theorem toLower_as : "as".toLower = "as" := by decide +kernel

theorem toLower_namespace : "namespace".toLower = "namespace" := by decide +kernel

def clauseOf (name : String) (h : ((⟨.name name, 1⟩ : Token).isKeyword "function"
    || (⟨.name name, 1⟩ : Token).isKeyword "const") = false) (short : Option String) : Clause :=
  ⟨⟨.first name, h⟩, short.map fun s ↦ (keywordFirst "as" toLower_as, .first s)⟩

def commaFirst : Mark .comma := markFirst .comma

/-- Imports in another namespace, and in that of the enum a list, one of functions and a group. -/
def mixedFile : EnumFile where
  parts :=
    [.space ⟨keywordFirst "namespace" toLower_namespace, .first "Old", markFirst .semicolon⟩,
      .statement (.classes ⟨keywordFirst "use" SpaceFile.toLower_use,
        .classes ⟨clauseOf "Old\\Gone" (by decide +kernel) none, []⟩, markFirst .semicolon⟩),
      .space ⟨keywordFirst "namespace" toLower_namespace, .first "App", markFirst .semicolon⟩,
      .statement (.classes ⟨keywordFirst "use" SpaceFile.toLower_use,
        .classes ⟨clauseOf "\\Lib\\Kit" (by decide +kernel) (some "Tool"),
          [(commaFirst, clauseOf "Lib\\Color" (by decide +kernel) none)]⟩, markFirst .semicolon⟩),
      .statement (.others ⟨keywordFirst "use" SpaceFile.toLower_use, ⟨.name "function", 1⟩,
        .inl (by decide +kernel), [⟨.name "Lib\\make", 1⟩], by decide, markFirst .semicolon⟩),
      .statement (.classes ⟨keywordFirst "use" SpaceFile.toLower_use,
        .group ⟨.first "\\Lib", by decide +kernel⟩ ⟨⟨.symbol '\\', 1⟩, rfl⟩ (markFirst .braceOpen)
          ⟨clauseOf "Shape" (by decide +kernel) none,
            [(commaFirst, clauseOf "Deep\\Color" (by decide +kernel) (some "COLOR"))]⟩ none
          (markFirst .braceClose), markFirst .semicolon⟩)]
  block := none
  enum := enumOf []

def mixedSource : String :=
  "<?php namespace Old; use Old\\Gone; namespace App; use \\Lib\\Kit as Tool, Lib\\Color; "
    ++ "use function Lib\\make; use \\Lib\\\x7bShape, Deep\\Color as COLOR\x7d; "
    ++ "enum E: string \x7b\x7d"

theorem isScope_mixedSource :
    Php.tokens mixedSource = mixedFile.tokens ++ [] ∧
      ∃ e ∈ (SourceFile.ofSource mixedSource).enums,
        DeclaresAt mixedSource (mixedFile.enum.tokens ++ []) e ∧ e.name = "E" ∧
          mixedFile.declared.IsScope e.scope ∧
          e.scope.resolve "Color\\Dark" = "Lib\\Deep\\Color\\Dark" ∧
          e.scope.resolve "Gone" = "App\\Gone" := by
  have hsource : Php.tokens mixedSource = mixedFile.tokens ++ [] := by decide +kernel
  obtain ⟨e, hmem, hdeclares, hname, hscope⟩ := exists_isScope hsource
  have hdark : Name.ofSegments ["Color", "Dark"] = "Color\\Dark" ∧
      Name.ofSegments ["Lib\\Deep\\Color", "Dark"] = "Lib\\Deep\\Color\\Dark" := by
    decide +kernel
  have hgone : Name.ofSegments ["Gone"] = "Gone" ∧
      Name.ofSegments (mixedFile.declared.space.toList ++ ["Gone"]) = "App\\Gone" := by
    decide +kernel
  have hlower : "Color".toLower = "color" ∧ "Gone".toLower = "gone" := by decide +kernel
  have himport : mixedFile.declared.import? "color" = some "Lib\\Deep\\Color" := by
    decide +kernel
  have hother : mixedFile.declared.import? "gone" = none := by decide +kernel
  have hcolor := hscope.imported "Color" ["Dark"] _ ⟨by decide, by decide⟩
    (hlower.1.symm ▸ himport)
  have hnone := hscope.others "Gone" [] ⟨by decide, by decide⟩ (hlower.2.symm ▸ hother)
  rw [hdark.1, hdark.2] at hcolor
  rw [hgone.1, hgone.2] at hnone
  exact ⟨hsource, e, hmem, hdeclares, hname, hscope, hcolor, hnone⟩

end EnumFile

end Written

end FrontendSync.Php
