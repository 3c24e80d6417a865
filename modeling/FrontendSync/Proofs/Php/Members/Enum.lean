import FrontendSync.Proofs.Php.Members.Reading
import FrontendSync.Proofs.Php.Places
import FrontendSync.Proofs.Php.Statements

/-!
# Enums with written members

An enum that is written with any members, and stands where the reader of files comes to it, is
declared with the cases and methods among them, exactly unless a use of traits with adaptations
runs over one of them.
-/

namespace FrontendSync.Php

/-- The context of the values of an enum's cases. -/
def EnumDecl.context (e : EnumDecl) : Context := ⟨e.scope, some e.qualified, fun _ _ ↦ none⟩

/-- The first braces are looked for behind all that stands in front of them. -/
theorem EnumDecl.braces?_append_of_nested {head inside : List Token}
    (hhead : ∀ t ∈ head, t.isPunct .braceOpen = false) (opener : Mark .braceOpen)
    (h : Written.Balanced inside) (closer : Mark .braceClose) (rest : List Token) :
    braces? (head ++ opener.1 :: (inside ++ closer.1 :: rest)) = some (inside, rest) := by
  have hskip : ∀ t ∈ head, (!t.isPunct .braceOpen) = true := fun t ht ↦ by simp [hhead t ht]
  have hopener : opener.1.isPunct .braceOpen = true := opener.isPunct_eq _
  rw [braces?, List.dropWhile_append_of_pos hskip]
  simp [hopener, Brackets.group_append_closer h closer.closes_eq]

namespace Written

/-! ## Enums -/

/-- An enum with its type, its interfaces and its members. -/
structure Enum where
  keyword : Keyword "enum"
  name : Name
  type : Option (Mark .colon × Name)
  interfaces : Option (Keyword "implements" × Names)
  opener : Mark .braceOpen
  body : List Member
  closer : Mark .braceClose

namespace Enum

def typeTokens (w : Enum) : List Token := w.type.elim [] fun t ↦ [t.1.1, t.2.token]

def interfaceTokens (w : Enum) : List Token := w.interfaces.elim [] fun i ↦ i.1.1 :: i.2.tokens

def bodyTokens (w : Enum) : List Token := w.body.flatMap Member.tokens

def tokens (w : Enum) : List Token :=
  w.keyword.1 :: w.name.token :: (w.typeTokens ++ (w.interfaceTokens ++ w.opener.1 ::
    (w.bodyTokens ++ [w.closer.1])))

def backing (w : Enum) : Option Backing := w.type.bind fun t ↦ EnumDecl.backing? [t.2.token]

/-- An enum is reported with its cases and its methods, in order. -/
structure IsReported (w : Enum) (e : EnumDecl) : Prop where
  cases : e.cases = w.body.filterMap (Member.case? e.context)
  methods : e.methods = w.body.filterMap Member.method?

theorem interfaceTokens_flat (w : Enum) : ∀ t ∈ w.interfaceTokens,
    t.isPunct .braceOpen = false ∧ t.isPunct .colon = false := by
  rw [interfaceTokens]
  cases w.interfaces with
  | none => simp
  | some i =>
    obtain ⟨text, hkind, -⟩ := Token.exists_of_keyword? i.1.2
    refine List.forall_mem_cons.mpr ⟨?_, fun t ht ↦ ?_⟩
    · simp [Token.isPunct, hkind]
    · rcases i.2.flat t ht with ⟨name, hname⟩ | hcomma
      · simp [Token.isPunct, hname]
      · simp [Token.isPunct, hcomma]

theorem readType_append (w : Enum) (rest : List Token) :
    EnumDecl.readType (w.typeTokens ++ (w.interfaceTokens ++ w.opener.1 :: rest))
      = (w.backing, w.interfaceTokens ++ w.opener.1 :: rest) := by
  rw [typeTokens, backing]
  cases w.type with
  | none =>
    have hflat := w.interfaceTokens_flat
    cases hinterfaces : w.interfaceTokens with
    | nil => simp [EnumDecl.readType, w.opener.isPunct_eq]
    | cons t ts =>
      rw [hinterfaces] at hflat
      simp [EnumDecl.readType, (hflat t List.mem_cons_self).2]
  | some t => simp [EnumDecl.readType, EnumDecl.backing?, t.1.isPunct_eq]

theorem braces?_append (w : Enum) (rest : List Token) :
    EnumDecl.braces? (w.interfaceTokens ++ w.opener.1 :: (w.bodyTokens ++ w.closer.1 :: rest))
      = some (w.bodyTokens, rest) :=
  EnumDecl.braces?_append_of_nested (fun t ht ↦ (w.interfaceTokens_flat t ht).1) w.opener
    (.flatMap fun m _ ↦ m.balanced) w.closer rest

theorem declared_step (w : Enum) (s : FileState) (rest : List Token) {behind : List Token}
    {t : Token} (h : t :: behind = w.tokens ++ rest) :
    (SourceFile.step s t behind).declared
      = some (SourceFile.declared s w.name.text w.backing w.bodyTokens) := by
  rw [tokens, List.cons_append] at h
  obtain ⟨rfl, rfl⟩ := List.cons.inj h
  rw [SourceFile.declared_step, if_pos w.keyword.2]
  simp [EnumDecl.read?, w.name.name?_eq, EnumDecl.readNamed?, w.readType_append, w.braces?_append,
    SourceFile.declared]

theorem isReported_declared_iff (w : Enum) (s : FileState)
    (hplain : ∀ m ∈ lost w.body, m.IsPlain) :
    w.IsReported (SourceFile.declared s w.name.text w.backing w.bodyTokens)
      ↔ ∀ m ∈ lost w.body, m.isQuiet = true := by
  let e := SourceFile.declared s w.name.text w.backing w.bodyTokens
  have hread : Members.read e.context none true false w.bodyTokens
      = Written.declared e.context (kept w.body) := read_members hplain
  have hmembers : (⟨e.cases, e.methods⟩ : Members) = Written.declared e.context (kept w.body) :=
    hread
  rw [← declared_kept_eq_iff e.context, ← hmembers, Written.declared, Members.mk.injEq]
  exact ⟨fun h ↦ ⟨h.cases, h.methods⟩, fun h ↦ ⟨h.1, h.2⟩⟩

/-- An enum that stands where the reader comes to it is reported with all its cases and methods if
none of them is lost behind a use with adaptations; if one is lost, it is not, as long as the
methods that are lost have no attributes behind their keyword. -/
theorem exists_isReported_iff {ts : List Token} {before after : List SourceFile.Place}
    {place : SourceFile.Place}
    (hplaces : SourceFile.places FileState.start ts = before ++ place :: after) (w : Enum)
    {rest : List Token} (hw : place.token :: place.behind = w.tokens ++ rest) :
    ∃ e ∈ (SourceFile.ofTokens ts).enums, place.declared = some e ∧ e.name = w.name.text ∧
      ((∀ m ∈ lost w.body, m.isQuiet = true) → w.IsReported e) ∧
      ((∀ m ∈ lost w.body, m.IsPlain) →
        w.IsReported e → ∀ m ∈ lost w.body, m.isQuiet = true) := by
  have hdeclared := w.declared_step place.state rest hw
  refine ⟨_, ?_, hdeclared, rfl, ?_, ?_⟩
  · rw [SourceFile.ofTokens, SourceFile.enums_read_places, hplaces]
    exact List.mem_filterMap.mpr ⟨place, by simp, hdeclared⟩
  · intro hquiet
    have hplain : ∀ m ∈ lost w.body, m.IsPlain := fun m hm ↦
      Member.isPlain_of_isQuiet (hquiet m hm)
    exact (w.isReported_declared_iff place.state hplain).mpr hquiet
  · exact fun hplain ↦ (w.isReported_declared_iff place.state hplain).mp

end Enum

/-! ## Uses with adaptations -/

/-- A name on the first line, as all tokens here. -/
def Name.first (text : String) : Name := ⟨⟨.name text, 1⟩, text, rfl⟩

def keywordFirst (word : String) (h : word.toLower = word) : Keyword word :=
  ⟨⟨.name word, 1⟩, by simp [Token.keyword?, Token.name?, h]⟩

def markFirst (p : Punct) : Mark p := ⟨⟨.punct p, 1⟩, rfl⟩

/-- The value of a case: a text. -/
def textFirst (text : String) : Phrase :=
  ⟨[⟨.string text, 1⟩], .token rfl rfl rfl .nil, by simp [Token.isPunct]⟩

/-- A use of a trait that gives a method another name. -/
def aliasing : Member :=
  .adapted [] (keywordFirst "use" (by decide +kernel)) ⟨[(Name.first "T").token], by
      simp [Name.first]⟩
    { opener := markFirst .braceOpen
      inside :=
        ⟨[(Name.first "a").token, (Name.first "as").token, (Name.first "b").token,
            ⟨.punct .semicolon, 1⟩],
          .token rfl rfl trivial (.token rfl rfl trivial
            (.token rfl rfl trivial (.token rfl rfl trivial .nil)))⟩
      closer := markFirst .braceClose
      plain := by simp [Token.isPunct, Name.first] }

def caseOf (leads : List Lead) (name text : String) : Member :=
  .case ⟨leads, keywordFirst "case" (by decide +kernel), .first name,
    some (markFirst .assign, textFirst text), markFirst .semicolon⟩

/-- An enum with the given members. -/
def enumOf (body : List Member) : Enum :=
  ⟨keywordFirst "enum" (by decide +kernel), .first "E",
    some (markFirst .colon, .first "string"), none, markFirst .braceOpen, body,
    markFirst .braceClose⟩

def constantOf (name text : String) : Member :=
  .constant [] (keywordFirst "const" (by decide +kernel))
    ⟨[(Name.first name).token, (markFirst .assign).1, ⟨.string text, 1⟩],
      .token rfl rfl rfl (.token rfl rfl rfl (.token rfl rfl rfl .nil)),
      by simp [Token.isPunct, Name.first, markFirst]⟩
    (markFirst .semicolon)

/-- A constant behind a use with adaptations is all that is lost. -/
def constantBehind : List Member :=
  [aliasing, constantOf "X" "x", caseOf [.doc "/** First. */" 1] "A" "a", caseOf [] "B" "b"]

theorem isReported_constantBehind :
    ∃ e ∈ (SourceFile.ofTokens (enumOf constantBehind).tokens).enums,
      (enumOf constantBehind).IsReported e := by
  have hplaces := SourceFile.places_cons FileState.start (enumOf constantBehind).keyword.1
    (enumOf constantBehind).tokens.tail
  obtain ⟨e, he, -, -, hreported, -⟩ := @Enum.exists_isReported_iff _ [] _ _ hplaces
    (enumOf constantBehind) [] (List.append_nil _).symm
  have hlost : lost constantBehind = [constantBehind[1]] := by
    simp [constantBehind, lost, runOn, aliasing, constantOf, caseOf, Member.isAdapted,
      Member.endsInSemicolon]
  refine ⟨e, he, hreported ?_⟩
  rw [enumOf, hlost, List.forall_mem_singleton]
  rfl

/-- An enum of two cases, with a use with adaptations in front of them. -/
def adaptedSource : String :=
  "<?php enum E: string \x7b use T \x7b a as b; \x7d case A = 'a'; case B = 'b'; \x7d"

def adaptedEnum : Enum := enumOf [aliasing, caseOf [] "A" "a", caseOf [] "B" "b"]

theorem not_isReported_adaptedSource :
    tokens adaptedSource = adaptedEnum.tokens ∧
      (SourceFile.ofSource adaptedSource).enums.map (fun e ↦ e.cases.map CaseDecl.name)
        = [["B"]] ∧
      ∀ e ∈ (SourceFile.ofSource adaptedSource).enums, ¬ adaptedEnum.IsReported e := by
  have hcases : (SourceFile.ofSource adaptedSource).enums.map
      (fun e ↦ e.cases.map CaseDecl.name) = [["B"]] := by decide +kernel
  refine ⟨by decide +kernel, hcases, ?_⟩
  intro e he hreported
  have hnames : e.cases.map CaseDecl.name ∈ [["B"]] :=
    hcases ▸ List.mem_map_of_mem he
  have hwritten : (adaptedEnum.body.filterMap (Member.case? e.context)).map CaseDecl.name
      = ["A", "B"] := rfl
  rw [hreported.cases, hwritten] at hnames
  simp at hnames

end Written

end FrontendSync.Php
