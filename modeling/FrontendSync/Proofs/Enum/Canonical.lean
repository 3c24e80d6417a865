import FrontendSync.Proofs.Enum.Record
import FrontendSync.Proofs.Php.CanonicalReading

/-!
# Records of canonical enums

The record of an enum that is read from the source of a canonical enum is the record that the
canonical enum stands for.
-/

namespace FrontendSync.Php

open EnumRecord (Entry)

/-! ## Names of groups -/

theorem lt_of_isIdentifier {c : Char} {s : List Char} (h : isIdentifier (c :: s) = true) :
    c.toNat < 128 := by
  simp only [isIdentifier, Bool.and_eq_true, Bool.or_eq_true, beq_iff_eq, Text.isAlpha_iff] at h
  rcases h.1 with (⟨-, hhigh⟩ | ⟨-, hhigh⟩) | rfl
  · exact Nat.lt_of_le_of_lt hhigh (by decide)
  · exact Nat.lt_of_le_of_lt hhigh (by decide)
  · decide

theorem groupName_of_isIdentifier {name : String} (h : isIdentifier name.toList = true) :
    EnumRecord.groupName name = capitalized name := by
  unfold EnumRecord.groupName capitalized
  cases hname : name.toList with
  | nil => rfl
  | cons c s =>
    rw [hname] at h
    simp only [Text.upper_of_lt (lt_of_isIdentifier h), List.singleton_append]

/-- A name and its capitalized form differ in letter case only. -/
theorem toLower_capitalized {name : String} (h : isIdentifier name.toList = true) :
    (capitalized name).toLower = name.toLower := by
  apply String.toList_injective
  unfold capitalized
  cases hname : name.toList with
  | nil =>
    rw [hname] at h
    simp [isIdentifier] at h
  | cons c s =>
    rw [hname] at h
    have htoLower (t : String) : t.toLower.toList = t.toList.map Char.toLower := String.toList_map
    simp [htoLower, hname, Text.toLower_toUpper_of_lt (lt_of_isIdentifier h)]

namespace CanonicalEnum

/-- The group that a method stands for. -/
def groupRecord (g : String × List (Key × Entry)) : EnumRecord.Group where
  name := capitalized g.1
  shape := if g.2.map Prod.fst = (List.range g.2.length).map (fun n ↦ Key.int (n : Nat)) then .array
    else .record
  entries := g.2.map fun e ↦ (e.1.text, e.2)

/-- The record that an enum stands for. -/
def record (target : Target) (e : CanonicalEnum) : EnumRecord where
  name := e.name
  qualified := e.qualified
  space := e.spaceName
  doc := e.doc
  cases := e.cases
  groups := e.groups.map groupRecord
  path := target.path e.name

/-! ## From the declaration to the record -/

section Declaration

variable {own : String} {e : CanonicalEnum} {d : EnumDecl}

theorem casesOf_declaration (h : e.IsCanonical) (hd : IsDeclaration own e d) :
    EnumRecord.casesOf d false = .ok e.cases := by
  rw [EnumRecord.casesOf, hd.backing, hd.cases]
  simp only
  rw [mapM_eq_ok_iff, List.forall₂_map_left_iff, List.forall₂_same]
  intro c hc
  have hvalue := (h.cases c hc).value
  obtain ⟨name, value, doc⟩ := c
  cases hbacking : e.backing <;> rw [hbacking] at hvalue <;> cases value <;>
    first | exact hvalue.elim | rfl

theorem wishes_declaration (hd : IsDeclaration own e d) :
    EnumRecord.Wishes.of d = ⟨false, e.groups.map Prod.fst⟩ := by
  have hattribute : d.attribute? Registry.generateMarker
      = some (marker (e.groups.map Prod.fst)) := by
    have hsame : Name.same (Name.short Registry.generateMarker) Registry.generateMarker = true := by
      decide +kernel
    have hnamed : Attribute.isNamed Registry.generateMarker (marker (e.groups.map Prod.fst))
        = true := hsame
    rw [EnumDecl.attribute?, hd.attributes, List.find?_cons_of_pos hnamed]
  have hdocs : (marker (e.groups.map Prod.fst)).boolArg "requiresComments" 0 false = false := rfl
  have hmethods : (marker (e.groups.map Prod.fst)).stringsArg "includeMethods" 1
      = e.groups.map Prod.fst := by
    have harg : (marker (e.groups.map Prod.fst)).arg? "includeMethods" 1
        = some (.array (methodList (e.groups.map Prod.fst))) := rfl
    have htexts (methods : List String) :
        (methodList methods).filterMap (fun p ↦ p.2.string?) = methods := by
      rw [methodList, List.filterMap_map]
      refine (congrFun List.filterMap_eq_map _).trans ?_
      exact List.zipIdx_map_fst 0 methods
    rw [Attribute.stringsArg, harg]
    exact htexts _
  rw [EnumRecord.Wishes.of, hattribute]
  simp only [hdocs, hmethods]

/-- A method is found by its name, because no other has the name in another letter case. -/
theorem exists_method? {className : String} {groups : List (String × List (Key × Entry))}
    {methods : List MethodDecl} (h : List.Forall₂ (IsMethodOf own className) groups methods)
    (hnames : (groups.map fun g ↦ g.1.toLower).Nodup) {g : String × List (Key × Entry)}
    (hg : g ∈ groups) :
    ∃ m, (methods.find? fun m ↦ Name.same m.name g.1) = some m ∧ IsMethodOf own className g m := by
  induction h with
  | nil => simp at hg
  | @cons g' m groups methods hm _ ih =>
    rw [List.map_cons, List.nodup_cons] at hnames
    by_cases hsame : Name.same m.name g.1 = true
    · refine ⟨m, List.find?_cons_of_pos hsame, ?_⟩
      rcases List.mem_cons.mp hg with rfl | hg
      · exact hm
      · rw [Name.same, beq_iff_eq, hm.name] at hsame
        exact absurd (List.mem_map.mpr ⟨g, hg, hsame.symm⟩) hnames.1
    · simp only [List.find?_cons, Bool.eq_false_iff.mpr hsame]
      rcases List.mem_cons.mp hg with rfl | hg
      · exact absurd (by simp [Name.same, hm.name]) hsame
      · exact ih hnames.2 hg

/-- The body of a method returns the entries of its group. -/
theorem returnedEntries_bodyLexemes {ctx : Context} {className : String}
    {entries : List (Key × Entry)}
    (h : (returned className entries).IsWritable ctx fun _ ↦ own) (line : Nat) :
    EnumRecord.returnedEntries ctx (Lexeme.tokens line (bodyLexemes own className entries))
      = .ok (entries.map fun e ↦ (e.1, .ofEntry className e.2)) := by
  obtain ⟨l₁, l₂, l₃, htokens⟩ := tokens_bodyLexemes own className entries line
  have hlower : "return".toLower = "return" := by decide +kernel
  have hkeyword : Token.isKeyword "return" ⟨.name "return", l₁⟩ = true := by
    simp [Token.isKeyword, Token.keyword?, Token.name?, hlower]
  obtain ⟨_, hread⟩ := h.unaryReads.reads l₂ [⟨.punct .semicolon, l₃⟩]
    (Expression.ends_punct (by decide) _ _)
  have hsemicolon : Token.isPunct .semicolon ⟨.punct .semicolon, l₃⟩ = true := rfl
  rw [EnumRecord.returnedEntries, htokens, EnumRecord.returnedValue]
  simp only [hkeyword, if_true, hread, hsemicolon]
  rfl

theorem entryOf_ofEntry (hd : IsDeclaration own e d) {entry : Entry}
    (h : IsCanonicalEntry (e.cases.map EnumRecord.Case.name) entry) :
    EnumRecord.entryOf d (.ofEntry e.qualified entry) = .ok entry := by
  cases entry with
  | ofScalar s =>
    cases s with
    | float x => exact h.elim
    | null | bool _ | int _ | string _ => rfl
  | ofCase name =>
    have hsame : Name.same e.qualified d.qualified = true := by simp [Name.same, hd.qualified]
    have hcase : (d.case? name).isNone = false := by
      obtain ⟨c, hc, hname⟩ := List.mem_map.mp h
      have hmem : caseDecl c ∈ d.cases := hd.cases ▸ List.mem_map_of_mem hc
      have hsome : (d.case? name).isSome = true :=
        List.find?_isSome.mpr ⟨caseDecl c, hmem, by simpa [caseDecl] using hname⟩
      rw [← Option.not_isSome, hsome]
      rfl
    simp [Value.ofEntry, EnumRecord.entryOf, hsame, hcase]

theorem entriesOf_ofEntry (hd : IsDeclaration own e d) (m : MethodDecl)
    {entries : List (Key × Entry)}
    (h : ∀ p ∈ entries, IsCanonicalEntry (e.cases.map EnumRecord.Case.name) p.2) :
    EnumRecord.entriesOf d m (entries.map fun p ↦ (p.1, .ofEntry e.qualified p.2))
      = .ok (entries.map fun p ↦ (p.1.text, p.2)) := by
  rw [EnumRecord.entriesOf, mapM_eq_ok_iff, List.forall₂_map_left_iff, List.forall₂_map_right_iff,
    List.forall₂_same]
  intro p hp
  simp only [entryOf_ofEntry hd (h p hp)]

theorem isList_returned (className : String) (entries : List (Key × Entry)) :
    Value.isList (entries.map fun p ↦ (p.1, Value.ofEntry className p.2)) = true
      ↔ entries.map Prod.fst = (List.range entries.length).map fun n ↦ Key.int (n : Nat) := by
  have hkeys : Ordered.keys (entries.map fun p ↦ (p.1, Value.ofEntry className p.2))
      = entries.map Prod.fst := by
    rw [Ordered.keys, List.map_map]
    rfl
  rw [Value.isList_iff, hkeys, List.length_map]

/-- A method of the declaration returns the group it stands for. -/
theorem groupOf_declaration (lookup : String → String → Option Value) (h : e.IsCanonical)
    (hown : e.IsOwnName own) (hd : IsDeclaration own e d) {g : String × List (Key × Entry)}
    (hg : g ∈ e.groups) : EnumRecord.groupOf lookup d g.1 = .ok (groupRecord g) := by
  obtain ⟨m, hfind, hm⟩ := exists_method? hd.methods h.methodNames hg
  have hcanonical := h.groups g hg
  have hcontext : (⟨d.scope, some d.qualified, lookup⟩ : Context) = e.context lookup := by
    rw [hd.scope, hd.qualified]
    rfl
  obtain ⟨line, hbody⟩ := hm.body
  have hreturned := returnedEntries_bodyLexemes (isWritable_of_mem_groups h hown lookup hg) line
  have hentries := entriesOf_ofEntry hd m fun p hp ↦ (hcanonical.entries p hp).2
  have hname : EnumRecord.groupName m.name = capitalized g.1 := by
    rw [hm.name, groupName_of_isIdentifier hcanonical.name]
  have hmethod : d.method? g.1 = some m := hfind
  rw [EnumRecord.groupOf, hmethod]
  simp only [hm.params, hm.isPublic, hm.isStatic, hbody, Option.getD_some, hcontext, hreturned,
    hentries, hname]
  simp only [isList_returned]
  rfl

/-- Methods whose names differ in more than letter case have groups of different names. -/
theorem capitalized_ne (h : e.IsCanonical) {before after : List (String × List (Key × Entry))}
    {g g' : String × List (Key × Entry)} (hgroups : e.groups = before ++ g :: after)
    (hg' : g' ∈ before) : capitalized g'.1 ≠ capitalized g.1 := by
  intro heq
  have hlower : g'.1.toLower = g.1.toLower := by
    rw [← toLower_capitalized (h.groups g' (by simp [hgroups, hg'])).name, heq,
      toLower_capitalized (h.groups g (by simp [hgroups])).name]
  have hnodup := h.methodNames
  rw [hgroups, List.map_append, List.map_cons, List.nodup_append] at hnodup
  exact hnodup.2.2 _ (List.mem_map_of_mem hg') _ List.mem_cons_self hlower

/-- The groups are those of the methods, in order. -/
theorem groupsOf_declaration (lookup : String → String → Option Value) (h : e.IsCanonical)
    (hown : e.IsOwnName own) (hd : IsDeclaration own e d)
    (before after : List (String × List (Key × Entry))) (hgroups : e.groups = before ++ after) :
    EnumRecord.groupsOf lookup d (before.map fun g ↦ (g.1, groupRecord g)) (after.map Prod.fst)
      = .ok (e.groups.map groupRecord) := by
  induction after generalizing before with
  | nil =>
    rw [List.map_nil, EnumRecord.groupsOf, hgroups, List.append_nil, List.map_map]
    rfl
  | cons g after ih =>
    have hg : g ∈ e.groups := by simp [hgroups]
    have hname : (groupRecord g).name ≠ d.name := by
      rw [hd.name]
      exact h.groupNames g hg
    have hnew : (before.map fun g ↦ (g.1, groupRecord g)).find?
        (fun p ↦ p.2.name == (groupRecord g).name) = none := by
      rw [List.find?_eq_none]
      intro p hp heq
      obtain ⟨g', hg', rfl⟩ := List.mem_map.mp hp
      exact capitalized_ne h hgroups hg' (beq_iff_eq.mp heq)
    rw [List.map_cons, EnumRecord.groupsOf, groupOf_declaration lookup h hown hd hg]
    simp only [beq_eq_false_iff_ne.mpr hname, Bool.false_eq_true, if_false, hnew]
    have hmore := ih (before ++ [g]) (by simp [hgroups])
    rwa [List.map_append, List.map_singleton] at hmore

end Declaration

/-- The source of a canonical enum declares one enum, whose record is the one the canonical enum
stands for.  No text is longer than the bound: it keeps the numbers of the methods in range. -/
theorem ofDecl_source {own : String} {e : CanonicalEnum} (h : e.IsCanonical)
    (hown : e.IsOwnName own) (hlength : (e.source own).length < 2 ^ 63)
    (lookup : String → String → Option Value) (target : Target) :
    ∃ d, (SourceFile.ofSource (e.source own)).enums = [d] ∧ d.backing = some e.backing ∧
      EnumRecord.ofDecl lookup target d = .ok (e.record target) := by
  obtain ⟨d, henums, hd⟩ := exists_enums_source h hown hlength
  refine ⟨d, henums, hd.backing, ?_⟩
  have hgroups := groupsOf_declaration lookup h hown hd [] e.groups rfl
  rw [List.map_nil] at hgroups
  simp only [EnumRecord.ofDecl, wishes_declaration hd, casesOf_declaration h hd, hgroups, bind,
    Except.bind, pure, Except.pure, hd.name, hd.qualified, hd.space, hd.doc]
  rfl

/-- An enum with a case and methods that are named as keywords, and with marks in its texts. -/
def stateEnum : CanonicalEnum where
  space := some ["App", "Enums"]
  name := "State"
  backing := .string
  doc := some "What /* a \x7d thing is"
  cases := [⟨"Active", .string "it's", some "first; 'best'"⟩,
    ⟨"case", .string "?> \\ ];\x7d\n", none⟩]
  groups := [("labels", [(.string "01", .ofCase "case"), (.int (-3), .ofScalar (.int (-5)))]),
    ("function", [(.int 0, .ofScalar .null), (.int 1, .ofScalar (.string "# ["))]), ("class", [])]

def stateRecord : EnumRecord where
  name := "State"
  qualified := "App\\Enums\\State"
  space := some "App\\Enums"
  doc := some "What /* a \x7d thing is"
  cases := [⟨"Active", .string "it's", some "first; 'best'"⟩,
    ⟨"case", .string "?> \\ ];\x7d\n", none⟩]
  groups := [⟨"Labels", .record, [("01", .ofCase "case"), ("-3", .ofScalar (.int (-5)))]⟩,
    ⟨"Function", .array, [("0", .ofScalar .null), ("1", .ofScalar (.string "# ["))]⟩,
    ⟨"Class", .array, []⟩]
  path := ⟨"out/state.ts"⟩

theorem ofDecl_source_stateEnum :
    stateEnum.IsCanonical ∧ stateEnum.IsOwnName "static" ∧
      (stateEnum.source "static").length < 2 ^ 63 ∧
      ∃ d, (SourceFile.ofSource (stateEnum.source "static")).enums = [d] ∧
        d.backing = some .string ∧
        EnumRecord.ofDecl (fun _ _ ↦ none) ⟨⟨"out"⟩, "state.ts", .ts⟩ d = .ok stateRecord := by
  have h : stateEnum.IsCanonical := by decide +kernel
  have hown : stateEnum.IsOwnName "static" := .inr (.inl rfl)
  have hlength : (stateEnum.source "static").length < 2 ^ 63 := by
    rw [source, String.length_ofList]
    decide +kernel
  have hrecord : stateEnum.record ⟨⟨"out"⟩, "state.ts", .ts⟩ = stateRecord := by decide +kernel
  exact ⟨h, hown, hlength, hrecord ▸ ofDecl_source h hown hlength _ _⟩

end CanonicalEnum

end FrontendSync.Php
