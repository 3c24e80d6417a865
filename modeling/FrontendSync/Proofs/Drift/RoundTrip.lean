import FrontendSync.Proofs.Drift.InSync
import FrontendSync.Proofs.Module.Legible
import FrontendSync.Proofs.Registry

/-!
# Fresh modules

The report on the module that has just been generated for an enum.  It is empty exactly for a
legible record: what stands in the module without quotes is a word of it, and what is written as a
number is one.
-/

namespace FrontendSync.Drift

open EnumRecord FrontendSync.Module

/-! ## Legible records -/

/-- An entry that is read as the value it is written for. -/
def IsLegibleEntry (enumName : String) : Entry → Prop
  | .ofCase name => enumName ∉ Export.literalWords ∧ Token.isWord name.toList = true
  | .ofScalar (.float x) => x.isFinite = true
  | .ofScalar _ => True

/-- A group that is found under its name, behind the groups `before` it, and whose entries are
legible. -/
structure IsLegibleGroup (enumName : String) (before : List Group) (g : Group) : Prop where
  name : Token.isWord g.name.toList = true
  entries : ∀ e ∈ g.entries, IsLegibleEntry enumName e.2
  first : ∀ g' ∈ before, constantName? g'.name ≠ some g.name

/-- A record whose enum is named by a word and whose groups are legible as far as they have
entries; where the enum is not named by a word, there is nothing in the record to be read. -/
def IsLegible (r : EnumRecord) : Prop :=
  if Token.isWord r.name.toList then
    ∀ before g after, r.groups = before ++ g :: after → g.entries ≠ [] →
      IsLegibleGroup r.name before g
  else r.cases = [] ∧ ∀ g ∈ r.groups, g.entries = []

theorem readValue?_eq_some_iff {enumName : String} {e : Entry} :
    readValue? enumName e = some (entryValue enumName e) ↔ IsLegibleEntry enumName e := by
  cases e with
  | ofScalar s =>
    cases s with
    | float x =>
      cases hx : x.isFinite <;> simp [readValue?, entryValue, IsLegibleEntry, readScalar, hx,
        scalarValue]
    | null | bool _ | int _ | string _ =>
      simp [readValue?, entryValue, IsLegibleEntry, readScalar]
  | ofCase name =>
    simp only [readValue?, entryValue, IsLegibleEntry]
    split
    · rename_i hliteral
      simp [hliteral]
    · rename_i hliteral
      constructor
      · intro h
        split at h
        · rename_i w hw
          have hword : w = name := by simpa [String.append_assoc] using h
          refine ⟨hliteral, Token.isWord_toList_of_mem_all (s := name.toList) ?_⟩
          rw [hw, hword]
          exact List.mem_cons_self
        · simp at h
      · rintro ⟨-, hname⟩
        rw [Token.all_word hname, String.ofList_toList]

/-- A word is a name of its own. -/
theorem constantName?_of_isWord {name : String} (h : Token.isWord name.toList = true) :
    constantName? name = some name := by
  rw [constantName?, Token.all_word h, String.ofList_toList]
  rfl

theorem isWord_of_constantName? {name w : String} (h : constantName? name = some w) :
    Token.isWord w.toList = true := by
  have hmem := (lastConstant?_eq_some_iff.mp h).subset (a := .word w) (by simp)
  rcases List.mem_cons.mp hmem with heq | hmem
  · rw [Token.word.inj heq]
    decide +kernel
  · rcases List.mem_cons.mp hmem with heq | hmem
    · rw [Token.word.inj heq]
      decide +kernel
    · exact Token.isWord_toList_of_mem_all hmem

/-- Entries with distinct keys agree with themselves. -/
theorem agrees_self {xs : List (String × Value)} (h : (xs.map Prod.fst).Nodup) : Agrees xs xs :=
  ⟨fun _ he ↦ Ordered.get?_eq_some_of_mem h he, fun _ he ↦ Ordered.get?_isSome_of_mem he⟩

section Group

variable {enumName : String} {g : Group}

theorem readEntries?_of_legible (h : ∀ e ∈ g.entries, IsLegibleEntry enumName e.2) :
    Export.readEntries? enumName g.entries = some (groupEntries enumName g) := by
  rw [Export.readEntries?, mapM_eq_some_iff, groupEntries, List.forall₂_map_right_iff,
    List.forall₂_same]
  intro e he
  rw [readValue?_eq_some_iff.mpr (h e he), Option.map_some]

theorem keys_of_readEntries? {entries : List (String × Entry)} {es : List (String × Value)}
    (h : Export.readEntries? enumName entries = some es) :
    es.map Prod.fst = entries.map Prod.fst := by
  have hforall := mapM_eq_some_iff.mp h
  clear h
  induction hforall with
  | nil => rfl
  | cons hread _ ih =>
    obtain ⟨v, -, rfl⟩ := Option.map_eq_some_iff.mp hread
    rw [List.map_cons, List.map_cons, ih]

/-- Entries that are read as they should be are legible. -/
theorem legible_of_agrees (h : g.WellFormed) {es : List (String × Value)}
    (hes : Export.readEntries? enumName g.entries = some es)
    (hagrees : Agrees (groupEntries enumName g) es) :
    ∀ e ∈ g.entries, IsLegibleEntry enumName e.2 := by
  have hkeys : (Ordered.keys es).Nodup := by
    rw [Ordered.keys, keys_of_readEntries? hes]
    exact h.keys
  intro e he
  obtain ⟨p, hp, hread⟩ := exists_of_mem_of_forall₂ (mapM_eq_some_iff.mp hes).flip he
  obtain ⟨v, hv, rfl⟩ := Option.map_eq_some_iff.mp hread
  have hget := hagrees.fresh (e.1, entryValue enumName e.2) (List.mem_map_of_mem he)
  rw [Ordered.get?_eq_some_of_mem hkeys hp] at hget
  rw [← readValue?_eq_some_iff, hv, hget]

theorem groupExport?_eq_some_iff {old : Export} : groupExport? enumName g = some old
    ↔ constantName? g.name = some old.name ∧ old.shape = g.shape ∧
      Export.readEntries? enumName g.entries = some old.entries := by
  obtain ⟨name, shape, entries⟩ := old
  simp only [groupExport?, Option.bind_eq_some_iff, Option.map_eq_some_iff, Export.mk.injEq]
  constructor
  · rintro ⟨w, hw, es, hes, rfl, rfl, rfl⟩
    exact ⟨hw, rfl, hes⟩
  · rintro ⟨hw, rfl, hes⟩
    exact ⟨name, hw, entries, hes, rfl, rfl, rfl⟩

/-- An export has entries exactly if its group has. -/
theorem entries_eq_nil_of_groupExport? {old : Export} (h : groupExport? enumName g = some old) :
    old.entries = [] ↔ g.entries = [] := by
  have hkeys := keys_of_readEntries? (groupExport?_eq_some_iff.mp h).2.2
  rw [← List.map_eq_nil_iff (f := Prod.fst), hkeys, List.map_eq_nil_iff]

/-- The export that is found under a name among those of groups. -/
def findGroup? (enumName : String) (gs : List Group) (name : String) : Option Export :=
  (gs.filterMap (groupExport? enumName)).find? (·.name == name)

theorem exists_of_findGroup? {gs : List Group} {name : String} {old : Export}
    (h : findGroup? enumName gs name = some old) :
    old.name = name ∧ ∃ g ∈ gs, groupExport? enumName g = some old :=
  ⟨by simpa using List.find?_some h, List.mem_filterMap.mp (List.mem_of_find?_eq_some h)⟩

theorem findGroup?_eq_none_iff {gs : List Group} {name : String} :
    findGroup? enumName gs name = none
      ↔ ∀ g ∈ gs, ∀ old, groupExport? enumName g = some old → old.name ≠ name := by
  simp only [findGroup?, List.find?_eq_none, List.mem_filterMap, beq_iff_eq]
  exact ⟨fun h g hg old hold ↦ h old ⟨g, hg, hold⟩, fun h old ⟨g, hg, hold⟩ ↦ h g hg old hold⟩

theorem findGroup?_append (gs gs' : List Group) (name : String) :
    findGroup? enumName (gs ++ gs') name
      = (findGroup? enumName gs name).or (findGroup? enumName gs' name) := by
  rw [findGroup?, List.filterMap_append, List.find?_append]
  rfl

/-- A legible group is found under its name, where no other is found before it. -/
theorem findGroup?_of_legible {before after : List Group}
    (h : IsLegibleGroup enumName before g) :
    findGroup? enumName (before ++ g :: after) g.name
      = some ⟨g.name, g.shape, groupEntries enumName g⟩ := by
  have hexport : groupExport? enumName g = some ⟨g.name, g.shape, groupEntries enumName g⟩ :=
    groupExport?_eq_some_iff.mpr
      ⟨constantName?_of_isWord h.name, rfl, readEntries?_of_legible h.entries⟩
  have hbefore : findGroup? enumName before g.name = none := by
    refine findGroup?_eq_none_iff.mpr fun g' hg' old hold hname ↦ ?_
    have hconstant := (groupExport?_eq_some_iff.mp hold).1
    rw [hname] at hconstant
    exact h.first g' hg' hconstant
  rw [findGroup?_append, hbefore, Option.none_or, findGroup?, List.filterMap_cons, hexport]
  simp

end Group

/-! ## Enums that are not named by a word -/

/-- An export is named by a word, so none is found for another name. -/
theorem exportsOf_eq_nil_of_not_isWord {name : String} (h : ¬ Token.isWord name.toList = true)
    (previous : Option String) : exportsOf name previous = [] := by
  cases previous with
  | none => rfl
  | some source =>
    simp only [exportsOf]
    cases hs : Export.ofSource source with
    | nil => rfl
    | cons first more =>
      have hmem : first ∈ Export.ofSource source := hs ▸ List.mem_cons_self
      have hword := Export.isWord_of_mem_ofSource hmem
      have hne : first.name ≠ name := fun heq ↦ h (heq ▸ hword)
      simp [hne]

/-- Where no module can have the enum, a report is empty only if there is nothing to be found. -/
theorem check_eq_nil_iff_of_not_isWord {r : EnumRecord} {previous : Option String}
    (h : ¬ Token.isWord r.name.toList = true) :
    check r previous = [] ↔ r.cases = [] ∧ ∀ g ∈ r.groups, g.entries = [] := by
  rw [check_eq_nil_iff, exportsOf_eq_nil_of_not_isWord h]
  constructor
  · rintro ⟨hcases, hgroups, -⟩
    refine ⟨List.map_eq_nil_iff.mp (agrees_nil_right_iff.mp hcases), fun g hg ↦ ?_⟩
    exact List.map_eq_nil_iff.mp (hgroups g hg)
  · rintro ⟨hcases, hgroups⟩
    refine ⟨?_, fun g hg ↦ ?_, by simp⟩
    · rw [caseEntries, hcases]
      exact agrees_nil_right_iff.mpr rfl
    · exact List.map_eq_nil_iff.mpr (hgroups g hg)

/-! ## Fresh modules -/

section Fresh

variable {r : EnumRecord} (h : r.WellFormed)
include h

/-- Groups of one name are the same. -/
theorem eq_of_name_eq {g g' : Group} (hg : g ∈ r.groups) (hg' : g' ∈ r.groups)
    (hname : g.name = g'.name) : g = g' :=
  List.inj_on_of_nodup_map h.groupNames hg hg' hname

/-- The groups before a group have other names. -/
theorem name_ne_of_mem_before {before after : List Group} {g g' : Group}
    (hgroups : r.groups = before ++ g :: after) (hg' : g' ∈ before) : g'.name ≠ g.name := by
  have hnodup := h.groupNames
  rw [hgroups, List.map_append, List.map_cons, List.nodup_append] at hnodup
  exact hnodup.2.2 _ (List.mem_map_of_mem hg') _ List.mem_cons_self

/-- A group named by a word is the only group with entries that is exported under its name. -/
theorem eq_of_groupExport? {g g' : Group} (hg : g ∈ r.groups) (hg' : g' ∈ r.groups)
    (hword : g'.entries ≠ [] → Token.isWord g'.name.toList = true) {old : Export}
    (hold : groupExport? r.name g' = some old) (hname : old.name = g.name)
    (hentries : old.entries ≠ []) : g' = g := by
  have hne : g'.entries ≠ [] := fun heq ↦
    hentries ((entries_eq_nil_of_groupExport? hold).mpr heq)
  have hconstant := (groupExport?_eq_some_iff.mp hold).1
  rw [constantName?_of_isWord (hword hne), hname] at hconstant
  exact eq_of_name_eq h hg' hg (Option.some.inj hconstant)

omit h in
/-- If nothing is reported, a group with entries is found under its name, with its entries. -/
theorem exists_of_unreported {first : Export}
    (hu : Unreported r (first :: r.groups.filterMap (groupExport? r.name)))
    {g : Group} (hg : g ∈ r.groups) (hne : g.entries ≠ []) :
    ∃ old, findGroup? r.name r.groups g.name = some old ∧
      Agrees (groupEntries r.name g) old.entries := by
  have hagrees : GroupAgrees r.name g (findGroup? r.name r.groups g.name) := hu.groups g hg
  cases hfind : findGroup? r.name r.groups g.name with
  | none =>
    rw [hfind] at hagrees
    exact absurd (List.map_eq_nil_iff.mp hagrees) hne
  | some old =>
    rw [hfind] at hagrees
    exact ⟨old, rfl, hagrees.2⟩

omit h in
theorem isWord_of_unreported {first : Export}
    (hu : Unreported r (first :: r.groups.filterMap (groupExport? r.name)))
    {g : Group} (hg : g ∈ r.groups) (hne : g.entries ≠ []) :
    Token.isWord g.name.toList = true := by
  obtain ⟨old, hfind, -⟩ := exists_of_unreported hu hg hne
  obtain ⟨hname, g', -, hold⟩ := exists_of_findGroup? hfind
  rw [← hname]
  exact isWord_of_constantName? (groupExport?_eq_some_iff.mp hold).1

theorem isLegible_of_unreported {first : Export}
    (hu : Unreported r (first :: r.groups.filterMap (groupExport? r.name)))
    {before after : List Group} {g : Group} (hgroups : r.groups = before ++ g :: after)
    (hne : g.entries ≠ []) : IsLegibleGroup r.name before g := by
  have hg : g ∈ r.groups := by simp [hgroups]
  obtain ⟨old, hfind, hagrees⟩ := exists_of_unreported hu hg hne
  obtain ⟨hname, g₀, hg₀, hold₀⟩ := exists_of_findGroup? hfind
  have hentries : old.entries ≠ [] := by
    intro hnil
    rw [hnil] at hagrees
    exact hne (List.map_eq_nil_iff.mp (agrees_nil_right_iff.mp hagrees))
  have hunique {g' : Group} (hg' : g' ∈ r.groups) (hold : groupExport? r.name g' = some old) :
      g' = g :=
    eq_of_groupExport? h hg hg' (isWord_of_unreported hu hg') hold hname hentries
  refine ⟨isWord_of_unreported hu hg hne, ?_, ?_⟩
  · obtain rfl := hunique hg₀ hold₀
    exact legible_of_agrees (h.groups _ hg) (groupExport?_eq_some_iff.mp hold₀).2.2 hagrees
  · -- an earlier export of this name would be found in place of that of the group
    intro g' hbefore hconstant
    have hg' : g' ∈ r.groups := by simp [hgroups, hbefore]
    have hnil : g'.entries = [] := by
      by_contra hne'
      rw [constantName?_of_isWord (isWord_of_unreported hu hg' hne')] at hconstant
      exact name_ne_of_mem_before h hgroups hbefore (Option.some.inj hconstant)
    have hexport : groupExport? r.name g' = some ⟨g.name, g'.shape, []⟩ :=
      groupExport?_eq_some_iff.mpr ⟨hconstant, rfl, by rw [hnil]; rfl⟩
    cases hearlier : findGroup? r.name before g.name with
    | none => exact findGroup?_eq_none_iff.mp hearlier g' hbefore _ hexport rfl
    | some o =>
      rw [hgroups, findGroup?_append, hearlier, Option.some_or, Option.some.injEq] at hfind
      subst hfind
      obtain ⟨-, g'', hg'', hold⟩ := exists_of_findGroup? hearlier
      obtain rfl := hunique (by simp [hgroups, hg'']) hold
      exact name_ne_of_mem_before h hgroups hg'' rfl

/-- Nothing with entries is found under the name of a group that has none. -/
theorem groupAgrees_of_entries_eq_nil
    (hword : ∀ g ∈ r.groups, g.entries ≠ [] → Token.isWord g.name.toList = true) {g : Group}
    (hg : g ∈ r.groups) (hnil : g.entries = []) :
    GroupAgrees r.name g (findGroup? r.name r.groups g.name) := by
  cases hfind : findGroup? r.name r.groups g.name with
  | none => exact List.map_eq_nil_iff.mpr hnil
  | some old =>
    obtain ⟨hname, g', hg', hold⟩ := exists_of_findGroup? hfind
    have hentries : old.entries = [] := by
      by_contra hne
      obtain rfl := eq_of_groupExport? h hg hg' (hword g' hg') hold hname hne
      exact hne ((entries_eq_nil_of_groupExport? hold).mpr hnil)
    have hnil' := (entries_eq_nil_of_groupExport? hold).mp hentries
    have hshape := (groupExport?_eq_some_iff.mp hold).2.1
    rw [(h.groups g' hg').shape hnil', ← (h.groups g hg).shape hnil] at hshape
    refine ⟨hshape, ?_⟩
    rw [hentries, groupEntries, hnil]
    exact agrees_self (by simp)

theorem unreported_of_isLegible (hcases : (r.cases.map Case.name).Nodup)
    (hl : ∀ before g after, r.groups = before ++ g :: after → g.entries ≠ [] →
      IsLegibleGroup r.name before g) :
    Unreported r (⟨r.name, .record, caseEntries r⟩ ::
      r.groups.filterMap (groupExport? r.name)) := by
  have hword : ∀ g ∈ r.groups, g.entries ≠ [] → Token.isWord g.name.toList = true := by
    intro g hg hne
    obtain ⟨before, after, hgroups⟩ := List.append_of_mem hg
    exact (hl before g after hgroups hne).name
  constructor
  · refine agrees_self ?_
    rw [caseEntries, List.map_map]
    exact hcases
  · intro g hg
    by_cases hnil : g.entries = []
    · exact groupAgrees_of_entries_eq_nil h hword hg hnil
    · obtain ⟨before, after, hgroups⟩ := List.append_of_mem hg
      have hfind := @findGroup?_of_legible _ _ _ after (hl before g after hgroups hnil)
      have hagrees : GroupAgrees r.name g (findGroup? r.name r.groups g.name) := by
        rw [hgroups, hfind]
        refine ⟨rfl, agrees_self ?_⟩
        rw [groupEntries, List.map_map]
        exact (h.groups g hg).keys
      exact hagrees
  · intro old hold
    obtain ⟨g, hg, hold⟩ := List.mem_filterMap.mp hold
    by_cases hne : g.entries = []
    · exact .inr ((entries_eq_nil_of_groupExport? hold).mpr hne)
    · have hconstant := (groupExport?_eq_some_iff.mp hold).1
      rw [constantName?_of_isWord (hword g hg hne)] at hconstant
      exact .inl ⟨g, hg, Option.some.inj hconstant⟩

theorem hasPlainNames_of_wellFormed : HasPlainNames r where
  name := fun _ ↦ isPlain_of_hasNameChars h.name.chars
  groups := fun g hg _ ↦ isPlain_of_hasNameChars (h.groups g hg).name
  references := fun g hg e he n hn _ ↦ by
    have hentry := (h.groups g hg).entries e he
    rw [hn] at hentry
    exact isPlain_of_hasNameChars (Php.IsNameText.chars hentry)

/-- The report on the fresh module of a record is empty exactly if the record is legible. -/
theorem check_enumModule_eq_nil_iff (hcases : (r.cases.map Case.name).Nodup) {style : Style}
    (hf : style.format ≠ .json) (limit : Option Nat) :
    check r (some (Envelope.wrap style.format limit (EnumModule.text style r))) = []
      ↔ IsLegible r := by
  rw [check_eq_nil_iff, IsLegible]
  split
  · rename_i hname
    have hexports : exportsOf r.name
        (some (Envelope.wrap style.format limit (EnumModule.text style r)))
          = ⟨r.name, .record, caseEntries r⟩ :: r.groups.filterMap (groupExport? r.name) := by
      rw [exportsOf, Export.ofSource, tokens_enumModule hf limit (hasPlainNames_of_wellFormed h),
        Export.all_recordTokens_of_wellFormed style h hname]
      simp
    rw [hexports]
    exact ⟨fun hu _ _ _ ↦ isLegible_of_unreported h hu, unreported_of_isLegible h hcases⟩
  · rename_i hname
    rw [← check_eq_nil_iff, check_eq_nil_iff_of_not_isWord hname]

end Fresh

/-- A source declares an enum with distinct case names that has the given record. -/
def Declares (source : String) (target : Target) (r : EnumRecord) (e : Php.EnumDecl) : Prop :=
  e ∈ (Php.SourceFile.ofSource source).enums ∧ (e.cases.map Php.CaseDecl.name).Nodup ∧
    ofDecl (Registry.ofSources [source]).caseValue target e = .ok r

theorem exists_declares {source : String} {target : Target} {r : EnumRecord}
    (h : ((Php.SourceFile.ofSource source).enums.any fun e ↦
      decide (e.cases.map Php.CaseDecl.name).Nodup &&
        (ofDecl (Registry.ofSources [source]).caseValue target e).toOption == some r) = true) :
    ∃ e, Declares source target r e := by
  obtain ⟨e, he, hrecord⟩ := List.any_eq_true.mp h
  rw [Bool.and_eq_true, decide_eq_true_eq, beq_iff_eq] at hrecord
  exact ⟨e, he, hrecord.1, toOption_eq_some_iff.mp hrecord.2⟩

/-- The report on the module just generated for an enum of a source is empty exactly if its record
is legible; the enum may refer to those of any sources. -/
theorem check_ofDecl_eq_nil_iff (sources : List String) {source : String} {e : Php.EnumDecl}
    (he : e ∈ (Php.SourceFile.ofSource source).enums)
    (hcases : (e.cases.map Php.CaseDecl.name).Nodup) {target : Target} {r : EnumRecord}
    (hr : ofDecl (Registry.ofSources sources).caseValue target e = .ok r) {style : Style}
    (hf : style.format ≠ .json) (limit : Option Nat) :
    check r (some (Envelope.wrap style.format limit (EnumModule.text style r))) = []
      ↔ IsLegible r := by
  have hsources : ∀ d ∈ (Registry.ofSources sources).enums, d.WellFormed :=
    fun _ ↦ Registry.wellFormed_of_mem_ofSources
  obtain ⟨hwell, hnames⟩ :=
    wellFormed_of_ofDecl (Registry.wellFormed_caseValue hsources)
      (Php.SourceFile.wellFormed_of_mem_ofSource he) hr
  exact check_enumModule_eq_nil_iff hwell (hnames ▸ hcases) hf limit

def tsTarget : Target := ⟨⟨"out"⟩, "\x7bname\x7d.\x7bext\x7d", .ts⟩

/-- An enum with a case that is no word, and with a group that refers to another one. -/
def sizedSource : String :=
  "<?php\n#[GenerateTs(includeMethods: ['sizes'])]\nenum E: int \x7b case A—B = 1; case C = 2; " ++
  "public static function sizes(): array \x7b return ['x' => null, 'y' => self::C]; \x7d \x7d"

def sizedRecord : EnumRecord where
  name := "E"
  qualified := "E"
  space := none
  doc := none
  cases := [⟨"A—B", .int 1, none⟩, ⟨"C", .int 2, none⟩]
  groups := [⟨"Sizes", .record, [("x", .ofScalar .null), ("y", .ofCase "C")]⟩]
  path := ⟨"out/E.ts"⟩

theorem isLegible_sizedRecord : IsLegible sizedRecord := by
  have hname : Token.isWord sizedRecord.name.toList = true := by decide
  rw [IsLegible, if_pos hname]
  rintro before g after hgroups -
  obtain ⟨rfl, rfl, rfl⟩ : before = [] ∧ g = sizedRecord.groups.head (by decide) ∧ after = [] := by
    cases before with
    | nil => simpa [sizedRecord, eq_comm] using hgroups
    | cons _ _ => simp [sizedRecord] at hgroups
  constructor
  · decide
  · intro e he
    rcases List.mem_cons.mp he with rfl | he
    · trivial
    · obtain rfl := List.mem_singleton.mp he
      constructor <;> decide
  · simp

theorem check_sizedSource_eq_nil : ∃ e, Declares sizedSource tsTarget sizedRecord e ∧
    check sizedRecord (some (Envelope.wrap .ts none (EnumModule.text ⟨.ts, true⟩ sizedRecord)))
      = [] := by
  obtain ⟨e, he, hcases, hr⟩ : ∃ e, Declares sizedSource tsTarget sizedRecord e :=
    exists_declares (by decide +kernel)
  have hformat : (⟨.ts, true⟩ : Style).format ≠ .json := by decide
  have hfresh := check_ofDecl_eq_nil_iff [sizedSource] he hcases hr hformat none
  exact ⟨e, ⟨he, hcases, hr⟩, hfresh.mpr isLegible_sizedRecord⟩

/-- A long dash belongs to the name of an enum, but to no word. -/
def dashedSource : String := "<?php\nenum E—F: string \x7b case A = 'a'; \x7d"

def dashedRecord : EnumRecord where
  name := "E—F"
  qualified := "E—F"
  space := none
  doc := none
  cases := [⟨"A", .string "a", none⟩]
  groups := []
  path := ⟨"out/E—F.ts"⟩

theorem check_dashedSource_ne_nil : ∃ e, Declares dashedSource tsTarget dashedRecord e ∧
    check dashedRecord (some (Envelope.wrap .ts none (EnumModule.text ⟨.ts, true⟩ dashedRecord)))
      ≠ [] := by
  obtain ⟨e, he⟩ : ∃ e, Declares dashedSource tsTarget dashedRecord e :=
    exists_declares (by decide +kernel)
  refine ⟨e, he, fun hnil ↦ ?_⟩
  have hname : ¬ Token.isWord dashedRecord.name.toList = true := by decide +kernel
  obtain ⟨hcases, -⟩ := (check_eq_nil_iff_of_not_isWord hname).mp hnil
  simp [dashedRecord] at hcases

end FrontendSync.Drift
