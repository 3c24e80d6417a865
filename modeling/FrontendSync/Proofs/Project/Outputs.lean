import FrontendSync.Project.Basic
import FrontendSync.Proofs.Lists

/-!
# Paths of a full run

The files of one kind go to paths of their own, or the run fails and names two items that share a
path.  Files of different kinds are not compared, so the paths of a run are its own exactly if the
kinds keep apart by themselves.
-/

namespace FrontendSync

theorem Path.same_comm (p q : Path) : p.same q = q.same p := by
  rw [Path.same, Path.same, Bool.eq_iff_iff, beq_iff_eq, beq_iff_eq, eq_comm]

namespace OutputFile

theorem checkPaths_eq_ok_iff {seen items : List (Path × String)} :
    checkPaths seen items = .ok () ↔ (∀ i ∈ items, ∀ s ∈ seen, i.1.same s.1 = false) ∧
      items.Pairwise fun i j ↦ i.1.same j.1 = false := by
  induction items generalizing seen with
  | nil => simp [checkPaths]
  | cons item items ih =>
    obtain ⟨p, name⟩ := item
    rw [checkPaths]
    cases hfound : seen.find? (p.same ·.1) with
    | some s =>
      have hs := List.find?_some hfound
      refine iff_of_false (by simp) fun h ↦ ?_
      have := h.1 _ List.mem_cons_self s (List.mem_of_find?_eq_some hfound)
      simp [hs] at this
    | none =>
      have hfree : ∀ s ∈ seen, p.same s.1 = false := by simpa using List.find?_eq_none.mp hfound
      simp only [ih, List.forall_mem_cons, List.pairwise_cons, Path.same_comm _ p]
      constructor
      · rintro ⟨h, hitems⟩
        exact ⟨⟨hfree, fun i hi ↦ (h i hi).2⟩, fun i hi ↦ (h i hi).1, hitems⟩
      · rintro ⟨⟨-, h⟩, hp, hitems⟩
        exact ⟨fun i hi ↦ ⟨hp i hi, h i hi⟩, hitems⟩

/-- The fault names an item and one before it with the same path. -/
theorem exists_of_checkPaths_eq_error {seen items : List (Path × String)} {e : Fault}
    (h : checkPaths seen items = .error e) :
    ∃ i j, [i, j].Sublist (seen.reverse ++ items) ∧ i.1.same j.1 = true ∧
      e = .sharedOutput j.1 i.2 j.2 := by
  induction items generalizing seen with
  | nil => simp [checkPaths] at h
  | cons item items ih =>
    obtain ⟨p, name⟩ := item
    rw [checkPaths] at h
    cases hfound : seen.find? (p.same ·.1) with
    | some s =>
      have hs := List.find?_some hfound
      have hmem : [s].Sublist seen.reverse :=
        List.singleton_sublist.mpr (List.mem_reverse.mpr (List.mem_of_find?_eq_some hfound))
      have hsub : [s, (p, name)].Sublist (seen.reverse ++ (p, name) :: items) :=
        hmem.append (List.singleton_sublist.mpr List.mem_cons_self)
      rw [hfound] at h
      refine ⟨s, (p, name), hsub, by rwa [Path.same_comm], ?_⟩
      exact (Except.error.inj h).symm
    | none =>
      rw [hfound] at h
      obtain ⟨i, j, hsub, hij⟩ := ih h
      rw [List.reverse_cons, List.append_assoc, List.singleton_append] at hsub
      exact ⟨i, j, hsub, hij⟩

end OutputFile

/-! ## Drafts -/

/-- An item of a run by its name, with the file that is generated for it. -/
structure Draft where
  name : String
  file : OutputFile

namespace Draft

def Apart (a b : Draft) : Prop := a.file.path.same b.file.path = false

/-- The files of one kind, unless two of them share a path. -/
def settle (ds : List Draft) : Except Fault (List OutputFile) :=
  (OutputFile.checkPaths [] (ds.map fun d ↦ (d.file.path, d.name))).map fun _ ↦ ds.map file

theorem settle_map {α : Type} (xs : List α) (name : α → String) (file : α → OutputFile) :
    settle (xs.map fun x ↦ ⟨name x, file x⟩) = (do
      OutputFile.checkPaths [] (xs.map fun x ↦ ((file x).path, name x))
      return xs.map file) := by
  rw [settle, List.map_map, List.map_map]
  rfl

theorem settle_of_pairwise {ds : List Draft} (h : ds.Pairwise Apart) :
    settle ds = .ok (ds.map file) := by
  have hok : OutputFile.checkPaths [] (ds.map fun d ↦ (d.file.path, d.name)) = .ok () :=
    OutputFile.checkPaths_eq_ok_iff.mpr ⟨by simp, List.pairwise_map.mpr h⟩
  rw [settle, hok]
  rfl

/-- Two drafts share the path that a fault names. -/
def Clash (ds : List Draft) (e : Fault) : Prop :=
  ∃ a b, [a, b].Sublist ds ∧ ¬ Apart a b ∧ e = .sharedOutput b.file.path a.name b.name

theorem exists_clash_of_not_pairwise {ds : List Draft} (h : ¬ ds.Pairwise Apart) :
    ∃ e, Clash ds e ∧ settle ds = .error e := by
  rw [settle]
  cases hcheck : OutputFile.checkPaths [] (ds.map fun d ↦ (d.file.path, d.name)) with
  | ok _ => exact absurd (List.pairwise_map.mp (OutputFile.checkPaths_eq_ok_iff.mp hcheck).2) h
  | error e =>
    obtain ⟨i, j, hsub, hij, rfl⟩ := OutputFile.exists_of_checkPaths_eq_error hcheck
    rw [List.reverse_nil, List.nil_append] at hsub
    obtain ⟨ds', hds', hmap⟩ := List.sublist_map_iff.mp hsub
    match ds', hmap with
    | [a, b], hmap =>
      obtain ⟨rfl, rfl⟩ : i = (a.file.path, a.name) ∧ j = (b.file.path, b.name) := by
        simpa using hmap
      exact ⟨_, ⟨a, b, hds', by simp [Apart, hij], rfl⟩, rfl⟩

/-- The first kind in which two drafts share a path makes the run fail. -/
theorem exists_clash_of_mapM_settle {kinds : List (List Draft)}
    (h : ¬ ∀ ds ∈ kinds, ds.Pairwise Apart) :
    ∃ e, (∃ ds ∈ kinds, Clash ds e) ∧ kinds.mapM settle = .error e := by
  induction kinds with
  | nil => simp at h
  | cons ds kinds ih =>
    by_cases hds : ds.Pairwise Apart
    · have hkinds : ¬ ∀ ds ∈ kinds, ds.Pairwise Apart := fun hk ↦
        h (List.forall_mem_cons.mpr ⟨hds, hk⟩)
      obtain ⟨e, ⟨ds', hds', hclash⟩, he⟩ := ih hkinds
      refine ⟨e, ⟨ds', List.mem_cons_of_mem _ hds', hclash⟩, ?_⟩
      rw [List.mapM_cons, settle_of_pairwise hds, he]
      rfl
    · obtain ⟨e, hclash, he⟩ := exists_clash_of_not_pairwise hds
      refine ⟨e, ⟨ds, List.mem_cons_self, hclash⟩, ?_⟩
      rw [List.mapM_cons, he]
      rfl

theorem mapM_settle_of_pairwise {kinds : List (List Draft)}
    (h : ∀ ds ∈ kinds, ds.Pairwise Apart) :
    kinds.mapM settle = .ok (kinds.map (List.map file)) := by
  rw [mapM_eq_ok_iff, List.forall₂_map_right_iff, List.forall₂_same]
  exact fun ds hds ↦ settle_of_pairwise (h ds hds)

end Draft

/-! ## Runs -/

namespace Project

def enumDrafts (p : Project) (request : EnumRequest) : Except Fault (List Draft) := do
  let target ← p.enumTarget request.format
  let es ← p.selectEnums request.names
  let records ← es.mapM (EnumRecord.ofDecl p.registry.caseValue target)
  return records.map fun r ↦
    ⟨r.qualified, p.output target.format r.path (Module.EnumModule.text (p.style target.format) r)⟩

theorem generateEnums_eq (p : Project) (request : EnumRequest) :
    p.generateEnums request = p.enumDrafts request >>= Draft.settle := by
  rw [generateEnums, map_eq_bind]
  simp only [enumRecords, recordsOf, enumDrafts, bind_assoc, pure_bind, Draft.settle_map]
  rfl

def bundleDrafts (p : Project) (d : Disk) (request : LocaleRequest) :
    Except Fault (List Draft) := do
  let s := p.settings.bundles
  let format ← Settings.format .bundles (request.format.getD s.format)
  let adapter ← p.chooseAdapter request.library
  let bundles ← (p.localesOf request.locales).mapM
    (Bundle.load d p.registry.caseValue p.localeRoots adapter (request.flat.getD s.flat)
      (p.target s.outputPath s.fileName format))
  return bundles.map fun b ↦
    ⟨b.locale,
      p.output format b.path (Module.LocaleModule.text (p.style format) b.locale b.data)⟩

theorem generateBundles_eq (p : Project) (d : Disk) (request : LocaleRequest) :
    p.generateBundles d request = p.bundleDrafts d request >>= Draft.settle := by
  simp only [generateBundles, bundleDrafts, bind_assoc, pure_bind, Draft.settle_map]
  rfl

def helperDrafts (p : Project) (request : TranslatorRequest) : Except Fault (List Draft) := do
  let s := p.settings.translators
  let format ← Settings.format .translators (request.format.getD s.format)
  let runtime ← Settings.runtime (request.runtime.getD s.runtime)
  let es ← p.selectTranslators request.names
  let enumTarget ← p.enumTarget none
  let helpers := es.filterMap
    (Translator.ofDecl? enumTarget (p.target s.outputPath s.fileName format) s.enumImportBase)
  return helpers.map fun t ↦
    ⟨t.enumName, p.output format t.path
      (Module.TranslatorModule.text (p.style format) runtime s.helperImport t)⟩

theorem generateTranslators_eq (p : Project) (request : TranslatorRequest) :
    p.generateTranslators request = p.helperDrafts request >>= Draft.settle := by
  simp only [generateTranslators, helperDrafts, bind_assoc, pure_bind, Draft.settle_map]
  rfl

/-- The drafts of a full run for each kind. -/
def stages (p : Project) (d : Disk) : List (Except Fault (List Draft)) :=
  [p.enumDrafts ⟨[], none⟩,
    if p.localeRoots.any d.isDir then p.bundleDrafts d ⟨[], none, none, none⟩ else .ok [],
    p.helperDrafts ⟨[], none, none⟩]

/-- The drafts of a full run, kind by kind, if every item of the run can be made. -/
def drafts (p : Project) (d : Disk) : Except Fault (List (List Draft)) := (p.stages d).mapM id

theorem generateAll_eq (p : Project) (d : Disk) :
    p.generateAll d = List.flatten <$> (p.stages d).mapM (· >>= Draft.settle) := by
  simp only [generateAll, stages, List.mapM_cons, List.mapM_nil, map_bind, bind_assoc, pure_bind,
    map_pure, List.flatten_cons, List.flatten_nil, List.append_nil, List.append_assoc,
    generateEnums_eq, generateTranslators_eq]
  split
  · simp only [generateBundles_eq, bind_assoc]
  · rfl

variable {p : Project} {d : Disk} {kinds : List (List Draft)}

theorem stages_eq_of_drafts (h : p.drafts d = .ok kinds) : p.stages d = kinds.map .ok := by
  rw [drafts, mapM_eq_ok_iff] at h
  generalize p.stages d = stages at h
  induction h with
  | nil => rfl
  | cons hkind _ ih => rw [List.map_cons, ← ih, ← hkind, id]

theorem generateAll_of_drafts (h : p.drafts d = .ok kinds) :
    p.generateAll d = List.flatten <$> kinds.mapM Draft.settle := by
  rw [generateAll_eq, stages_eq_of_drafts h, List.mapM_map]
  rfl

/-- A run with a result has made every item. -/
theorem exists_drafts_of_generateAll {files : List OutputFile}
    (h : p.generateAll d = .ok files) : ∃ kinds, p.drafts d = .ok kinds := by
  rw [generateAll_eq] at h
  cases hstages : (p.stages d).mapM (· >>= Draft.settle) with
  | error e => simp [hstages, Functor.map, Except.map] at h
  | ok all =>
    rw [mapM_eq_ok_iff] at hstages
    suffices ∃ kinds, List.Forall₂ (fun stage ds ↦ stage = .ok ds) (p.stages d) kinds by
      obtain ⟨kinds, hkinds⟩ := this
      exact ⟨kinds, mapM_eq_ok_iff.mpr hkinds⟩
    generalize p.stages d = stages at hstages
    induction hstages with
    | nil => exact ⟨[], .nil⟩
    | @cons stage files _ _ hstage _ ih =>
      obtain ⟨kinds, hkinds⟩ := ih
      obtain ⟨ds, hds, -⟩ := bind_eq_ok_iff.mp hstage
      exact ⟨ds :: kinds, .cons hds hkinds⟩

theorem generateAll_eq_ok_iff (h : p.drafts d = .ok kinds) {files : List OutputFile} :
    p.generateAll d = .ok files ↔
      (∀ ds ∈ kinds, ds.Pairwise Draft.Apart) ∧ files = kinds.flatten.map Draft.file := by
  rw [generateAll_of_drafts h]
  by_cases hkinds : ∀ ds ∈ kinds, ds.Pairwise Draft.Apart
  · rw [Draft.mapM_settle_of_pairwise hkinds, List.map_flatten]
    rw [and_iff_right hkinds]
    simp [Functor.map, Except.map, eq_comm]
  · obtain ⟨e, -, he⟩ := Draft.exists_clash_of_mapM_settle hkinds
    simp [he, hkinds, Functor.map, Except.map]

/-- A full run keeps its promise on output paths (its files have paths of their own, and where two
items share a path the run fails and names two that do) exactly if items of different kinds never
share a path while each kind has none that do. -/
theorem pairwise_generateAll_iff (p : Project) (d : Disk) :
    ((∀ files, p.generateAll d = .ok files →
        files.Pairwise fun f g ↦ f.path.same g.path = false) ∧
      ∀ kinds, p.drafts d = .ok kinds → ¬ kinds.flatten.Pairwise Draft.Apart →
        ∃ e, (∃ ds ∈ kinds, Draft.Clash ds e) ∧ p.generateAll d = .error e)
      ↔ ∀ kinds, p.drafts d = .ok kinds → (∀ ds ∈ kinds, ds.Pairwise Draft.Apart) →
        kinds.Pairwise fun ds es ↦ ∀ a ∈ ds, ∀ b ∈ es, Draft.Apart a b := by
  constructor
  · rintro ⟨hpaths, -⟩ kinds hdrafts hkinds
    have hfiles := hpaths _ ((generateAll_eq_ok_iff hdrafts).mpr ⟨hkinds, rfl⟩)
    rw [List.pairwise_map] at hfiles
    exact (List.pairwise_flatten.mp hfiles).2
  · intro hacross
    constructor
    · intro files hfiles
      obtain ⟨kinds, hdrafts⟩ := exists_drafts_of_generateAll hfiles
      obtain ⟨hkinds, rfl⟩ := (generateAll_eq_ok_iff hdrafts).mp hfiles
      rw [List.pairwise_map]
      exact List.pairwise_flatten.mpr ⟨hkinds, hacross kinds hdrafts hkinds⟩
    · intro kinds hdrafts hshared
      have hkinds : ¬ ∀ ds ∈ kinds, ds.Pairwise Draft.Apart := fun hkinds ↦
        hshared (List.pairwise_flatten.mpr ⟨hkinds, hacross kinds hdrafts hkinds⟩)
      obtain ⟨e, hclash, he⟩ := Draft.exists_clash_of_mapM_settle hkinds
      refine ⟨e, hclash, ?_⟩
      rw [generateAll_of_drafts hdrafts, he]
      rfl

/-- Enum modules and helpers all in one file. -/
def crowdedSettings : Settings :=
  { Settings.default with
    enums := { Settings.Enums.default with outputPath := "out", fileName := "all.ts" }
    translators := { Settings.Translators.default with outputPath := "out", fileName := "all.ts" } }

def crowdedDisk : Disk :=
  ⟨.dir [("app", .dir [("Enums", .dir [("E.php", .file
    "<?php #[GenerateTs, GenerateTranslator] enum E: int \x7b case A = 1; \x7d".toUTF8)])])]⟩

/-- The module of an enum and its helper share a path, and the run does not fail. -/
theorem not_pairwise_crowdedDisk :
    ∃ p files, load crowdedDisk crowdedSettings ⟨""⟩ none = .ok p ∧
      p.generateAll crowdedDisk = .ok files ∧
        ¬ files.Pairwise fun f g ↦ f.path.same g.path = false := by
  have hrun : ∃ p ∈ (load crowdedDisk crowdedSettings ⟨""⟩ none).toOption,
      ∃ files ∈ (p.generateAll crowdedDisk).toOption,
        ¬ files.Pairwise fun f g ↦ f.path.same g.path = false := by decide +kernel
  obtain ⟨p, hload, hrun⟩ := exists_of_toOption hrun
  obtain ⟨files, hfiles, hshared⟩ := exists_of_toOption hrun
  exact ⟨p, files, hload, hfiles, hshared⟩

end Project

end FrontendSync
