import FrontendSync.Proofs.Disk.Writing
import FrontendSync.Proofs.Project.Reading

/-!
# Running again

A full run on the disk that a full run left behind generates the same files and changes nothing,
if the first run wrote nothing where the second one looks.  Two dots in a path are where this is
more than a matter of the paths as they are written: a directory that the first run makes may
open a way, and two paths may lead to one place.
-/

namespace FrontendSync

namespace Disk

variable {d d' : Disk} {fs : List OutputFile} {q : Path}

/-- Writing files puts no file and makes no directory at the place of a path or below it, and the
way of the path was there before up to its last two dots. -/
structure KeepsClear (d d' : Disk) (fs : List OutputFile) (q : Path) : Prop where
  dots : d.ResolvesDots q
  files : ∀ u ∈ d'.way? q, ∀ f ∈ fs, ∀ v ∈ d'.way? f.path, ¬ u <+: v
  dirs : ∀ u ∈ d'.way? q, ∀ v, IsNewDir d d' v → ¬ u <+: v

theorem sameAt_of_keepsClear {outcomes : List (Path × Outcome)}
    (h : d.writeAll fs = (.ok outcomes, d')) (hq : d.KeepsClear d' fs q) : SameAt d d' q := by
  have hgrows := grows_writeAll h
  refine find?_eq_of_keepsDirs hgrows.dirs hq.dots fun u hu ↦ hgrows.frame u ?_
  rintro v (⟨f, hf, hv⟩ | hnew)
  · exact hq.files u hu f hf v hv
  · exact hq.dirs u hu v hnew

/-- Without two dots only the files count: new directories are above them. -/
theorem keepsClear_of_noDots {outcomes : List (Path × Outcome)}
    (h : d.writeAll fs = (.ok outcomes, d')) (hq : ['.', '.'] ∉ segmentsOf q)
    (hfs : ∀ f ∈ fs, ['.', '.'] ∉ segmentsOf f.path)
    (hfiles : ∀ u ∈ d'.way? q, ∀ f ∈ fs, ∀ v ∈ d'.way? f.path, ¬ u <+: v) :
    d.KeepsClear d' fs q := by
  refine ⟨⟨[], segmentsOf q, rfl, rfl, hq⟩, hfiles, fun u hu v hv huv ↦ ?_⟩
  obtain ⟨w, ⟨f, hf, hw⟩, hvw⟩ := prefix_of_isNewDir_writeAll h hfs hv
  exact hfiles u hu f hf w hw (huv.trans hvw)

end Disk

namespace Project

variable {d : Disk} {settings : Settings} {root : Path} {adapter : Option Locale.Adapter}

/-- A full run: the project that was loaded, the files that were generated, what became of each,
and the disk afterwards. -/
structure FullRun where
  project : Project
  files : List OutputFile
  outcomes : List (Path × Outcome)
  disk : Disk

/-- A full run is a run only if every step succeeds. -/
def fullRun (d : Disk) (settings : Settings) (root : Path) (adapter : Option Locale.Adapter) :
    Except Fault FullRun := do
  let p ← load d settings root adapter
  let files ← p.generateAll d
  match d.writeAll files with
  | (.ok outcomes, after) => return ⟨p, files, outcomes, after⟩
  | (.error e, _) => .error e

theorem fullRun_eq_ok_iff {r : FullRun} :
    fullRun d settings root adapter = .ok r ↔ load d settings root adapter = .ok r.project ∧
      r.project.generateAll d = .ok r.files ∧
      d.writeAll r.files = (.ok r.outcomes, r.disk) := by
  simp only [fullRun, bind_eq_ok_iff]
  constructor
  · rintro ⟨p, hload, files, hfiles, h⟩
    cases hwrite : d.writeAll files with
    | mk result after =>
      rw [hwrite] at h
      cases result with
      | error e => simp at h
      | ok outcomes =>
        obtain rfl := Except.ok.inj h
        exact ⟨hload, hfiles, hwrite⟩
  · rintro ⟨hload, hfiles, hwrite⟩
    exact ⟨_, hload, _, hfiles, by rw [hwrite]; rfl⟩

theorem settings_of_load {p : Project} (h : load d settings root adapter = .ok p) :
    p.settings = settings ∧ p.root = root := by
  simp only [load, bind_eq_ok_iff] at h
  obtain ⟨_, -, files, -, h⟩ := h
  obtain rfl := Except.ok.inj h
  exact ⟨rfl, rfl⟩

/-- If a full run wrote nothing at or below the paths that it looks at, it can be repeated on the
disk it left: it generates the same files and leaves what stands at each place, and every file is
found unchanged if no two files have one place. -/
theorem exists_fullRun_again {r : FullRun} (hnames : d.top.HasEntryNames)
    (hpattern : ∀ q ∈ enumPaths settings root, Pattern.isPattern q.text = false)
    (hrun : fullRun d settings root adapter = .ok r)
    (hclear : ∀ q ∈ lookedAt settings root, d.KeepsClear r.disk r.files q) :
    ∃ r', fullRun r.disk settings root adapter = .ok r' ∧ r'.files = r.files ∧
      r'.disk.spot? = r.disk.spot? ∧
      ((r.files.Pairwise fun f g ↦ r.disk.way? f.path ≠ r.disk.way? g.path) →
        ∀ o ∈ r'.outcomes, o.2 = .unchanged) := by
  obtain ⟨hload, hfiles, hwrite⟩ := fullRun_eq_ok_iff.mp hrun
  obtain ⟨hsettings, hroot⟩ := settings_of_load hload
  have hsame : ∀ q ∈ lookedAt settings root, Disk.SameAt d r.disk q := fun q hq ↦
    Disk.sameAt_of_keepsClear hwrite (hclear q hq)
  have henums : ∀ q ∈ enumPaths settings root, Disk.SameAt d r.disk q := fun q hq ↦
    hsame q (List.mem_append_left _ (List.mem_append_left _ hq))
  obtain ⟨again, d'', hagain, hspot, hunchanged⟩ := Disk.exists_writeAll_again hwrite
  refine ⟨⟨r.project, r.files, again, d''⟩, fullRun_eq_ok_iff.mpr ⟨?_, ?_, hagain⟩, rfl, hspot,
    fun hapart o ho ↦ ?_⟩
  · rw [load_congr hnames hpattern henums, hload]
  · rw [generateAll_congr hnames (by rwa [hsettings, hroot]), hfiles]
  · rw [(hunchanged hapart).2] at ho
    obtain ⟨f, -, rfl⟩ := List.mem_map.mp ho
    rfl

/-! ## Runs -/

def homeDisk : Disk :=
  ⟨.dir [("app", .dir [("E.php", .file
      "<?php #[GenerateTs] enum E: int \x7b case A = 1; \x7d".toUTF8)]),
    ("lang", .dir [("en.json", .file "\x7b\x7d".toUTF8)])]⟩

def homeSettings : Settings :=
  { Settings.default with enums := { Settings.Enums.default with paths := ["app"] } }

theorem hasEntryNames_homeDisk : homeDisk.top.HasEntryNames := by
  have hnames : ∀ name ∈ ["app", "E.php", "lang", "en.json"], Disk.IsEntryName name := by decide
  simp only [List.forall_mem_cons] at hnames
  obtain ⟨happ, hE, hlang, hen, -⟩ := hnames
  exact ⟨happ, ⟨hE, trivial, trivial⟩, hlang, ⟨hen, trivial, trivial⟩, trivial⟩

theorem exists_fullRun_again_homeDisk :
    ∃ r r', fullRun homeDisk homeSettings ⟨""⟩ none = .ok r ∧
      fullRun r.disk homeSettings ⟨""⟩ none = .ok r' ∧ r'.files = r.files ∧
      r'.disk.spot? = r.disk.spot? ∧ (∀ o ∈ r'.outcomes, o.2 = .unchanged) ∧
      r.files.map OutputFile.path
        = [⟨"resources/js/enums/E.ts"⟩, ⟨"resources/js/locales/en.ts"⟩] := by
  obtain ⟨r, hrun, hdots, hpaths, hplaces, hfiles⟩ : ∃ r,
      fullRun homeDisk homeSettings ⟨""⟩ none = .ok r ∧
      (∀ f ∈ r.files, ['.', '.'] ∉ Disk.segmentsOf f.path) ∧
      (∀ q ∈ lookedAt homeSettings ⟨""⟩, ['.', '.'] ∉ Disk.segmentsOf q ∧
        ∀ u ∈ r.disk.way? q, ∀ f ∈ r.files, ∀ v ∈ r.disk.way? f.path, ¬ u <+: v) ∧
      (r.files.Pairwise fun f g ↦ r.disk.way? f.path ≠ r.disk.way? g.path) ∧
      r.files.map OutputFile.path
        = [⟨"resources/js/enums/E.ts"⟩, ⟨"resources/js/locales/en.ts"⟩] :=
    exists_of_toOption (by decide +kernel)
  obtain ⟨-, -, hwrite⟩ := fullRun_eq_ok_iff.mp hrun
  obtain ⟨r', hagain, hsame, hspot, hunchanged⟩ :=
    exists_fullRun_again hasEntryNames_homeDisk (by decide +kernel) hrun fun q hq ↦
      Disk.keepsClear_of_noDots hwrite (hpaths q hq).1 hdots (hpaths q hq).2
  exact ⟨r, r', hrun, hagain, hsame, hspot, hunchanged hplaces, hfiles⟩

/-- No file of a run is at a path or inside it, by name or by place. -/
def FullRun.IsOutside (r : FullRun) (q : Path) : Prop :=
  ∀ f ∈ r.files, ¬ q.components <+: f.path.components ∧
    ∀ u ∈ r.disk.way? q, ∀ v ∈ r.disk.way? f.path, ¬ u <+: v

instance (r : FullRun) (q : Path) : Decidable (r.IsOutside q) := by
  unfold FullRun.IsOutside
  infer_instance

/-- The way to the enums leads through the directory of locale modules. -/
def detourSettings : Settings :=
  { Settings.default with
    enums := { Settings.Enums.default with paths := ["js/../app"] }
    bundles := { Settings.Bundles.default with outputPath := "js", format := "json" } }

/-- A locale and a detour to a file where the first locale is written. -/
def aliasSettings : Settings :=
  { Settings.default with
    enums := { Settings.Enums.default with paths := [] }
    bundles := { Settings.Bundles.default with
      outputPath := "js", format := "json", locales := ["a", "../js/a"] } }

def aliasDisk : Disk :=
  ⟨.dir [("js", .dir [("a.json", .file "\x7b\x7d".toUTF8)]),
    ("lang", .dir [("a.json", .file "\x7b\"x\": 0\x7d".toUTF8)])]⟩

/-- Two dots make a run see what a run before it made: a directory opens the way to enums that the
first run did not find, and two files with different paths are written over each other every
time. -/
theorem not_fullRun_again_detours :
    (∃ r r', fullRun homeDisk detourSettings ⟨""⟩ none = .ok r ∧
      fullRun r.disk detourSettings ⟨""⟩ none = .ok r' ∧
      (∀ q ∈ [⟨"js/../app"⟩, ⟨"lang"⟩], r.IsOutside q) ∧
      r.files.map OutputFile.path = [⟨"js/en.json"⟩] ∧
      r'.files.map OutputFile.path = [⟨"resources/js/enums/E.ts"⟩, ⟨"js/en.json"⟩]) ∧
    ∃ r r', fullRun aliasDisk aliasSettings ⟨""⟩ none = .ok r ∧
      fullRun r.disk aliasSettings ⟨""⟩ none = .ok r' ∧ r.IsOutside ⟨"lang"⟩ ∧
      r.files.Pairwise (fun f g ↦ f.path.same g.path = false) ∧ r'.files = r.files ∧
      r'.outcomes.map Prod.snd = [.written, .written] := by
  have hdetour : ∃ r ∈ (fullRun homeDisk detourSettings ⟨""⟩ none).toOption,
      (∃ r' ∈ (fullRun r.disk detourSettings ⟨""⟩ none).toOption,
        (∀ q ∈ [⟨"js/../app"⟩, ⟨"lang"⟩], r.IsOutside q) ∧
        r.files.map OutputFile.path = [⟨"js/en.json"⟩] ∧
        r'.files.map OutputFile.path = [⟨"resources/js/enums/E.ts"⟩, ⟨"js/en.json"⟩]) := by
    decide +kernel
  have halias : ∃ r ∈ (fullRun aliasDisk aliasSettings ⟨""⟩ none).toOption,
      (∃ r' ∈ (fullRun r.disk aliasSettings ⟨""⟩ none).toOption, r.IsOutside ⟨"lang"⟩ ∧
        r.files.Pairwise (fun f g ↦ f.path.same g.path = false) ∧ r'.files = r.files ∧
        r'.outcomes.map Prod.snd = [.written, .written]) := by
    decide +kernel
  obtain ⟨r, hr, h⟩ := exists_of_toOption hdetour
  obtain ⟨r', hr', h⟩ := exists_of_toOption h
  obtain ⟨s, hs, h'⟩ := exists_of_toOption halias
  obtain ⟨s', hs', h'⟩ := exists_of_toOption h'
  exact ⟨⟨r, r', hr, hr', h⟩, s, s', hs, hs', h'⟩

end Project

end FrontendSync
