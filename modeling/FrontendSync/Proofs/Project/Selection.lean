import FrontendSync.Proofs.Project.Outputs
import FrontendSync.Proofs.Registry

/-!
# Runs for named enums

A run for enums that are named makes the module of each of them by itself.  It has a result exactly
if every name is found, every enum can be made, and no two modules share a path; which names are
given, and in which order, decides only which modules there are and how they are ordered.
-/

namespace FrontendSync

open Php

/-! ## Selection -/

namespace Registry

/-- The enums that names stand for, each once, at its first mention. -/
def mentioned (r : Registry) (names : List String) : List EnumDecl :=
  (names.filterMap r.find?).eraseDupsBy fun d e ↦ e.qualified == d.qualified

/-- The enums selected so far, with one more unless it is among them. -/
def addNew (selected : List EnumDecl) (e : EnumDecl) : List EnumDecl :=
  if selected.any (·.qualified == e.qualified) then selected else selected ++ [e]

/-- The enums selected so far, with the one of a name. -/
def choose (r : Registry) (selected : List EnumDecl) (name : String) :
    Except Fault (List EnumDecl) :=
  match r.find? name with
  | none => .error (.unknownEnum name)
  | some e => .ok (addNew selected e)

theorem foldlM_choose_eq_ok_iff {r : Registry} {names : List String}
    {selected es : List EnumDecl} :
    names.foldlM r.choose selected = .ok es ↔
      (∀ name ∈ names, ∃ e, r.find? name = some e) ∧
        es = (names.filterMap r.find?).foldl addNew selected := by
  induction names generalizing selected with
  | nil => simp [pure, Except.pure, eq_comm]
  | cons name names ih =>
    rw [List.foldlM_cons, List.forall_mem_cons]
    cases hname : r.find? name with
    | none =>
      rw [choose, hname]
      simp [bind, Except.bind]
    | some e =>
      have hchoose : r.choose selected name = .ok (addNew selected e) := by rw [choose, hname]
      have hfound : ∃ d, some e = some d := ⟨e, rfl⟩
      rw [hchoose, List.filterMap_cons_some hname, List.foldl_cons, and_iff_right hfound]
      exact ih

theorem select_eq_ok_iff {r : Registry} {names : List String} {es : List EnumDecl} :
    r.select names = .ok es ↔
      (∀ name ∈ names, ∃ e, r.find? name = some e) ∧ es = r.mentioned names := by
  have hselect : r.select names = names.foldlM r.choose [] := rfl
  have hmentioned : (names.filterMap r.find?).foldl addNew [] = r.mentioned names :=
    foldl_addNew_nil (fun d e : EnumDecl ↦ e.qualified == d.qualified) (names.filterMap r.find?)
  rw [hselect, foldlM_choose_eq_ok_iff, hmentioned]

variable {r : Registry} {names : List String} {e : EnumDecl}

theorem mem_mentioned (h : r.HasDistinctNames) :
    e ∈ r.mentioned names ↔ ∃ name ∈ names, r.find? name = some e := by
  rw [← List.mem_filterMap]
  constructor
  · intro he
    exact (eraseDupsBy_sublist _ _).subset he
  · intro he
    obtain ⟨d, hd, hsame⟩ := exists_mem_eraseDupsBy (fun d e ↦ e.qualified == d.qualified) he
    suffices e = d by rwa [this]
    rcases hsame with hsame | hsame
    · exact hsame
    · have hregistered {d : EnumDecl} (hd : d ∈ names.filterMap r.find?) : d ∈ r.enums := by
        obtain ⟨name, -, hname⟩ := List.mem_filterMap.mp hd
        exact mem_of_find? hname
      have hd := (eraseDupsBy_sublist _ _).subset hd
      exact h.eq_of_qualified (hregistered he) (hregistered hd) (eq_of_beq hsame).symm

theorem nodup_mentioned (r : Registry) (names : List String) : (r.mentioned names).Nodup := by
  apply (pairwise_eraseDupsBy _ _).imp
  rintro d _ hapart rfl
  simp at hapart

theorem mentioned_singleton {name : String} (h : r.find? name = some e) :
    r.mentioned [name] = [e] := by
  rw [mentioned, List.filterMap_cons_some h, List.eraseDupsBy_cons]
  rfl

/-- Names in another order, or more often, stand for the same enums in another order. -/
theorem perm_mentioned (h : r.HasDistinctNames) {names' : List String}
    (hnames : ∀ name, name ∈ names' ↔ name ∈ names) :
    (r.mentioned names').Perm (r.mentioned names) := by
  apply (List.perm_ext_iff_of_nodup (nodup_mentioned _ _) (nodup_mentioned _ _)).mpr
  intro e
  simp only [mem_mentioned h, hnames]

end Registry

/-! ## Runs -/

namespace Project

variable {p : Project} {format : Option String} {target : Target}

/-- Names of the formats of enum modules are those that a run can choose. -/
theorem exists_enumTarget (hsettings : p.settings.validate = .ok ())
    (hformat : ∀ name ∈ format, (Format.for? .enums name).isSome) :
    ∃ target, p.enumTarget format = .ok target := by
  have hnamed : (Format.for? .enums (format.getD p.settings.enums.format)).isSome := by
    cases format with
    | some name => exact hformat name rfl
    | none =>
      rw [Settings.validate] at hsettings
      obtain ⟨f, hf, -⟩ := bind_eq_ok_iff.mp hsettings
      rw [Settings.format] at hf
      cases hnamed : Format.for? .enums p.settings.enums.format with
      | some _ => simp [hnamed]
      | none => simp [hnamed] at hf
  obtain ⟨f, hf⟩ := Option.isSome_iff_exists.mp hnamed
  refine ⟨p.target p.settings.enums.outputPath p.settings.enums.fileName f, ?_⟩
  rw [enumTarget, Settings.format, hf]
  rfl

/-- The module of one enum. -/
def enumModule (p : Project) (target : Target) (e : EnumDecl) : Except Fault OutputFile :=
  (EnumRecord.ofDecl p.registry.caseValue target e).map fun r ↦
    p.output target.format r.path (Module.EnumModule.text (p.style target.format) r)

theorem path_of_ofDecl {lookup : String → String → Option Value} {e : EnumDecl} {r : EnumRecord}
    (h : EnumRecord.ofDecl lookup target e = .ok r) : r.path = target.path e.name := by
  rw [EnumRecord.ofDecl] at h
  obtain ⟨cases, -, h⟩ := bind_eq_ok_iff.mp h
  obtain ⟨groups, -, h⟩ := bind_eq_ok_iff.mp h
  rw [← Except.ok.inj h]

/-- Enums whose modules have paths of their own. -/
def ArePlacedApart (target : Target) (es : List EnumDecl) : Prop :=
  es.Pairwise fun d e ↦ (target.path d.name).same (target.path e.name) = false

theorem recordsOf_eq_ok_iff {es : List EnumDecl} {rs : List EnumRecord} :
    p.recordsOf target es = .ok rs ↔
      List.Forall₂ (fun e r ↦ EnumRecord.ofDecl p.registry.caseValue target e = .ok r) es rs ∧
        ArePlacedApart target es := by
  have hpaths {rs : List EnumRecord}
      (h : List.Forall₂ (fun e r ↦ EnumRecord.ofDecl p.registry.caseValue target e = .ok r) es rs) :
      OutputFile.checkPaths [] (rs.map fun r ↦ (r.path, r.qualified)) = .ok () ↔
        ArePlacedApart target es := by
    have hmap : rs.map EnumRecord.path = es.map fun e ↦ target.path e.name := by
      induction h with
      | nil => rfl
      | cons hr _ ih => rw [List.map_cons, List.map_cons, path_of_ofDecl hr, ih]
    have hplaced : ArePlacedApart target es ↔
        (rs.map EnumRecord.path).Pairwise fun q q' ↦ q.same q' = false := by
      rw [hmap, List.pairwise_map, ArePlacedApart]
    rw [OutputFile.checkPaths_eq_ok_iff, hplaced, List.pairwise_map, List.pairwise_map]
    simp
  simp only [recordsOf, bind_eq_ok_iff, mapM_eq_ok_iff]
  constructor
  · rintro ⟨rs', hrs, ⟨⟩, hcheck, h⟩
    obtain rfl := Except.ok.inj h
    exact ⟨hrs, (hpaths hrs).mp hcheck⟩
  · rintro ⟨hrs, hplaced⟩
    exact ⟨rs, hrs, (), (hpaths hrs).mpr hplaced, rfl⟩

theorem generateEnums_eq_ok_iff (htarget : p.enumTarget format = .ok target)
    {names : List String} (hnames : names ≠ []) {files : List OutputFile} :
    p.generateEnums ⟨names, format⟩ = .ok files ↔
      (∀ name ∈ names, ∃ e, p.registry.find? name = some e) ∧
        List.Forall₂ (fun e f ↦ p.enumModule target e = .ok f) (p.registry.mentioned names) files ∧
          ArePlacedApart target (p.registry.mentioned names) := by
  rw [generateEnums, map_eq_bind]
  simp only [enumRecords, htarget, selectEnums, if_neg hnames, bind_eq_ok_iff,
    Registry.select_eq_ok_iff, recordsOf_eq_ok_iff, enumModule, forall₂_map_iff]
  constructor
  · rintro ⟨_, ⟨_, ⟨⟩, _, ⟨hfound, rfl⟩, rs, ⟨hrs, hplaced⟩, ⟨⟩⟩, ⟨⟩⟩
    exact ⟨hfound, ⟨rs, hrs, rfl⟩, hplaced⟩
  · rintro ⟨hfound, ⟨rs, hrs, rfl⟩, hplaced⟩
    exact ⟨_, ⟨_, rfl, _, ⟨hfound, rfl⟩, rs, ⟨hrs, hplaced⟩, rfl⟩, rfl⟩

theorem exists_generateEnums_iff (htarget : p.enumTarget format = .ok target)
    {names : List String} (hnames : names ≠ []) :
    (∃ files, p.generateEnums ⟨names, format⟩ = .ok files) ↔
      (∀ name ∈ names, ∃ e, p.registry.find? name = some e) ∧
        (∀ e ∈ p.registry.mentioned names,
          ∃ r, EnumRecord.ofDecl p.registry.caseValue target e = .ok r) ∧
          ArePlacedApart target (p.registry.mentioned names) := by
  have hmade (e : EnumDecl) : (∃ f, p.enumModule target e = .ok f) ↔
      ∃ r, EnumRecord.ofDecl p.registry.caseValue target e = .ok r := by
    simp only [enumModule, map_eq_bind, bind_eq_ok_iff]
    constructor
    · rintro ⟨f, r, hr, -⟩
      exact ⟨r, hr⟩
    · rintro ⟨r, hr⟩
      exact ⟨_, r, hr, rfl⟩
  simp only [generateEnums_eq_ok_iff htarget hnames, ← hmade, ← exists_forall₂_iff]
  constructor
  · rintro ⟨files, hfound, hfiles, hplaced⟩
    exact ⟨hfound, ⟨files, hfiles⟩, hplaced⟩
  · rintro ⟨hfound, ⟨files, hfiles⟩, hplaced⟩
    exact ⟨files, hfound, hfiles, hplaced⟩

/-- The run for one name makes the module of its enum. -/
theorem generateEnums_singleton (htarget : p.enumTarget format = .ok target) {name : String}
    {e : EnumDecl} (he : p.registry.find? name = some e) {f : OutputFile}
    (hf : p.enumModule target e = .ok f) : p.generateEnums ⟨[name], format⟩ = .ok [f] := by
  rw [generateEnums_eq_ok_iff htarget (List.cons_ne_nil _ _), Registry.mentioned_singleton he]
  refine ⟨?_, .cons hf .nil, List.pairwise_singleton _ _⟩
  intro name' hname'
  obtain rfl := List.mem_singleton.mp hname'
  exact ⟨e, he⟩

/-- The run for the same names in another order, or more often, gives the same files in another
order. -/
theorem exists_perm_generateEnums (hregistry : p.registry.HasDistinctNames)
    (htarget : p.enumTarget format = .ok target) {names names' : List String}
    (hnames : names ≠ []) (hsame : ∀ name, name ∈ names' ↔ name ∈ names)
    {files : List OutputFile} (h : p.generateEnums ⟨names, format⟩ = .ok files) :
    ∃ files', p.generateEnums ⟨names', format⟩ = .ok files' ∧ files'.Perm files := by
  have hnames' : names' ≠ [] := by
    rintro rfl
    obtain ⟨name, _, rfl⟩ := List.exists_cons_of_ne_nil hnames
    simpa using hsame name
  obtain ⟨hfound, hfiles, hplaced⟩ := (generateEnums_eq_ok_iff htarget hnames).mp h
  have hperm := Registry.perm_mentioned hregistry hsame
  obtain ⟨files', hfiles', hpermFiles⟩ := List.perm_comp_forall₂ hperm hfiles
  refine ⟨files', (generateEnums_eq_ok_iff htarget hnames').mpr ⟨?_, hfiles', ?_⟩, hpermFiles⟩
  · intro name hname
    exact hfound name ((hsame name).mp hname)
  · refine (List.Perm.pairwise_iff ?_ hperm).mpr hplaced
    intro d e hapart
    rwa [Path.same_comm]

/-- The run for named enums has a result exactly if every name is found, every enum can be made and
no two modules share a path.  The files are those of the enums, each at its first mention; each is
the file of the run for its name alone, and the same names in another order or more often give the
same files in another order. -/
theorem generateEnums_names_iff {ds : List EnumDecl}
    (hregistry : p.registry = Registry.empty.registerAll ds)
    (hsettings : p.settings.validate = .ok ())
    (hformat : ∀ name ∈ format, (Format.for? .enums name).isSome)
    {names : List String} (hnames : names ≠ []) :
    ∃ target, p.enumTarget format = .ok target ∧
      ((∃ files, p.generateEnums ⟨names, format⟩ = .ok files) ↔
        (∀ name ∈ names, ∃ e, p.registry.find? name = some e) ∧
          (∀ e ∈ p.registry.mentioned names,
            ∃ r, EnumRecord.ofDecl p.registry.caseValue target e = .ok r) ∧
            ArePlacedApart target (p.registry.mentioned names)) ∧
      ∀ files, p.generateEnums ⟨names, format⟩ = .ok files →
        List.Forall₂ (fun e f ↦ (∃ name ∈ names, p.registry.find? name = some e) ∧
            ∀ name, p.registry.find? name = some e →
              p.generateEnums ⟨[name], format⟩ = .ok [f])
          (p.registry.mentioned names) files ∧
        ∀ names', (∀ name, name ∈ names' ↔ name ∈ names) →
          ∃ files', p.generateEnums ⟨names', format⟩ = .ok files' ∧ files'.Perm files := by
  have hdistinct : p.registry.HasDistinctNames := by
    rw [hregistry]
    exact Registry.hasDistinctNames_registerAll Registry.hasDistinctNames_empty ds
  obtain ⟨target, htarget⟩ := exists_enumTarget hsettings hformat
  refine ⟨target, htarget, exists_generateEnums_iff htarget hnames, ?_⟩
  intro files hfiles
  constructor
  · obtain ⟨-, hmodules, -⟩ := (generateEnums_eq_ok_iff htarget hnames).mp hfiles
    refine (List.forall₂_and_left _ _).mpr ⟨?_, hmodules.imp ?_⟩
    · intro e he
      exact (Registry.mem_mentioned hdistinct).mp he
    · intro e f hf name hname
      exact generateEnums_singleton htarget hname hf
  · intro names' hsame
    exact exists_perm_generateEnums hdistinct htarget hnames hsame hfiles

/-- An enum with one case. -/
def singleEnum (name : String) : EnumDecl where
  name := name
  qualified := "N\\" ++ name
  space := some "N"
  backing := some .int
  attributes := []
  doc := none
  cases := [⟨"X", some (.ok (.int 1)), none⟩]
  methods := []
  scope := .empty
  file := ""

def pairProject : Project :=
  ⟨Settings.default, ⟨""⟩, Registry.empty.registerAll [singleEnum "A", singleEnum "B"], none⟩

/-- Two enums, one of which is named twice. -/
theorem generateEnums_names_pairProject :
    ∃ f g, pairProject.generateEnums ⟨["b", "\\N\\A", "N\\B"], some "js"⟩ = .ok [f, g] ∧
      (∃ name ∈ ["b", "\\N\\A", "N\\B"],
        pairProject.generateEnums ⟨[name], some "js"⟩ = .ok [f]) ∧
      (∃ name ∈ ["b", "\\N\\A", "N\\B"],
        pairProject.generateEnums ⟨[name], some "js"⟩ = .ok [g]) ∧
      ∃ files, pairProject.generateEnums ⟨["\\N\\A", "N\\B", "b"], some "js"⟩ = .ok files ∧
        files.Perm [f, g] := by
  have hrun : ∃ files ∈ (pairProject.generateEnums
      ⟨["b", "\\N\\A", "N\\B"], some "js"⟩).toOption, files.length = 2 := by decide +kernel
  obtain ⟨files, hfiles, hlength⟩ := exists_of_toOption hrun
  obtain ⟨f, g, rfl⟩ := List.length_eq_two.mp hlength
  have hregistry : pairProject.registry
      = Registry.empty.registerAll [singleEnum "A", singleEnum "B"] := rfl
  have hsettings : pairProject.settings.validate = .ok () := by decide +kernel
  have hformat : ∀ name ∈ some "js", (Format.for? .enums name).isSome := by decide +kernel
  have hnames : ["b", "\\N\\A", "N\\B"] ≠ [] := List.cons_ne_nil _ _
  obtain ⟨target, -, -, hresult⟩ := generateEnums_names_iff hregistry hsettings hformat hnames
  obtain ⟨hmodules, hperm⟩ := hresult _ hfiles
  refine ⟨f, g, hfiles, ?_, ?_, hperm _ (by simp [or_comm, or_left_comm])⟩
  · obtain ⟨d, -, ⟨name, hname, hd⟩, hsingle⟩ :=
      exists_of_mem_of_forall₂ hmodules List.mem_cons_self
    exact ⟨name, hname, hsingle name hd⟩
  · obtain ⟨d, -, ⟨name, hname, hd⟩, hsingle⟩ :=
      exists_of_mem_of_forall₂ hmodules (List.mem_cons_of_mem _ List.mem_cons_self)
    exact ⟨name, hname, hsingle name hd⟩

end Project

end FrontendSync
