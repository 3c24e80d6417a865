import FrontendSync.Project.Basic
import FrontendSync.Proofs.Disk.Join
import FrontendSync.Proofs.Project.Sources

/-!
# What a run reads

A run looks at a disk below the paths of enums and at the places of locales in their roots.  On
two disks on which the same stands there it finds the same project and generates the same files.
-/

namespace FrontendSync

/-! ## Names of entries -/

open Disk (IsEntryName)

mutual

/-- All entries of a node, however deep, have names that entries can have. -/
def Node.HasEntryNames : Node → Prop
  | .file _ => True
  | .dir es => AreNamed es

def AreNamed : List (String × Node) → Prop
  | [] => True
  | (name, n) :: es => IsEntryName name ∧ n.HasEntryNames ∧ AreNamed es

end

theorem AreNamed.of_mem {es : List (String × Node)} (h : AreNamed es) {e : String × Node}
    (he : e ∈ es) : IsEntryName e.1 ∧ e.2.HasEntryNames := by
  induction es with
  | nil => simp at he
  | cons e' es ih =>
    obtain ⟨hname, hnode, hes⟩ := h
    rcases List.mem_cons.mp he with rfl | he
    · exact ⟨hname, hnode⟩
    · exact ih hes he

theorem Node.HasEntryNames.entries {n : Node} (h : n.HasEntryNames) : AreNamed n.entries := by
  cases n with
  | file bytes => trivial
  | dir es => exact h

theorem Node.HasEntryNames.of_get? {n m : Node} (h : n.HasEntryNames) {v : List String}
    (hm : n.get? v = some m) : m.HasEntryNames := by
  induction v generalizing n with
  | nil => exact Option.some.inj hm ▸ h
  | cons name v ih =>
    obtain ⟨c, hc, hm⟩ := Option.bind_eq_some_iff.mp hm
    obtain ⟨before, after, hentries, -⟩ := List.lookup_eq_some_iff.mp hc
    have hmem : (name, c) ∈ n.entries := by simp [hentries]
    exact ih (h.entries.of_mem hmem).2 hm

namespace Disk

variable {d d' : Disk}

theorem hasEntryNames_of_find? (hd : d.top.HasEntryNames) {p : Path} {n : Node}
    (h : d.find? p = some n) : n.HasEntryNames := by
  obtain ⟨v, -, hv⟩ := Option.bind_eq_some_iff.mp h
  exact hd.of_get? hv

/-- What a path leads to on two disks is the same. -/
def SameAt (d d' : Disk) (p : Path) : Prop := d'.find? p = d.find? p

namespace SameAt

variable {p : Path}

theorem text? (h : SameAt d d' p) : d'.text? p = d.text? p := by rw [Disk.text?, Disk.text?, h]

theorem isDir (h : SameAt d d' p) : d'.isDir p = d.isDir p := by rw [Disk.isDir, Disk.isDir, h]

theorem isFile (h : SameAt d d' p) : d'.isFile p = d.isFile p := by
  rw [Disk.isFile, Disk.isFile, h]

mutual

theorem of_mem_descendants {p : Path} (hp : p.text ≠ "") (h : SameAt d d' p) {n : Node}
    (hn : n.HasEntryNames) {e : Path × Node} (he : e ∈ n.descendants p) : SameAt d d' e.1 := by
  match n with
  | .file _ => simp [Node.descendants] at he
  | .dir es => exact of_mem_descendantsOf hp h hn he

theorem of_mem_descendantsOf {p : Path} (hp : p.text ≠ "") (h : SameAt d d' p)
    {es : List (String × Node)} (hes : AreNamed es) {e : Path × Node}
    (he : e ∈ Node.descendantsOf p es) : SameAt d d' e.1 := by
  match es with
  | [] => simp [Node.descendantsOf] at he
  | (name, n) :: es =>
    obtain ⟨hname, hn, hes⟩ := hes
    have hentry : SameAt d d' (p.join ⟨name⟩) := find?_join_congr hp hname h
    rw [Node.descendantsOf, List.mem_append, List.mem_cons] at he
    rcases he with (rfl | he) | he
    · exact hentry
    · exact of_mem_descendants (text_join_ne hp hname) hentry hn he
    · exact of_mem_descendantsOf hp h hes he

end

end SameAt

theorem text_ne_of_find? {p : Path} {n : Node} (h : d.find? p = some n) : p.text ≠ "" := by
  intro hempty
  simp [find?_eq_none (.inl hempty)] at h

end Disk

/-! ## Enums -/

namespace Disk

variable {d d' : Disk} (hd : d.top.HasEntryNames) {p q : Path}

theorem sourcesBelow_congr (h : SameAt d d' p) : d'.sourcesBelow p = d.sourcesBelow p := by
  rw [sourcesBelow, sourcesBelow, h]

include hd in
theorem sameAt_of_mem_sourcesBelow (h : SameAt d d' p) (hq : q ∈ d.sourcesBelow p) :
    SameAt d d' q := by
  obtain ⟨e, he, rfl⟩ := List.mem_map.mp hq
  have he := (List.mem_filter.mp he).1
  cases hn : d.find? p with
  | none => simp [hn, Node.descendants, Node.descendantsOf] at he
  | some n =>
    rw [hn] at he
    exact h.of_mem_descendants (text_ne_of_find? hn) (hasEntryNames_of_find? hd hn) he

theorem sourcesOf_congr (hpattern : Pattern.isPattern p.text = false) (h : SameAt d d' p) :
    d'.sourcesOf p = d.sourcesOf p := by
  rw [sourcesOf, sourcesOf, hpattern, h.isDir, h.isFile, sourcesBelow_congr h]
  rfl

include hd in
theorem sameAt_of_mem_sourcesOf (hpattern : Pattern.isPattern p.text = false)
    (h : SameAt d d' p) {found : List Path} (hfound : d.sourcesOf p = .ok found)
    (hq : q ∈ found) : SameAt d d' q := by
  rw [sourcesOf, hpattern] at hfound
  simp only [Bool.false_eq_true, if_false] at hfound
  split at hfound
  · obtain rfl := Except.ok.inj hfound
    exact sameAt_of_mem_sourcesBelow hd h hq
  · split at hfound
    · obtain rfl := Except.ok.inj hfound
      rwa [List.mem_singleton.mp hq]
    · obtain rfl := Except.ok.inj hfound
      simp at hq

end Disk

namespace Finding

variable {d d' : Disk}

theorem all_congr {files : List Path} (h : ∀ q ∈ files, Disk.SameAt d d' q) :
    all d' files = all d files := by
  rw [all, all]
  congr 1
  exact List.flatMap_congr fun q hq ↦ by rw [(h q hq).text?]

end Finding

namespace Project

variable {d d' : Disk} (hd : d.top.HasEntryNames) {settings : Settings} {root : Path}
  {adapter : Option Locale.Adapter} {p : Project}

/-- The paths below which enums are looked for. -/
def enumPaths (settings : Settings) (root : Path) : List Path :=
  settings.enums.paths.map fun dir ↦ Path.under root ⟨dir⟩

include hd in
theorem sameAt_of_sources
    (hpattern : ∀ q ∈ enumPaths settings root, Pattern.isPattern q.text = false)
    (h : ∀ q ∈ enumPaths settings root, Disk.SameAt d d' q) {files : List Path}
    (hfiles : d.sources root settings.enums.paths = .ok files) :
    ∀ q ∈ files, Disk.SameAt d d' q := by
  rw [Disk.sources] at hfiles
  cases hfound : settings.enums.paths.mapM fun dir ↦ d.sourcesOf (Path.under root ⟨dir⟩) with
  | error e => simp [hfound, Except.map] at hfiles
  | ok found =>
    rw [hfound] at hfiles
    obtain rfl := Except.ok.inj hfiles
    intro q hq
    obtain ⟨below, hbelow, hq⟩ := List.mem_flatten.mp ((eraseDupsBy_sublist _ _).subset hq)
    obtain ⟨dir, hdir, hsource⟩ := exists_of_mem_of_forall₂ (mapM_eq_ok_iff.mp hfound) hbelow
    have hmem : Path.under root ⟨dir⟩ ∈ enumPaths settings root := List.mem_map_of_mem hdir
    exact Disk.sameAt_of_mem_sourcesOf hd (hpattern _ hmem) (h _ hmem) hsource hq

include hd in
theorem load_congr (hpattern : ∀ q ∈ enumPaths settings root, Pattern.isPattern q.text = false)
    (h : ∀ q ∈ enumPaths settings root, Disk.SameAt d d' q) :
    load d' settings root adapter = load d settings root adapter := by
  have hsources : d'.sources root settings.enums.paths = d.sources root settings.enums.paths := by
    rw [Disk.sources, Disk.sources]
    congr 1
    refine mapM_congr fun dir hdir ↦ ?_
    have hmem : Path.under root ⟨dir⟩ ∈ enumPaths settings root := List.mem_map_of_mem hdir
    exact Disk.sourcesOf_congr (hpattern _ hmem) (h _ hmem)
  rw [load, load, hsources]
  cases hfiles : d.sources root settings.enums.paths with
  | error e => rfl
  | ok files =>
    have hall := Finding.all_congr (sameAt_of_sources hd hpattern h hfiles)
    cases settings.validate with
    | error e => rfl
    | ok _ =>
      exact congrArg (fun found ↦ (Except.ok
        ⟨settings, root, Registry.ofFindings found, adapter⟩ : Except Fault Project)) hall

end Project

/-! ## Locales -/

namespace Locale

variable {d d' : Disk} (hd : d.top.HasEntryNames) {root q : Path} {locale : String}
  {lookup : Lookup}

/-- The places of a locale below a root. -/
def places (root : Path) (locale : String) : List Path :=
  [root.join ⟨locale ++ ".json"⟩, root.join ⟨locale⟩]

theorem membersOf_congr (read : String → Except LocaleFault Members) (h : Disk.SameAt d d' q) :
    membersOf d' read q = membersOf d read q := by
  rw [membersOf, membersOf, textOf, textOf, h.text?]

theorem ofGroup_congr (h : Disk.SameAt d d' q) : ofGroup d' lookup q = ofGroup d lookup q := by
  rw [ofGroup, ofGroup, membersOf_congr _ h]

theorem groupFiles_congr (h : Disk.SameAt d d' q) : groupFiles d' q = groupFiles d q := by
  rw [groupFiles, groupFiles, h]

include hd in
theorem sameAt_of_mem_groupFiles {dir : Path} (h : Disk.SameAt d d' dir)
    (hq : q ∈ groupFiles d dir) : Disk.SameAt d d' q := by
  obtain ⟨⟨name, n⟩, he, rfl⟩ := List.mem_map.mp (List.mem_filter.mp hq).1
  have he := (List.mem_filter.mp he).1
  cases hn : d.find? dir with
  | none => simp [hn, Node.entries] at he
  | some m =>
    rw [hn] at he
    have hname := ((Disk.hasEntryNames_of_find? hd hn).entries.of_mem he).1
    exact Disk.find?_join_congr (Disk.text_ne_of_find? hn) hname h

theorem filesOf?_congr (h : ∀ q ∈ places root locale, Disk.SameAt d d' q) :
    filesOf? d' root locale = filesOf? d root locale := by
  have hfile := h _ (List.mem_cons_self : root.join ⟨locale ++ ".json"⟩ ∈ _)
  have hdir := h _ (List.mem_cons_of_mem _ List.mem_cons_self : root.join ⟨locale⟩ ∈ _)
  simp only [filesOf?, hfile.isFile, hdir.isDir, groupFiles_congr hdir]

include hd in
theorem sameAt_of_filesOf? (h : ∀ q ∈ places root locale, Disk.SameAt d d' q)
    {files : List Path × List Path} (hfiles : filesOf? d root locale = some files) :
    (∀ q ∈ files.1, Disk.SameAt d d' q) ∧ ∀ q ∈ files.2, Disk.SameAt d d' q := by
  have hdir := h _ (List.mem_cons_of_mem _ List.mem_cons_self : root.join ⟨locale⟩ ∈ _)
  rw [filesOf?] at hfiles
  split at hfiles
  · obtain rfl := Option.some.inj hfiles
    refine ⟨fun q hq ↦ ?_, fun q hq ↦ sameAt_of_mem_groupFiles hd hdir hq⟩
    simp only at hq
    split at hq
    · exact h q (List.mem_singleton.mp hq ▸ List.mem_cons_self)
    · simp at hq
  · simp at hfiles

include hd in
theorem ofRoot_congr (h : ∀ q ∈ places root locale, Disk.SameAt d d' q) :
    ofRoot d' lookup locale root = ofRoot d lookup locale root := by
  unfold ofRoot
  rw [filesOf?_congr h]
  cases hfiles : filesOf? d root locale with
  | none => rfl
  | some files =>
    obtain ⟨hplain, hgroups⟩ := sameAt_of_filesOf? hd h hfiles
    have htop : files.1.mapM (membersOf d' jsonMembers) = files.1.mapM (membersOf d jsonMembers) :=
      mapM_congr fun q hq ↦ membersOf_congr jsonMembers (hplain q hq)
    have hgrouped : files.2.mapM (ofGroup d' lookup) = files.2.mapM (ofGroup d lookup) :=
      mapM_congr fun q hq ↦ ofGroup_congr (hgroups q hq)
    simp only [htop, hgrouped]

include hd in
theorem ofRoots_congr {roots : List Path}
    (h : ∀ root ∈ roots, ∀ q ∈ places root locale, Disk.SameAt d d' q) :
    ofRoots d' lookup roots locale = ofRoots d lookup roots locale := by
  rw [ofRoots, ofRoots, mapM_congr fun root hroot ↦ ofRoot_congr hd (h root hroot)]

end Locale

namespace Project

variable {d d' : Disk} (hd : d.top.HasEntryNames) {settings : Settings} {root : Path}
  {adapter : Option Locale.Adapter} {p : Project}

/-- The paths that a full run looks at: those of enums, the locale roots, and the places of each
locale in them. -/
def lookedAt (settings : Settings) (root : Path) : List Path :=
  let roots := settings.bundles.paths.map fun dir ↦ Path.under root ⟨dir⟩
  enumPaths settings root ++ roots ++
    roots.flatMap fun dir ↦ settings.bundles.locales.flatMap (Locale.places dir)

include hd in
theorem generateAll_congr (h : ∀ q ∈ lookedAt p.settings p.root, Disk.SameAt d d' q) :
    p.generateAll d' = p.generateAll d := by
  have hroots : ∀ dir ∈ p.localeRoots, Disk.SameAt d d' dir := by
    intro dir hdir
    refine h dir ?_
    simp only [lookedAt, List.mem_append]
    exact .inl (.inr hdir)
  have hplaces : ∀ dir ∈ p.localeRoots, ∀ locale ∈ p.settings.bundles.locales,
      ∀ q ∈ Locale.places dir locale, Disk.SameAt d d' q := by
    intro dir hdir locale hlocale q hq
    refine h q ?_
    simp only [lookedAt, List.mem_append]
    exact .inr (List.mem_flatMap.mpr ⟨dir, hdir, List.mem_flatMap.mpr ⟨locale, hlocale, hq⟩⟩)
  have hany : p.localeRoots.any d'.isDir = p.localeRoots.any d.isDir := by
    rw [Bool.eq_iff_iff, List.any_eq_true, List.any_eq_true]
    exact exists_congr fun dir ↦ and_congr_right fun hdir ↦ by rw [(hroots dir hdir).isDir]
  have hbundles : p.generateBundles d' ⟨[], none, none, none⟩
      = p.generateBundles d ⟨[], none, none, none⟩ := by
    have hload (adapter : Locale.Adapter) (flat : Bool) (target : Target) :
        (p.localesOf []).mapM
            (Bundle.load d' p.registry.caseValue p.localeRoots adapter flat target)
          = (p.localesOf []).mapM
            (Bundle.load d p.registry.caseValue p.localeRoots adapter flat target) := by
      refine mapM_congr fun locale hlocale ↦ ?_
      have hlocale : locale ∈ p.settings.bundles.locales :=
        List.mem_eraseDups.mp (by simpa [localesOf] using hlocale)
      rw [Bundle.load, Bundle.load,
        Locale.ofRoots_congr hd fun dir hdir ↦ hplaces dir hdir locale hlocale]
    simp only [generateBundles, hload]
  rw [generateAll, generateAll, hany, hbundles]

end Project

end FrontendSync
