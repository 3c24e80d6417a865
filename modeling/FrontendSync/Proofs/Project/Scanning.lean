import FrontendSync.Proofs.Project.Reading

/-!
# Scanned directories

Which sources a directory has is a matter of what is below it: a file counts unless a directory of
dependencies is on the way from the scanned directory to it.  The scan looks at the whole path of a
file instead, so it finds nothing in a directory that is itself inside a directory of dependencies.
-/

namespace FrontendSync

open Disk (IsEntryName)

/-! ## Ways to files -/

namespace Node

mutual

/-- The ways to all files of a node, in the order of the walk. -/
def files : Node → List (List String)
  | file _ => [[]]
  | dir es => filesOf es

def filesOf : List (String × Node) → List (List String)
  | [] => []
  | (name, n) :: es => (files n).map (name :: ·) ++ filesOf es

end

/-- Whether the last name of a way is that of a PHP file. -/
def endsInPhp (w : List String) : Bool :=
  (w.getLast?.bind fun name ↦ (Path.splitName name).2) == some "php"

/-- Whether a way leads through a directory of dependencies. -/
def crossesDependency (w : List String) : Bool :=
  w.any fun name ↦ name == "vendor" || name == "node_modules"

def isSourceWay (w : List String) : Bool := endsInPhp w && !crossesDependency w

/-- The ways to the sources of a node. -/
def sources (n : Node) : List (List String) := n.files.filter isSourceWay

mutual

theorem isEntryName_of_mem_files {n : Node} (hn : n.HasEntryNames) {w : List String}
    (hw : w ∈ n.files) : ∀ name ∈ w, IsEntryName name := by
  match n with
  | file _ =>
    obtain rfl := List.mem_singleton.mp hw
    simp
  | dir es => exact (isEntryName_of_mem_filesOf hn hw).2

theorem isEntryName_of_mem_filesOf {es : List (String × Node)} (hes : AreNamed es)
    {w : List String} (hw : w ∈ filesOf es) : w ≠ [] ∧ ∀ name ∈ w, IsEntryName name := by
  match es with
  | [] => simp [filesOf] at hw
  | (name, n) :: es =>
    obtain ⟨hname, hn, hes⟩ := hes
    rw [filesOf, List.mem_append] at hw
    rcases hw with hw | hw
    · obtain ⟨v, hv, rfl⟩ := List.mem_map.mp hw
      exact ⟨List.cons_ne_nil _ _,
        List.forall_mem_cons.mpr ⟨hname, isEntryName_of_mem_files hn hv⟩⟩
    · exact isEntryName_of_mem_filesOf hes hw

end

end Node

/-- The path at the end of a way from another one. -/
def Path.below (dir : Path) (w : List String) : Path := w.foldl (fun p name ↦ p.join ⟨name⟩) dir

namespace Node

mutual

/-- A walk passes the files of a node in the order of their ways. -/
theorem files_of_descendants (p : Path) (n : Node) :
    (((p, n) :: n.descendants p).filter (·.2.isFile)).map Prod.fst = n.files.map p.below := by
  match n with
  | file _ => rfl
  | dir es =>
    rw [List.filter_cons_of_neg (by simp [isFile])]
    exact files_of_descendantsOf p es

theorem files_of_descendantsOf (p : Path) (es : List (String × Node)) :
    ((descendantsOf p es).filter (·.2.isFile)).map Prod.fst = (filesOf es).map p.below := by
  match es with
  | [] => rfl
  | (name, n) :: es =>
    have hentry := files_of_descendants (p.join ⟨name⟩) n
    rw [descendantsOf, filesOf, List.filter_append, List.map_append, hentry,
      files_of_descendantsOf p es, List.map_append, List.map_map]
    rfl

end

end Node

/-! ## Paths below a directory -/

section Below

variable {dir : Path} {w : List String}

theorem components_below (hdir : dir.text ≠ "") (hw : ∀ name ∈ w, IsEntryName name) :
    (dir.below w).components = dir.components ++ w.map .normal := by
  induction w generalizing dir with
  | nil => exact (List.append_nil _).symm
  | cons name w ih =>
    obtain ⟨hname, hw⟩ := List.forall_mem_cons.mp hw
    rw [Path.below, List.foldl_cons, ← Path.below, ih (Disk.text_join_ne hdir hname) hw,
      Disk.components_join hdir hname, List.append_assoc]
    rfl

theorem isPhp_below (hdir : dir.text ≠ "") (hne : w ≠ []) (hw : ∀ name ∈ w, IsEntryName name) :
    Disk.isPhp (dir.below w) = Node.endsInPhp w := by
  obtain ⟨front, last, rfl⟩ := (List.eq_nil_or_concat' w).resolve_left hne
  rw [Disk.isPhp, Path.extension?, Path.fileName?, components_below hdir hw]
  simp [Node.endsInPhp]

theorem isDependency_below (hdir : dir.text ≠ "") (hw : ∀ name ∈ w, IsEntryName name) :
    Disk.isDependency (dir.below w) = (Disk.isDependency dir || Node.crossesDependency w) := by
  have hsame (name other : String) :
      (Path.Component.normal name == .normal other) = (name == other) := by
    rw [Bool.eq_iff_iff, beq_iff_eq, beq_iff_eq, Path.Component.normal.injEq]
  rw [Disk.isDependency, components_below hdir hw, List.any_append, List.any_map]
  simp only [Function.comp_def, hsame]
  rfl

end Below

/-! ## Scans -/

namespace Disk

variable {d d' : Disk} {dir dir' : Path} {n : Node}

/-- Whether the scan takes a file. -/
def takesSource (p : Path) : Bool := canFollow p && isPhp p && !isDependency p

theorem sourcesBelow_eq_filter (hn : d.find? dir = some n) : d.sourcesBelow dir
    = (((n.descendants dir).filter (·.2.isFile)).map Prod.fst).filter takesSource := by
  rw [sourcesBelow, hn, Option.getD_some, List.filter_map, List.filter_filter]
  congr 2
  funext e
  simp only [takesSource, Function.comp_apply, Bool.and_comm, Bool.and_left_comm, Bool.and_assoc]

theorem takesSource_below {w : List String} (hdir : dir.text ≠ "") (hne : w ≠ [])
    (hw : ∀ name ∈ w, IsEntryName name) : takesSource (dir.below w)
      = (!isDependency dir && (canFollow (dir.below w) && Node.isSourceWay w)) := by
  rw [takesSource, isPhp_below hdir hne hw, isDependency_below hdir hw, Node.isSourceWay,
    Bool.not_or, Bool.and_left_comm, Bool.and_assoc]

/-- The sources below a directory that is not inside a directory of dependencies are those of its
tree with paths that are not too long; otherwise there are none. -/
theorem sourcesBelow_eq (hn : d.find? dir = some n) (hnames : n.HasEntryNames) :
    d.sourcesBelow dir = if isDependency dir then []
      else (n.sources.map dir.below).filter canFollow := by
  rw [sourcesBelow_eq_filter hn]
  cases n with
  | file bytes =>
    have hnone : (Node.file bytes).sources = [] := rfl
    rw [hnone]
    split <;> rfl
  | dir es =>
    have htakes : (Node.filesOf es).filter (takesSource ∘ dir.below)
        = (Node.filesOf es).filter fun w ↦
          !isDependency dir && (canFollow (dir.below w) && Node.isSourceWay w) := by
      refine List.filter_congr fun w hw ↦ ?_
      obtain ⟨hne, hentries⟩ := Node.isEntryName_of_mem_filesOf hnames hw
      exact takesSource_below (text_ne_of_find? hn) hne hentries
    rw [Node.descendants, Node.files_of_descendantsOf, List.filter_map, htakes]
    cases isDependency dir with
    | true => simp
    | false =>
      rw [if_neg Bool.false_ne_true, Node.sources, Node.files, List.filter_map, List.filter_filter]
      rfl

/-- No path of a source is too long. -/
def CanRead (dir : Path) (n : Node) : Prop := ∀ w ∈ n.sources, canFollow (dir.below w) = true

theorem sourcesBelow_of_canRead (hn : d.find? dir = some n) (hnames : n.HasEntryNames)
    (hread : CanRead dir n) :
    d.sourcesBelow dir = if isDependency dir then [] else n.sources.map dir.below := by
  have hall : ∀ p ∈ n.sources.map dir.below, canFollow p = true := by
    intro p hp
    obtain ⟨w, hw, rfl⟩ := List.mem_map.mp hp
    exact hread w hw
  rw [sourcesBelow_eq hn hnames, List.filter_eq_self.mpr hall]

/-- Paths that are the same seen from two directories. -/
def SameBelow (dir : Path) (ps : List Path) (dir' : Path) (ps' : List Path) : Prop :=
  ∃ ws : List (List String), ps = ws.map dir.below ∧ ps' = ws.map dir'.below

theorem sameBelow_comm {ps ps' : List Path} :
    SameBelow dir ps dir' ps' ↔ SameBelow dir' ps' dir ps :=
  exists_congr fun _ ↦ and_comm

theorem sameBelow_nil_iff {ws : List (List String)} :
    SameBelow dir (ws.map dir.below) dir' [] ↔ ws = [] := by
  constructor
  · rintro ⟨vs, hvs, hnil⟩
    rw [List.map_eq_nil_iff.mp hnil.symm] at hvs
    exact List.map_eq_nil_iff.mp hvs
  · rintro rfl
    exact ⟨[], rfl, rfl⟩

/-- A scan finds the sources of a tree exactly if the tree has none or is not inside a directory of
dependencies, where nothing is found.  So it finds the same below two paths exactly if the tree has
no sources or both paths or none of them lead through such a directory. -/
theorem sourcesBelow_eq_map_iff (hn : d.find? dir = some n) (hn' : d'.find? dir' = some n)
    (hnames : n.HasEntryNames) (hread : CanRead dir n) (hread' : CanRead dir' n) :
    (d.sourcesBelow dir = n.sources.map dir.below ↔ isDependency dir = false ∨ n.sources = []) ∧
      (isDependency dir = true → d.sourcesBelow dir = []) ∧
      (SameBelow dir (d.sourcesBelow dir) dir' (d'.sourcesBelow dir') ↔
        isDependency dir = isDependency dir' ∨ n.sources = []) := by
  have hempty : ([] : List Path) = n.sources.map dir.below ↔ n.sources = [] := by
    rw [eq_comm, List.map_eq_nil_iff]
  have hsame : SameBelow dir (n.sources.map dir.below) dir' (n.sources.map dir'.below) :=
    ⟨n.sources, rfl, rfl⟩
  have hnone : SameBelow dir [] dir' [] := ⟨[], rfl, rfl⟩
  rw [sourcesBelow_of_canRead hn hnames hread, sourcesBelow_of_canRead hn' hnames hread']
  -- whether each of the paths leads through a directory of dependencies
  cases isDependency dir <;> cases isDependency dir'
  · simpa using hsame
  · simp [sameBelow_nil_iff]
  · rw [sameBelow_comm]
    simp [sameBelow_nil_iff, hempty]
  · simpa [hempty] using hnone

/-- A package with a dependency of its own. -/
def packageTree : Node :=
  .dir [("A.php", .file .empty), ("lib", .dir [("B.php", .file .empty), ("c.txt", .file .empty)]),
    ("vendor", .dir [("C.php", .file .empty)])]

/-- The package in a directory of dependencies and outside of it. -/
def packagesDisk : Disk := ⟨.dir [("lib", packageTree), ("vendor", .dir [("acme", packageTree)])]⟩

theorem hasEntryNames_packageTree : packageTree.HasEntryNames := by
  have hnames : ∀ name ∈ ["A.php", "lib", "B.php", "c.txt", "vendor", "C.php"],
      IsEntryName name := by decide +kernel
  have hlib : AreNamed [("B.php", .file .empty), ("c.txt", .file .empty)] :=
    ⟨hnames _ (by simp), trivial, hnames _ (by simp), trivial, trivial⟩
  have hvendor : AreNamed [("C.php", .file .empty)] := ⟨hnames _ (by simp), trivial, trivial⟩
  exact ⟨hnames _ (by simp), trivial, hnames _ (by simp), hlib, hnames _ (by simp), hvendor,
    trivial⟩

/-- Where the package is no dependency its sources are found, which are not those that are found
where it is one. -/
theorem sourcesBelow_packagesDisk :
    packagesDisk.sourcesBelow ⟨"lib"⟩ = [⟨"lib/A.php"⟩, ⟨"lib/lib/B.php"⟩] ∧
      ¬ SameBelow ⟨"lib"⟩ (packagesDisk.sourcesBelow ⟨"lib"⟩) ⟨"vendor/acme"⟩
        (packagesDisk.sourcesBelow ⟨"vendor/acme"⟩) := by
  have hlib : packagesDisk.find? ⟨"lib"⟩ = some packageTree := by rfl
  have hacme : packagesDisk.find? ⟨"vendor/acme"⟩ = some packageTree := by rfl
  have hread (dir : Path) (h : packageTree.sources.all fun w ↦ canFollow (dir.below w)) :
      CanRead dir packageTree := List.all_eq_true.mp h
  obtain ⟨hall, -, hsame⟩ := sourcesBelow_eq_map_iff hlib hacme hasEntryNames_packageTree
    (hread ⟨"lib"⟩ (by decide +kernel)) (hread ⟨"vendor/acme"⟩ (by decide +kernel))
  refine ⟨?_, mt hsame.mp (by decide +kernel)⟩
  rw [hall.mpr (.inl (by decide +kernel))]
  decide +kernel

/-- Nothing is found in the package where it is a dependency. -/
theorem sourcesBelow_dependency :
    packagesDisk.find? ⟨"vendor/acme"⟩ = some packageTree ∧
      packageTree.sources = [["A.php"], ["lib", "B.php"]] ∧
      packagesDisk.sourcesBelow ⟨"vendor/acme"⟩ = [] :=
  ⟨rfl, by decide +kernel, by decide +kernel⟩

end Disk

end FrontendSync
