import FrontendSync.Proofs.Disk.Tree
import FrontendSync.Proofs.Text.Pieces

/-!
# Ways of paths

Which place a path leads to depends only on where the directories are.  More directories may make
new ways but change none, and a way without two dots is not new if something stood at its end
before.
-/

namespace FrontendSync.Disk

variable {d d' : Disk}

/-! ## Steps -/

/-- The place that one segment leads to from a directory. -/
def move (names : List String) (segment : List Char) : Option (List String) :=
  match segment with
  | [] | ['.'] => some names
  | ['.', '.'] => if names = [] then none else some names.dropLast
  | segment => if canName segment then some (names ++ [String.ofList segment]) else none

theorem step_eq (d : Disk) (names : List String) (segment : List Char) :
    d.step names segment = if d.spot? names = some .dir then move names segment else none := by
  unfold step spot?
  cases d.top.get? names with
  | none => rfl
  | some n =>
    cases n with
    | file bytes => rfl
    | dir es => rfl

theorem step_eq_some_iff {names names' : List String} {segment : List Char} :
    d.step names segment = some names' ↔
      d.spot? names = some .dir ∧ move names segment = some names' := by
  rw [step_eq]
  by_cases hdir : d.spot? names = some .dir <;> simp [hdir]

/-- A segment leads to an entry of a directory, or to a directory if it is no name. -/
theorem cases_of_step {names names' : List String} {segment : List Char}
    (h : d.step names segment = some names') :
    isName segment = true ∧ canName segment = true ∧ names' = names ++ [String.ofList segment] ∨
      isName segment = false ∧ d.spot? names' = some .dir := by
  obtain ⟨hdir, hmove⟩ := step_eq_some_iff.mp h
  revert hmove
  fun_cases move names segment with
  | case1 | case2 =>
    intro h
    obtain rfl := Option.some.inj h
    exact .inr ⟨rfl, hdir⟩
  | case3 => simp
  | case4 =>
    intro h
    obtain rfl := Option.some.inj h
    exact .inr ⟨rfl, spot?_dropLast hdir⟩
  | case5 _ hempty hdot hdots hname =>
    intro h
    obtain rfl := Option.some.inj h
    have hisName : isName segment = true := by
      simpa [isName] using ⟨⟨hempty, hdot⟩, hdots⟩
    exact .inl ⟨hisName, hname, rfl⟩
  | case6 => simp

/-! ## More directories -/

/-- All directories of one disk are on the other one. -/
def KeepsDirs (d d' : Disk) : Prop := ∀ u, d.spot? u = some .dir → d'.spot? u = some .dir

theorem step_of_keepsDirs (h : KeepsDirs d d') {names names' : List String} {segment : List Char}
    (hstep : d.step names segment = some names') : d'.step names segment = some names' :=
  step_eq_some_iff.mpr ((step_eq_some_iff.mp hstep).imp_left (h _))

theorem foldlM_step_of_keepsDirs (h : KeepsDirs d d') {segments : List (List Char)}
    {names u : List String} (hu : segments.foldlM d.step names = some u) :
    segments.foldlM d'.step names = some u := by
  induction segments generalizing names with
  | nil => exact hu
  | cons segment segments ih =>
    obtain ⟨names', hstep, hrest⟩ := Option.bind_eq_some_iff.mp hu
    exact Option.bind_eq_some_iff.mpr ⟨names', step_of_keepsDirs h hstep, ih hrest⟩

theorem way?_eq_some_iff {p : Path} {u : List String} :
    d.way? p = some u ↔ p.text ≠ "" ∧ canFollow p = true ∧ d.follow (segmentsOf p) = some u := by
  rw [way?]
  by_cases hempty : p.text = "" <;> cases hfollow : canFollow p <;> simp [hempty]

theorem way?_of_keepsDirs (h : KeepsDirs d d') {p : Path} {u : List String}
    (hu : d.way? p = some u) : d'.way? p = some u := by
  obtain ⟨hempty, hfollow, hu⟩ := way?_eq_some_iff.mp hu
  exact way?_eq_some_iff.mpr ⟨hempty, hfollow, foldlM_step_of_keepsDirs h hu⟩

theorem way?_congr (h : ∀ u, d.spot? u = some .dir ↔ d'.spot? u = some .dir) (p : Path) :
    d.way? p = d'.way? p :=
  Option.ext fun _ ↦ ⟨way?_of_keepsDirs fun u ↦ (h u).mp, way?_of_keepsDirs fun u ↦ (h u).mpr⟩

/-! ## Ways without two dots -/

/-- The way of a path is there already up to its last two dots. -/
def ResolvesDots (d : Disk) (p : Path) : Prop :=
  ∃ before after, segmentsOf p = before ++ after ∧ (d.follow before).isSome ∧
    ['.', '.'] ∉ after

theorem prefix_of_step {names names' : List String} {segment : List Char}
    (h : d.step names segment = some names') (hdots : segment ≠ ['.', '.']) : names <+: names' := by
  have hmove := (step_eq_some_iff.mp h).2
  revert hmove
  fun_cases move names segment with
  | case1 | case2 =>
    intro h
    exact Option.some.inj h ▸ List.prefix_refl names
  | case3 | case4 => exact absurd rfl hdots
  | case5 =>
    intro h
    exact Option.some.inj h ▸ List.prefix_append names _
  | case6 => simp

theorem prefix_of_foldlM_step {segments : List (List Char)} {names u : List String}
    (h : segments.foldlM d.step names = some u) (hdots : ['.', '.'] ∉ segments) :
    names <+: u := by
  induction segments generalizing names with
  | nil => exact Option.some.inj h ▸ List.prefix_refl names
  | cons segment segments ih =>
    obtain ⟨names', hstep, hrest⟩ := Option.bind_eq_some_iff.mp h
    obtain ⟨hne, hmore⟩ := not_or.mp (mt List.mem_cons.mpr hdots)
    exact (prefix_of_step hstep (Ne.symm hne)).trans (ih hrest hmore)

/-- If something stood at the end of a way before, its directories were there as well. -/
theorem foldlM_step_of_spot? {segments : List (List Char)} {names u : List String}
    (h : segments.foldlM d'.step names = some u) (hdots : ['.', '.'] ∉ segments)
    (hsome : d.spot? u ≠ none) (hsame : d'.spot? u = d.spot? u) :
    segments.foldlM d.step names = some u := by
  induction segments generalizing names with
  | nil => exact h
  | cons segment segments ih =>
    obtain ⟨names', hstep, hrest⟩ := Option.bind_eq_some_iff.mp h
    have hdir : d.spot? names = some .dir := by
      by_cases hne : names = u
      · rw [hne, ← hsame, ← hne]
        exact (step_eq_some_iff.mp hstep).1
      · exact spot?_of_prefix hsome (prefix_of_foldlM_step h hdots) hne
    refine Option.bind_eq_some_iff.mpr ⟨names', ?_, ih hrest fun hmem ↦
      hdots (List.mem_cons_of_mem segment hmem)⟩
    exact step_eq_some_iff.mpr ⟨hdir, (step_eq_some_iff.mp hstep).2⟩

/-- What stands at the end of a way stays the same, also if the way is new. -/
theorem find?_eq_of_keepsDirs (h : KeepsDirs d d') {p : Path} (hdots : d.ResolvesDots p)
    (hsame : ∀ u, d'.way? p = some u → d'.top.get? u = d.top.get? u) : d'.find? p = d.find? p := by
  rw [find?, find?]
  cases hway' : d'.way? p with
  | none =>
    cases hway : d.way? p with
    | none => rfl
    | some u => simp [way?_of_keepsDirs h hway] at hway'
  | some u =>
    rw [Option.bind_some, hsame u hway']
    cases hway : d.way? p with
    | some w =>
      obtain rfl : w = u := Option.some.inj ((way?_of_keepsDirs h hway).symm.trans hway')
      rfl
    | none =>
      by_contra hsome
      have hspot : d'.spot? u = d.spot? u := congrArg (Option.map Node.spot) (hsame u hway')
      have hsome : d.spot? u ≠ none := mt spot?_eq_none_iff.mp hsome
      obtain ⟨hempty, hfollow, hu⟩ := way?_eq_some_iff.mp hway'
      obtain ⟨before, after, hsegments, hbefore, hafter⟩ := hdots
      obtain ⟨w, hw⟩ := Option.isSome_iff_exists.mp hbefore
      have hw' : before.foldlM d'.step [] = some w := foldlM_step_of_keepsDirs h hw
      rw [hsegments, follow, List.foldlM_append, hw', Option.bind_eq_bind, Option.bind_some] at hu
      have hu' : d.way? p = some u := by
        refine way?_eq_some_iff.mpr ⟨hempty, hfollow, ?_⟩
        rw [hsegments, follow, List.foldlM_append]
        exact Option.bind_eq_some_iff.mpr ⟨w, hw, foldlM_step_of_spot? hu hafter hsome hspot⟩
      simp [hway] at hu'

end FrontendSync.Disk
