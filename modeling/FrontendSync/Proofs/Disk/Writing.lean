import FrontendSync.Project.Output
import FrontendSync.Proofs.Disk.Join

/-!
# Written disks

What writing files leaves alone: directories stay, a file stays a file, and what is neither at an
output's place nor in a new directory is not touched.  Writing the same files again puts the same
bytes in the same places.
-/

namespace FrontendSync

theorem fromUTF8?_toUTF8 (s : String) : String.fromUTF8? s.toUTF8 = some s := by
  simp only [String.fromUTF8?, String.toUTF8_eq_toByteArray, dif_pos s.isValidUTF8]
  rfl

theorem toUTF8_of_fromUTF8? {bytes : ByteArray} {s : String}
    (h : String.fromUTF8? bytes = some s) : s.toUTF8 = bytes := by
  unfold String.fromUTF8? at h
  split at h
  · obtain rfl := Option.some.inj h
    rfl
  · simp at h

namespace Disk

variable {d d' d'' : Disk}

/-- A directory that was made where nothing was before. -/
def IsNewDir (d d' : Disk) (v : List String) : Prop := d.spot? v = none ∧ d'.spot? v = some .dir

theorem not_isNewDir_self {v : List String} : ¬ IsNewDir d d v := by
  rintro ⟨hnew, hdir⟩
  simp [hnew] at hdir

/-- One disk comes from another one by writing files at places with `P`. -/
structure Grows (P : List String → Prop) (d d' : Disk) : Prop where
  dirs : KeepsDirs d d'
  files : ∀ u, d.bytes? u ≠ none → d'.bytes? u ≠ none
  frame : ∀ u, (∀ v, P v ∨ IsNewDir d d' v → ¬ u <+: v) → d'.top.get? u = d.top.get? u

namespace Grows

variable {P Q : List String → Prop}

theorem refl (P : List String → Prop) (d : Disk) : Grows P d d :=
  ⟨fun _ h ↦ h, fun _ h ↦ h, fun _ _ ↦ rfl⟩

theorem mono (h : Grows P d d') (hPQ : ∀ v, P v → Q v) : Grows Q d d' :=
  ⟨h.dirs, h.files, fun u hu ↦ h.frame u fun v hv ↦ hu v (hv.imp_left (hPQ v))⟩

theorem spot?_eq_none (h : Grows P d d') {v : List String} (hv : d'.spot? v = none) :
    d.spot? v = none := by
  by_contra hsome
  obtain ⟨spot, hspot⟩ := Option.ne_none_iff_exists'.mp hsome
  cases spot with
  | dir => simp [h.dirs v hspot] at hv
  | file bytes =>
    have hbytes : d.bytes? v ≠ none := by simp [bytes?_eq_some_iff.mpr hspot]
    exact h.files v hbytes (by rw [bytes?, hv]; rfl)

/-- A directory that is new at the end is new at one of two steps. -/
theorem cases_isNewDir (h : Grows P d' d'') {v : List String} (hv : IsNewDir d d'' v) :
    IsNewDir d d' v ∨ IsNewDir d' d'' v := by
  cases hspot : d'.spot? v with
  | none => exact .inr ⟨hspot, hv.2⟩
  | some spot =>
    cases spot with
    | dir => exact .inl ⟨hv.1, hspot⟩
    | file bytes =>
      have hbytes : d'.bytes? v ≠ none := by simp [bytes?_eq_some_iff.mpr hspot]
      exact absurd (by rw [bytes?, hv.2]; rfl) (h.files v hbytes)

theorem trans (h : Grows P d d') (h' : Grows P d' d'') : Grows P d d'' := by
  refine ⟨fun u hu ↦ h'.dirs u (h.dirs u hu), fun u hu ↦ h'.files u (h.files u hu), fun u hu ↦ ?_⟩
  rw [h'.frame u, h.frame u]
  · rintro v (hv | ⟨hnew, hdir⟩)
    · exact hu v (.inl hv)
    · exact hu v (.inr ⟨hnew, h'.dirs v hdir⟩)
  · rintro v (hv | ⟨hnew, hdir⟩)
    · exact hu v (.inl hv)
    · exact hu v (.inr ⟨h.spot?_eq_none hnew, hdir⟩)

end Grows

section PutAt

variable {v : List String} {name : String} {m : Node}

theorem keepsDirs_putAt (hparent : d.spot? v = some .dir) (hm : m.entries = [])
    (hold : d.spot? (v ++ [name]) ≠ some .dir) : KeepsDirs d (d.putAt (v ++ [name]) m) := by
  intro u hu
  rw [spot?_putAt hparent hm hold, Function.update_of_ne]
  · exact hu
  · rintro rfl
    exact hold hu

theorem grows_putAt (hparent : d.spot? v = some .dir) (hm : m.entries = [])
    (hold : d.spot? (v ++ [name]) ≠ some .dir)
    (hfile : d.bytes? (v ++ [name]) ≠ none → m.spot.bytes? ≠ none) {P : List String → Prop}
    (hP : P (v ++ [name]) ∨ IsNewDir d (d.putAt (v ++ [name]) m) (v ++ [name])) :
    Grows P d (d.putAt (v ++ [name]) m) := by
  refine ⟨keepsDirs_putAt hparent hm hold, fun u hu ↦ ?_, fun u hu ↦ ?_⟩
  · rw [bytes?_putAt hparent hm hold, Function.update_apply]
    split
    · rename_i hv
      exact hfile (hv ▸ hu)
    · exact hu
  · exact get?_putAt_of_not_prefix (hu _ hP) hm hold

end PutAt

/-! ## Directories -/

/-- New directories are no files. -/
structure AddsDirs (d d' : Disk) : Prop where
  grows : Grows (fun _ ↦ False) d d'
  bytes : d'.bytes? = d.bytes?

theorem AddsDirs.trans (h : AddsDirs d d') (h' : AddsDirs d' d'') : AddsDirs d d'' :=
  ⟨h.grows.trans h'.grows, h'.bytes.trans h.bytes⟩

/-- A step stays on a directory, or makes one where nothing is. -/
theorem makeStep_eq_some {names names' : List String} {segment : List Char}
    (h : makeStep (d, names) segment = some (d', names')) :
    d.step names segment = some names' ∧ (d' = d ∨ ∃ name, names' = names ++ [name] ∧
      d.spot? names' = none ∧ d' = d.putAt names' (.dir [])) := by
  rw [makeStep] at h
  obtain ⟨w, hstep, h⟩ := Option.bind_eq_some_iff.mp h
  split at h
  · obtain ⟨rfl, rfl⟩ := Prod.mk.inj (Option.some.inj h)
    exact ⟨hstep, .inl rfl⟩
  · simp at h
  · rename_i hnone
    obtain ⟨rfl, rfl⟩ := Prod.mk.inj (Option.some.inj h)
    have hnone : d.spot? w = none := spot?_eq_none_iff.mpr hnone
    rcases cases_of_step hstep with ⟨-, -, rfl⟩ | ⟨-, hdir⟩
    · exact ⟨hstep, .inr ⟨_, rfl, hnone, rfl⟩⟩
    · simp [hnone] at hdir

theorem addsDirs_makeStep {names names' : List String} {segment : List Char}
    (h : makeStep (d, names) segment = some (d', names')) :
    AddsDirs d d' ∧ ∀ v, IsNewDir d d' v → v = names' := by
  obtain ⟨hstep, rfl | ⟨name, rfl, hnone, rfl⟩⟩ := makeStep_eq_some h
  · exact ⟨⟨.refl _ _, rfl⟩, fun v hv ↦ absurd hv not_isNewDir_self⟩
  · have hparent := (step_eq_some_iff.mp hstep).1
    have hold : d.spot? (names ++ [name]) ≠ some .dir := by simp [hnone]
    have hspot := congrFun (spot?_putAt (m := .dir []) hparent rfl hold)
    have hbytes : d.bytes? (names ++ [name]) = none := by rw [bytes?, hnone]; rfl
    have hmade : (d.putAt (names ++ [name]) (.dir [])).spot? (names ++ [name]) = some .dir :=
      (hspot _).trans (Function.update_self ..)
    refine ⟨⟨grows_putAt hparent rfl hold (absurd hbytes) (.inr ⟨hnone, hmade⟩), ?_⟩, ?_⟩
    · exact (bytes?_putAt hparent rfl hold).trans (Function.update_eq_self_iff.mpr hbytes.symm)
    · rintro v ⟨hnew, hdir⟩
      by_contra hne
      rw [hspot, Function.update_of_ne hne, hnew] at hdir
      simp at hdir

theorem addsDirs_foldlM_makeStep {segments : List (List Char)} {names u : List String}
    (h : segments.foldlM makeStep (d, names) = some (d', u)) : AddsDirs d d' := by
  induction segments generalizing d names with
  | nil =>
    obtain ⟨rfl, -⟩ := Prod.mk.inj (Option.some.inj h)
    exact ⟨.refl _ d, rfl⟩
  | cons segment segments ih =>
    obtain ⟨⟨d₁, names₁⟩, hstep, hrest⟩ := Option.bind_eq_some_iff.mp h
    exact (addsDirs_makeStep hstep).1.trans (ih hrest)

theorem makeDirs_eq_some {p : Path} (h : d.makeDirs p = some d') :
    d' = d ∨ p.text ≠ "" ∧ ∃ u, (segmentsOf p).foldlM makeStep (d, []) = some (d', u) := by
  rw [makeDirs] at h
  split at h
  · exact .inl (Option.some.inj h).symm
  · rename_i hempty
    split at h
    · simp at h
    · obtain ⟨⟨_, u⟩, hu, rfl⟩ := Option.map_eq_some_iff.mp h
      exact .inr ⟨by simpa using hempty, u, hu⟩

theorem addsDirs_makeDirs {p : Path} (h : d.makeDirs p = some d') : AddsDirs d d' := by
  rcases makeDirs_eq_some h with rfl | ⟨-, u, hu⟩
  · exact ⟨.refl _ _, rfl⟩
  · exact addsDirs_foldlM_makeStep hu

theorem foldlM_step_of_makeStep {segments : List (List Char)} {names u : List String}
    (h : segments.foldlM makeStep (d, names) = some (d', u)) :
    segments.foldlM d'.step names = some u := by
  induction segments generalizing d names with
  | nil => exact congrArg some (Prod.mk.inj (Option.some.inj h)).2
  | cons segment segments ih =>
    obtain ⟨⟨d₁, names₁⟩, hstep, hrest⟩ := Option.bind_eq_some_iff.mp h
    have hkeeps : KeepsDirs d d' := (addsDirs_foldlM_makeStep h).grows.dirs
    exact Option.bind_eq_some_iff.mpr
      ⟨names₁, step_of_keepsDirs hkeeps (makeStep_eq_some hstep).1, ih hrest⟩

theorem prefix_of_isNewDir_makeStep {segments : List (List Char)} {names u : List String}
    (h : segments.foldlM makeStep (d, names) = some (d', u)) (hdots : ['.', '.'] ∉ segments)
    {v : List String} (hv : IsNewDir d d' v) : v <+: u := by
  induction segments generalizing d names with
  | nil =>
    obtain ⟨rfl, -⟩ := Prod.mk.inj (Option.some.inj h)
    exact absurd hv not_isNewDir_self
  | cons segment segments ih =>
    obtain ⟨⟨d₁, names₁⟩, hstep, hrest⟩ := Option.bind_eq_some_iff.mp h
    have hmore : ['.', '.'] ∉ segments := fun hmem ↦ hdots (List.mem_cons_of_mem segment hmem)
    rcases (addsDirs_foldlM_makeStep hrest).grows.cases_isNewDir hv with hv | hv
    · rw [(addsDirs_makeStep hstep).2 v hv]
      exact prefix_of_foldlM_step (foldlM_step_of_makeStep hrest) hmore
    · exact ih hrest hmore hv

/-! ## Files -/

/-- A path that leads to no directory leads to an entry of one, and ends with its name. -/
theorem exists_of_way? {p : Path} {v : List String} (h : d.way? p = some v)
    (hold : d.spot? v ≠ some .dir) :
    isName ((segmentsOf p).getLast?.getD []) = true ∧
      ∃ names name, v = names ++ [name] ∧ d.spot? names = some .dir := by
  obtain ⟨-, -, hfollow⟩ := way?_eq_some_iff.mp h
  rcases List.eq_nil_or_concat (segmentsOf p) with hnil | ⟨front, last, hsegments⟩
  · exact absurd hnil (Text.pieces_ne_nil '/' _)
  · rw [hsegments, follow, List.concat_eq_append, List.foldlM_append] at hfollow
    obtain ⟨names, -, hlast⟩ := Option.bind_eq_some_iff.mp hfollow
    obtain ⟨w, hstep, hw⟩ := Option.bind_eq_some_iff.mp hlast
    obtain rfl := Option.some.inj hw
    rcases cases_of_step hstep with ⟨hname, -, rfl⟩ | ⟨-, hdir⟩
    · refine ⟨?_, names, _, rfl, (step_eq_some_iff.mp hstep).1⟩
      rw [hsegments, List.concat_eq_append, List.getLast?_concat]
      exact hname
    · exact absurd hdir hold

theorem write_eq_some_iff {p : Path} {bytes : ByteArray} :
    d.write p bytes = some d' ↔
      ∃ v, d.way? p = some v ∧ d.spot? v ≠ some .dir ∧ d' = d.putAt v (.file bytes) := by
  rw [write]
  constructor
  · intro h
    split at h
    · obtain ⟨v, hv, h⟩ := Option.bind_eq_some_iff.mp h
      refine ⟨v, hv, ?_⟩
      split at h
      · simp at h
      · rename_i hdir
        refine ⟨fun hspot ↦ ?_, (Option.some.inj h).symm⟩
        obtain ⟨es, hes⟩ := spot?_eq_dir_iff.mp hspot
        exact hdir es hes
    · simp at h
  · rintro ⟨v, hv, hold, rfl⟩
    rw [if_pos (exists_of_way? hv hold).1, hv, Option.bind_some]
    split
    · rename_i es hes
      exact absurd (spot?_eq_dir_iff.mpr ⟨es, hes⟩) hold
    · rfl

theorem text?_eq_some_iff {p : Path} {text : String} :
    d.text? p = some text ↔ ∃ v, d.way? p = some v ∧ d.bytes? v = some text.toUTF8 := by
  rw [text?, find?]
  constructor
  · intro h
    obtain ⟨n, hn, htext⟩ := Option.bind_eq_some_iff.mp h
    obtain ⟨v, hv, hget⟩ := Option.bind_eq_some_iff.mp hn
    refine ⟨v, hv, bytes?_eq_some_iff.mpr (spot?_eq_file_iff.mpr ?_)⟩
    cases n with
    | file bytes => rw [hget, toUTF8_of_fromUTF8? htext]
    | dir es => simp [Node.text?] at htext
  · rintro ⟨v, hv, hbytes⟩
    rw [hv, Option.bind_some, spot?_eq_file_iff.mp (bytes?_eq_some_iff.mp hbytes), Option.bind_some]
    exact fromUTF8?_toUTF8 text

/-- A disk after a file was written on it. -/
structure Takes (f : OutputFile) (d d' : Disk) : Prop where
  grows : Grows (fun v ↦ d'.way? f.path = some v) d d'
  bytes : ∃ v, d'.way? f.path = some v ∧
    d'.bytes? = Function.update d.bytes? v (some f.contents.toUTF8)

theorem takes_writeText {f : OutputFile} (h : d.writeText f.path f.contents = some d') :
    Takes f d d' := by
  obtain ⟨v, hv, hold, rfl⟩ := write_eq_some_iff.mp h
  obtain ⟨-, names, name, rfl, hparent⟩ := exists_of_way? hv hold
  have hkeeps := keepsDirs_putAt (m := .file f.contents.toUTF8) hparent rfl hold
  have hway := way?_of_keepsDirs hkeeps hv
  refine ⟨grows_putAt hparent rfl hold (fun _ ↦ ?_) (.inl hway), _, hway,
    bytes?_putAt hparent rfl hold⟩
  simp [Node.spot, Spot.bytes?]

end Disk

namespace OutputFile

open Disk

variable {d d' : Disk} {f : OutputFile} {o : Outcome}

theorem install_eq_ok (h : f.install d = (.ok o, d')) :
    ∃ made, d.makeDirs (f.path.parent?.getD ⟨""⟩) = some made ∧
      made.writeText f.path f.contents = some d' := by
  rw [install] at h
  split at h
  · simp at h
  · rename_i made hmade
    split at h
    · simp at h
    · rename_i d₁ hwrite
      obtain ⟨-, rfl⟩ := Prod.mk.inj h
      exact ⟨made, hmade, hwrite⟩

theorem write_eq_ok (h : f.write d = (.ok o, d')) :
    d' = d ∧ d.text? f.path = some f.contents ∨ f.install d = (.ok o, d') := by
  rw [write] at h
  split at h
  · split at h
    · simp at h
    · rename_i text htext
      split at h
      · rename_i hsame
        obtain ⟨-, rfl⟩ := Prod.mk.inj h
        exact .inl ⟨rfl, hsame ▸ htext⟩
      · exact .inr h
  · exact .inr h

theorem takes (h : f.write d = (.ok o, d')) : Takes f d d' := by
  rcases write_eq_ok h with ⟨rfl, htext⟩ | h
  · obtain ⟨v, hv, hbytes⟩ := text?_eq_some_iff.mp htext
    exact ⟨.refl _ _, v, hv, (Function.update_eq_self_iff.mpr hbytes.symm).symm⟩
  · obtain ⟨made, hmade, hwrite⟩ := install_eq_ok h
    have hadds := addsDirs_makeDirs hmade
    obtain ⟨hgrows, v, hv, hbytes⟩ := takes_writeText hwrite
    exact ⟨(hadds.grows.mono (by simp)).trans hgrows, v, hv, by rw [hbytes, hadds.bytes]⟩

/-- A file that leads to text is written without new directories. -/
theorem write_of_text {v : List String} {text : String} (hv : d.way? f.path = some v)
    (htext : d.bytes? v = some text.toUTF8) :
    f.write d = if text = f.contents then (.ok .unchanged, d)
      else (.ok .written, d.putAt v (.file f.contents.toUTF8)) := by
  have hspot := bytes?_eq_some_iff.mp htext
  have hholds : d.holds f.path = true := by
    rw [holds, find?, hv, Option.bind_some, spot?_eq_file_iff.mp hspot]
    rfl
  have hwrite : d.writeText f.path f.contents = some (d.putAt v (.file f.contents.toUTF8)) :=
    write_eq_some_iff.mpr ⟨v, hv, by simp [hspot], rfl⟩
  rw [write, if_pos hholds, text?_eq_some_iff.mpr ⟨v, hv, htext⟩, install, makeDirs_parent hv]
  simp only [hwrite]

end OutputFile

namespace Disk

variable {d d' : Disk}

/-! ## Runs -/

theorem writeAll_cons_eq_ok {f : OutputFile} {fs : List OutputFile}
    {outcomes : List (Path × Outcome)} :
    d.writeAll (f :: fs) = (.ok outcomes, d') ↔ ∃ o d₁ rest, f.write d = (.ok o, d₁) ∧
      d₁.writeAll fs = (.ok rest, d') ∧ outcomes = (f.path, o) :: rest := by
  rw [writeAll]
  cases f.write d with
  | mk result d₁ =>
    cases result with
    | error e => simp
    | ok o =>
      cases hmore : d₁.writeAll fs with
      | mk results d₂ =>
        cases results with
        | error e => simp [Except.map, hmore]
        | ok rest =>
          simp only [Except.map, Prod.mk.injEq, Except.ok.injEq, hmore]
          constructor
          · rintro ⟨rfl, rfl⟩
            exact ⟨o, d₁, rest, ⟨rfl, rfl⟩, hmore, rfl⟩
          · rintro ⟨_, _, rest', ⟨rfl, rfl⟩, hmore', rfl⟩
            obtain ⟨hrest, rfl⟩ := Prod.mk.inj (hmore.symm.trans hmore')
            exact ⟨by rw [Except.ok.inj hrest], rfl⟩

/-- The place of one of the files. -/
def IsPlaceOf (d : Disk) (fs : List OutputFile) (v : List String) : Prop :=
  ∃ f ∈ fs, d.way? f.path = some v

theorem grows_writeAll {fs : List OutputFile} {outcomes : List (Path × Outcome)}
    (h : d.writeAll fs = (.ok outcomes, d')) : Grows (d'.IsPlaceOf fs) d d' := by
  induction fs generalizing d outcomes with
  | nil =>
    obtain ⟨-, rfl⟩ := Prod.mk.inj h
    exact .refl _ d
  | cons f fs ih =>
    obtain ⟨o, d₁, rest, hwrite, hmore, -⟩ := writeAll_cons_eq_ok.mp h
    have hgrows := ih hmore
    refine ((OutputFile.takes hwrite).grows.mono fun v hv ↦ ?_).trans (hgrows.mono fun v hv ↦ ?_)
    · exact ⟨f, List.mem_cons_self, way?_of_keepsDirs hgrows.dirs hv⟩
    · obtain ⟨g, hg, hv⟩ := hv
      exact ⟨g, List.mem_cons_of_mem f hg, hv⟩

theorem exists_way?_of_writeAll {fs : List OutputFile} {outcomes : List (Path × Outcome)}
    (h : d.writeAll fs = (.ok outcomes, d')) {f : OutputFile} (hf : f ∈ fs) :
    ∃ v, d'.way? f.path = some v := by
  induction fs generalizing d outcomes with
  | nil => simp at hf
  | cons g fs ih =>
    obtain ⟨o, d₁, rest, hwrite, hmore, -⟩ := writeAll_cons_eq_ok.mp h
    rcases List.mem_cons.mp hf with rfl | hf
    · obtain ⟨-, v, hv, -⟩ := OutputFile.takes hwrite
      exact ⟨v, way?_of_keepsDirs (grows_writeAll hmore).dirs hv⟩
    · exact ih hmore hf

/-- The file whose contents stay at a place: the last one that leads there. -/
def lastAt (d : Disk) (fs : List OutputFile) (v : List String) : Option OutputFile :=
  (fs.filter fun f ↦ d.way? f.path = some v).getLast?

theorem lastAt_cons (f : OutputFile) (fs : List OutputFile) (v : List String) :
    d.lastAt (f :: fs) v
      = (d.lastAt fs v).or (if d.way? f.path = some v then some f else none) := by
  rw [lastAt, lastAt, List.filter_cons]
  by_cases hv : d.way? f.path = some v
  · simp only [hv, decide_true, if_true, List.getLast?_cons]
    cases (fs.filter fun f ↦ d.way? f.path = some v).getLast? <;> rfl
  · simp [hv]

theorem bytes?_writeAll {fs : List OutputFile} {outcomes : List (Path × Outcome)}
    (h : d.writeAll fs = (.ok outcomes, d')) (v : List String) :
    d'.bytes? v = ((d'.lastAt fs v).map (·.contents.toUTF8)).or (d.bytes? v) := by
  induction fs generalizing d outcomes with
  | nil =>
    obtain ⟨-, rfl⟩ := Prod.mk.inj h
    rfl
  | cons f fs ih =>
    obtain ⟨o, d₁, rest, hwrite, hmore, -⟩ := writeAll_cons_eq_ok.mp h
    obtain ⟨-, w, hw, hbytes⟩ := OutputFile.takes hwrite
    have hw' : d'.way? f.path = some w := way?_of_keepsDirs (grows_writeAll hmore).dirs hw
    rw [ih hmore, lastAt_cons, hbytes, Function.update_apply, hw']
    by_cases hv : v = w
    · subst hv
      cases d'.lastAt fs v <;> simp
    · have hne : some w ≠ some v := fun h ↦ hv (Option.some.inj h).symm
      simp [hv, hne]

/-! ## New directories -/

theorem isNewDir_of_writeText {p : Path} {text : String} (h : d'.writeText p text = some d'')
    {v : List String} (hv : IsNewDir d d'' v) : IsNewDir d d' v := by
  obtain ⟨w, hw, hold, rfl⟩ := write_eq_some_iff.mp h
  obtain ⟨-, names, name, rfl, hparent⟩ := exists_of_way? hw hold
  obtain ⟨hnew, hdir⟩ := hv
  rw [spot?_putAt hparent rfl hold, Function.update_apply] at hdir
  split at hdir
  · simp [Node.spot] at hdir
  · exact ⟨hnew, hdir⟩

theorem prefix_of_isNewDir_write {f : OutputFile} {o : Outcome} (h : f.write d = (.ok o, d'))
    (hdots : ['.', '.'] ∉ segmentsOf f.path) {v : List String} (hv : IsNewDir d d' v) :
    ∃ w, d'.way? f.path = some w ∧ v <+: w := by
  rcases OutputFile.write_eq_ok h with ⟨rfl, -⟩ | h
  · exact absurd hv not_isNewDir_self
  obtain ⟨made, hmade, hwrite⟩ := OutputFile.install_eq_ok h
  obtain ⟨w, hw, -⟩ := write_eq_some_iff.mp hwrite
  have hv : IsNewDir d made v := isNewDir_of_writeText hwrite hv
  obtain ⟨-, hfollow, hway⟩ := way?_eq_some_iff.mp hw
  refine ⟨w, way?_of_keepsDirs (takes_writeText hwrite).grows.dirs hw, ?_⟩
  rcases makeDirs_eq_some hmade with rfl | ⟨hne, u, hu⟩
  · exact absurd hv not_isNewDir_self
  · cases hparent : f.path.parent? with
    | none => simp [hparent] at hne
    | some q =>
      rw [hparent, Option.getD_some] at hne hu
      rcases segmentsOf_parent? hfollow hparent with hempty | ⟨back, -, hsegments⟩
      · exact absurd hempty hne
      · rw [hsegments, List.mem_append, not_or] at hdots
        rw [hsegments, follow, List.foldlM_append, foldlM_step_of_makeStep hu] at hway
        exact (prefix_of_isNewDir_makeStep hu hdots.1 hv).trans (prefix_of_foldlM_step hway hdots.2)

/-- Without two dots in the paths of the files, new directories are above them. -/
theorem prefix_of_isNewDir_writeAll {fs : List OutputFile} {outcomes : List (Path × Outcome)}
    (h : d.writeAll fs = (.ok outcomes, d')) (hdots : ∀ f ∈ fs, ['.', '.'] ∉ segmentsOf f.path)
    {v : List String} (hv : IsNewDir d d' v) : ∃ w, d'.IsPlaceOf fs w ∧ v <+: w := by
  induction fs generalizing d outcomes with
  | nil =>
    obtain ⟨-, rfl⟩ := Prod.mk.inj h
    exact absurd hv not_isNewDir_self
  | cons f fs ih =>
    obtain ⟨o, d₁, rest, hwrite, hmore, -⟩ := writeAll_cons_eq_ok.mp h
    obtain ⟨hf, hfs⟩ := List.forall_mem_cons.mp hdots
    have hgrows := grows_writeAll hmore
    rcases hgrows.cases_isNewDir hv with hv | hv
    · obtain ⟨w, hw, hprefix⟩ := prefix_of_isNewDir_write hwrite hf hv
      exact ⟨w, ⟨f, List.mem_cons_self, way?_of_keepsDirs hgrows.dirs hw⟩, hprefix⟩
    · obtain ⟨w, ⟨g, hg, hw⟩, hprefix⟩ := ih hmore hfs hv
      exact ⟨w, ⟨g, List.mem_cons_of_mem f hg, hw⟩, hprefix⟩

/-! ## The same run again -/

/-- A place of text. -/
def IsText (d : Disk) (v : List String) : Prop := ∃ text : String, d.bytes? v = some text.toUTF8

theorem exists_write_of_isText {f : OutputFile} {v : List String} (hv : d.way? f.path = some v)
    (htext : d.IsText v) : ∃ o d₁, f.write d = (.ok o, d₁) ∧
      (∀ u, d₁.spot? u = some .dir ↔ d.spot? u = some .dir) ∧
      ∀ u, d.IsText u → d₁.IsText u := by
  obtain ⟨text, htext⟩ := htext
  have hwrite := OutputFile.write_of_text hv htext
  split at hwrite
  · exact ⟨_, d, hwrite, fun _ ↦ Iff.rfl, fun _ h ↦ h⟩
  · refine ⟨_, _, hwrite, fun u ↦ ?_, fun u hu ↦ ?_⟩
    all_goals
      have hspot := bytes?_eq_some_iff.mp htext
      have hold : d.spot? v ≠ some .dir := by simp [hspot]
      obtain ⟨-, names, name, rfl, hparent⟩ := exists_of_way? hv hold
    · rw [spot?_putAt hparent rfl hold, Function.update_apply]
      split
      · rename_i hu
        simp [hu, hspot, Node.spot]
      · rfl
    · rw [IsText, bytes?_putAt hparent rfl hold]
      by_cases hv : u = names ++ [name]
      · exact ⟨f.contents, by rw [hv, Function.update_self]; rfl⟩
      · rw [Function.update_of_ne hv]
        exact hu

theorem exists_writeAll_of_isText {fs : List OutputFile}
    (h : ∀ f ∈ fs, ∃ v, d.way? f.path = some v ∧ d.IsText v) :
    ∃ outcomes d', d.writeAll fs = (.ok outcomes, d') ∧
      ∀ u, d'.spot? u = some .dir ↔ d.spot? u = some .dir := by
  induction fs generalizing d with
  | nil => exact ⟨[], d, rfl, fun _ ↦ Iff.rfl⟩
  | cons f fs ih =>
    obtain ⟨⟨v, hv, htext⟩, hfs⟩ := List.forall_mem_cons.mp h
    obtain ⟨o, d₁, hwrite, hdirs, htexts⟩ := exists_write_of_isText hv htext
    have hfs₁ : ∀ g ∈ fs, ∃ v, d₁.way? g.path = some v ∧ d₁.IsText v := by
      intro g hg
      obtain ⟨w, hw, htext⟩ := hfs g hg
      exact ⟨w, (way?_congr hdirs g.path).trans hw, htexts w htext⟩
    obtain ⟨rest, d', hmore, hdirs'⟩ := ih hfs₁
    exact ⟨_, d', writeAll_cons_eq_ok.mpr ⟨o, d₁, rest, hwrite, hmore, rfl⟩,
      fun u ↦ (hdirs' u).trans (hdirs u)⟩

theorem writeAll_eq_self {fs : List OutputFile}
    (h : ∀ f ∈ fs, ∃ v, d.way? f.path = some v ∧ d.bytes? v = some f.contents.toUTF8) :
    d.writeAll fs = (.ok (fs.map fun f ↦ (f.path, .unchanged)), d) := by
  induction fs with
  | nil => rfl
  | cons f fs ih =>
    obtain ⟨⟨v, hv, htext⟩, hfs⟩ := List.forall_mem_cons.mp h
    have hwrite := OutputFile.write_of_text hv htext
    rw [if_pos rfl] at hwrite
    exact writeAll_cons_eq_ok.mpr ⟨_, d, _, hwrite, ih hfs, rfl⟩

theorem spot?_ext (hdirs : ∀ u, d'.spot? u = some .dir ↔ d.spot? u = some .dir)
    (hbytes : d'.bytes? = d.bytes?) : d'.spot? = d.spot? := by
  funext u
  refine Option.ext fun spot ↦ ?_
  cases spot with
  | dir => exact hdirs u
  | file bytes => rw [← bytes?_eq_some_iff, ← bytes?_eq_some_iff, hbytes]

theorem lastAt_of_pairwise {fs : List OutputFile}
    (h : fs.Pairwise fun f g ↦ d.way? f.path ≠ d.way? g.path) {f : OutputFile} (hf : f ∈ fs)
    {v : List String} (hv : d.way? f.path = some v) : d.lastAt fs v = some f := by
  induction fs with
  | nil => simp at hf
  | cons g fs ih =>
    obtain ⟨hg, hfs⟩ := List.pairwise_cons.mp h
    rw [lastAt_cons]
    rcases List.mem_cons.mp hf with rfl | hf
    · have hnone : d.lastAt fs v = none := by
        rw [lastAt, List.getLast?_eq_none_iff, List.filter_eq_nil_iff]
        intro g' hg' hv'
        exact hg g' hg' (hv.trans (of_decide_eq_true hv').symm)
      rw [hnone, if_pos hv]
      rfl
    · rw [ih hfs hf]
      rfl

/-- Writing the files of a run again leaves all files and directories as they are, and finds each
file unchanged if the files have places of their own. -/
theorem exists_writeAll_again {fs : List OutputFile} {outcomes : List (Path × Outcome)}
    (h : d.writeAll fs = (.ok outcomes, d')) :
    ∃ again d'', d'.writeAll fs = (.ok again, d'') ∧ d''.spot? = d'.spot? ∧
      ((fs.Pairwise fun f g ↦ d'.way? f.path ≠ d'.way? g.path) →
        d'' = d' ∧ again = fs.map fun f ↦ (f.path, .unchanged)) := by
  have hplaces : ∀ f ∈ fs, ∃ v g, d'.way? f.path = some v ∧ d'.lastAt fs v = some g ∧
      d'.bytes? v = some g.contents.toUTF8 := by
    intro f hf
    obtain ⟨v, hv⟩ := exists_way?_of_writeAll h hf
    have hne : d'.lastAt fs v ≠ none := by
      rw [lastAt, Ne, List.getLast?_eq_none_iff]
      exact List.ne_nil_of_mem (List.mem_filter.mpr ⟨hf, by simp [hv]⟩)
    obtain ⟨g, hg⟩ := Option.ne_none_iff_exists'.mp hne
    exact ⟨v, g, hv, hg, by rw [bytes?_writeAll h, hg]; rfl⟩
  have htexts : ∀ f ∈ fs, ∃ v, d'.way? f.path = some v ∧ d'.IsText v := by
    intro f hf
    obtain ⟨v, g, hv, -, hbytes⟩ := hplaces f hf
    exact ⟨v, hv, g.contents, hbytes⟩
  obtain ⟨again, d'', hagain, hdirs⟩ := exists_writeAll_of_isText htexts
  refine ⟨again, d'', hagain, spot?_ext hdirs (funext fun v ↦ ?_), fun hapart ↦ ?_⟩
  · have hlast : d''.lastAt fs v = d'.lastAt fs v := by
      simp only [lastAt, way?_congr hdirs]
    rw [bytes?_writeAll hagain, hlast, bytes?_writeAll h]
    cases d'.lastAt fs v <;> rfl
  · have hself : d'.writeAll fs = (.ok (fs.map fun f ↦ (f.path, .unchanged)), d') := by
      refine writeAll_eq_self fun f hf ↦ ?_
      obtain ⟨v, g, hv, hg, hbytes⟩ := hplaces f hf
      obtain rfl : f = g := Option.some.inj ((lastAt_of_pairwise hapart hf hv).symm.trans hg)
      exact ⟨v, hv, hbytes⟩
    obtain ⟨hok, rfl⟩ := Prod.mk.inj (hagain.symm.trans hself)
    exact ⟨rfl, Except.ok.inj hok⟩

end Disk

end FrontendSync
