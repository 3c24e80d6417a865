import FrontendSync.Proofs.Disk.Places

/-!
# Installed files

Files whose places are free, or are files already, are all written exactly if what they replace is
text: the writer reads a file before it replaces it.  Then each path leads to its contents, nothing
else changes but for the directories above the files, and the order of the files does not matter.
-/

namespace FrontendSync.Disk

variable {d d' d'' d₁ : Disk} {f g : OutputFile} {fs fs' : List OutputFile}

/-- A file that can be written as far as directories are concerned: only directories stand above it,
and its place is free, or its path leads there to a file. -/
structure CanTake (d : Disk) (f : OutputFile) : Prop where
  place : ∃ v, place? f.path = some v
  free : ∀ u ∈ above f.path, d.CanBeDir u
  old : ∀ v ∈ place? f.path, d.spot? v = none ∨ d.way? f.path = some v ∧ d.bytes? v ≠ none

instance (d : Disk) : DecidablePred d.CanTake := fun f ↦ decidable_of_iff
  ((place? f.path).isSome = true ∧ (∀ u ∈ above f.path, d.CanBeDir u) ∧
    ∀ v ∈ place? f.path, d.spot? v = none ∨ d.way? f.path = some v ∧ d.bytes? v ≠ none)
  ⟨fun ⟨h₁, h₂, h₃⟩ ↦ ⟨Option.isSome_iff_exists.mp h₁, h₂, h₃⟩,
    fun h ↦ ⟨Option.isSome_iff_exists.mpr h.place, h.free, h.old⟩⟩

/-- What a file replaces, if anything, is text. -/
def HoldsText (d : Disk) (f : OutputFile) : Prop :=
  ∀ v ∈ place? f.path, ∀ bytes ∈ d.bytes? v, (String.fromUTF8? bytes).isSome = true

instance (d : Disk) : DecidablePred d.HoldsText := fun f ↦
  inferInstanceAs (Decidable (∀ v ∈ place? f.path, ∀ bytes ∈ d.bytes? v, _))

/-- What becomes of a file: it is unchanged if its path leads to its contents. -/
def outcomeOf (d : Disk) (f : OutputFile) : Outcome :=
  if d.text? f.path = some f.contents then .unchanged else .written

/-- Files stand in their places, directories above them, and all else is as before. -/
structure Installs (fs : List OutputFile) (d d' : Disk) : Prop where
  files : ∀ f ∈ fs, ∀ v ∈ place? f.path, d'.spot? v = some (.file f.contents.toUTF8)
  rest : ∀ v, (∀ f ∈ fs, place? f.path ≠ some v) →
    d'.spot? v = withDirs (fs.flatMap fun f ↦ above f.path) d.spot? v

/-! ## One file -/

section One

variable {v : List String}

/-- What a path reads is what stands in its place. -/
theorem CanTake.text?_eq_some_iff (h : d.CanTake f) (hv : place? f.path = some v) {text : String} :
    d.text? f.path = some text ↔ d.bytes? v = some text.toUTF8 := by
  rw [Disk.text?_eq_some_iff]
  constructor
  · rintro ⟨w, hw, hbytes⟩
    rwa [← ((way?_eq_some_iff_above hv).mp hw).1]
  · intro hbytes
    rcases h.old v hv with hnone | ⟨hway, -⟩
    · simp [bytes?, hnone] at hbytes
    · exact ⟨v, hway, hbytes⟩

theorem installs_singleton_iff (hv : place? f.path = some v) :
    Installs [f] d d' ↔ d'.spot? = Function.update (withDirs (above f.path) d.spot?) v
      (some (.file f.contents.toUTF8)) := by
  constructor
  · intro h
    funext u
    by_cases hu : u = v
    · rw [hu, Function.update_self, h.files f List.mem_cons_self v hv]
    · have hne : ∀ g ∈ [f], place? g.path ≠ some u := by
        intro g hg heq
        rw [List.mem_singleton.mp hg, hv] at heq
        exact hu (Option.some.inj heq).symm
      rw [Function.update_of_ne hu, h.rest u hne]
      simp
  · intro h
    refine ⟨fun g hg w hw ↦ ?_, fun w hw ↦ ?_⟩
    · obtain rfl := List.mem_singleton.mp hg
      obtain rfl := Option.some.inj (hv.symm.trans hw)
      rw [h, Function.update_self]
    · have hne : w ≠ v := by
        rintro rfl
        exact hw f List.mem_cons_self hv
      rw [h, Function.update_of_ne hne]
      simp

/-- A file is put where nothing is. -/
theorem exists_write_of_free (hv : place? f.path = some v)
    (hfree : ∀ u ∈ above f.path, d.CanBeDir u) (hself : v ∉ above f.path)
    (hnone : d.spot? v = none) :
    ∃ d', f.write d = (.ok .written, d') ∧ Installs [f] d d' := by
  obtain ⟨made, hmade, hspot⟩ := exists_makeDirs_parent? hv hfree
  have hway : made.way? f.path = some v := by
    rw [way?_eq_some_iff_above hv]
    refine ⟨rfl, fun u hu ↦ ?_⟩
    rw [hspot, withDirs, if_pos hu]
  have hold : made.spot? v ≠ some .dir := by simp [hspot, withDirs, hself, hnone]
  have hwrite : made.writeText f.path f.contents
      = some (made.putAt v (.file f.contents.toUTF8)) := write_eq_some_iff.mpr ⟨v, hway, hold, rfl⟩
  have hholds : d.holds f.path = false := by
    rw [holds, find?, Option.isSome_eq_false_iff, Option.isNone_iff_eq_none]
    cases hw : d.way? f.path with
    | none => rfl
    | some w =>
      rw [((way?_eq_some_iff_above hv).mp hw).1]
      exact spot?_eq_none_iff.mp hnone
  refine ⟨made.putAt v (.file f.contents.toUTF8), ?_, (installs_singleton_iff hv).mpr ?_⟩
  · rw [OutputFile.write, hholds, if_neg Bool.false_ne_true, OutputFile.install, hmade]
    simp only [hwrite]
  · obtain ⟨-, names, name, rfl, hparent⟩ := exists_of_way? hway hold
    rw [spot?_putAt hparent rfl hold, hspot]
    rfl

/-- Text is replaced unless it is what is written. -/
theorem exists_write_of_text (hv : place? f.path = some v) (hway : d.way? f.path = some v)
    {text : String} (htext : d.bytes? v = some text.toUTF8) :
    ∃ d', f.write d = (.ok (if text = f.contents then .unchanged else .written), d') ∧
      Installs [f] d d' := by
  have hspot := bytes?_eq_some_iff.mp htext
  have hdirs : withDirs (above f.path) d.spot? = d.spot? :=
    withDirs_of_forall ((way?_eq_some_iff_above hv).mp hway).2
  rw [OutputFile.write_of_text hway htext]
  split
  · rename_i hsame
    refine ⟨d, rfl, (installs_singleton_iff hv).mpr ?_⟩
    rw [hdirs, ← hsame, Function.update_eq_self_iff.mpr hspot.symm]
  · have hold : d.spot? v ≠ some .dir := by simp [hspot]
    refine ⟨_, rfl, (installs_singleton_iff hv).mpr ?_⟩
    obtain ⟨-, names, name, rfl, hparent⟩ := exists_of_way? hway hold
    rw [spot?_putAt hparent rfl hold, hdirs]
    rfl

theorem exists_write (h : d.CanTake f) (hself : ∀ v ∈ place? f.path, v ∉ above f.path)
    (hholds : d.HoldsText f) : ∃ d', f.write d = (.ok (d.outcomeOf f), d') ∧ Installs [f] d d' := by
  obtain ⟨v, hv⟩ := h.place
  rcases h.old v hv with hnone | ⟨hway, hbytes⟩
  · have houtcome : d.outcomeOf f = .written := by
      refine if_neg fun htext ↦ ?_
      rw [h.text?_eq_some_iff hv, bytes?, hnone] at htext
      simp at htext
    rw [houtcome]
    exact exists_write_of_free hv h.free (hself v hv) hnone
  · obtain ⟨bytes, hbytes⟩ := Option.ne_none_iff_exists'.mp hbytes
    obtain ⟨text, htext⟩ := Option.isSome_iff_exists.mp (hholds v hv bytes hbytes)
    rw [← toUTF8_of_fromUTF8? htext] at hbytes
    have htext : d.text? f.path = some text := (h.text?_eq_some_iff hv).mpr hbytes
    have houtcome : d.outcomeOf f = if text = f.contents then .unchanged else .written := by
      simp only [outcomeOf, htext, Option.some.injEq]
    rw [houtcome]
    exact exists_write_of_text hv hway hbytes

/-- A file that is not text cannot be replaced. -/
theorem holdsText_of_write (h : d.CanTake f) {o : Outcome} (hwrite : f.write d = (.ok o, d')) :
    d.HoldsText f := by
  intro v hv bytes hbytes
  have hway : d.way? f.path = some v := by
    refine ((h.old v hv).resolve_left fun hnone ↦ ?_).1
    simp [bytes?, hnone] at hbytes
  have hfind : d.find? f.path = some (.file bytes) := by
    rw [find?, hway, Option.bind_some]
    exact spot?_eq_file_iff.mp (bytes?_eq_some_iff.mp hbytes)
  rw [OutputFile.write, holds, hfind] at hwrite
  cases htext : d.text? f.path with
  | none => simp [htext] at hwrite
  | some text =>
    have hsame : some bytes = some text.toUTF8 :=
      hbytes.symm.trans ((h.text?_eq_some_iff hv).mp htext)
    rw [Option.some.inj hsame, fromUTF8?_toUTF8]
    rfl

end One

/-! ## Several files -/

/-- Files that can be written one after the other: each can be written, they have places of their
own, and no file has its place above itself or another file. -/
structure CanTakeAll (d : Disk) (fs : List OutputFile) : Prop where
  each : ∀ f ∈ fs, d.CanTake f
  apart : fs.Pairwise fun f g ↦ place? f.path ≠ place? g.path
  clear : ∀ f ∈ fs, ∀ g ∈ fs, ∀ v ∈ place? f.path, v ∉ above g.path

theorem CanTakeAll.perm (h : d.CanTakeAll fs) (hperm : fs'.Perm fs) : d.CanTakeAll fs' where
  each f hf := h.each f (hperm.mem_iff.mp hf)
  apart := (hperm.pairwise_iff fun hne ↦ hne.symm).mpr h.apart
  clear f hf g hg := h.clear f (hperm.mem_iff.mp hf) g (hperm.mem_iff.mp hg)

section Step

variable {v : List String}

/-- The place of a file is left alone while another one is written. -/
theorem spot?_place (h : d.CanTakeAll (f :: fs)) (hinstalls : Installs [f] d d₁) (hg : g ∈ fs)
    (hv : place? g.path = some v) : d₁.spot? v = d.spot? v := by
  have hne : ∀ f' ∈ [f], place? f'.path ≠ some v := by
    intro f' hf' heq
    rw [List.mem_singleton.mp hf'] at heq
    exact (List.pairwise_cons.mp h.apart).1 g hg (heq.trans hv.symm)
  have hclear := h.clear g (List.mem_cons_of_mem f hg) f List.mem_cons_self v hv
  rw [hinstalls.rest v hne, withDirs, if_neg (by simpa using hclear)]

theorem keepsDirs_of_installs (h : d.CanTake f) (hinstalls : Installs [f] d d₁) :
    KeepsDirs d d₁ := by
  intro u hu
  by_cases hplace : place? f.path = some u
  · rcases h.old u hplace with hnone | ⟨-, hbytes⟩
    · simp [hnone] at hu
    · exact absurd (by rw [bytes?, hu]; rfl) hbytes
  · rw [hinstalls.rest u (by simpa using hplace), withDirs]
    split
    · rfl
    · exact hu

/-- After one file has been written the others can be written. -/
theorem CanTakeAll.tail (h : d.CanTakeAll (f :: fs)) (hinstalls : Installs [f] d d₁) :
    d₁.CanTakeAll fs := by
  have htake : d.CanTake f := h.each f List.mem_cons_self
  refine ⟨fun g hg ↦ ?_, (List.pairwise_cons.mp h.apart).2, fun f' hf' g hg ↦
    h.clear f' (List.mem_cons_of_mem f hf') g (List.mem_cons_of_mem f hg)⟩
  have hg' : g ∈ f :: fs := List.mem_cons_of_mem f hg
  refine ⟨(h.each g hg').place, fun u hu ↦ ?_, fun v hv ↦ ?_⟩
  · have hne : place? f.path ≠ some u := fun heq ↦ h.clear f List.mem_cons_self g hg' u heq hu
    rw [CanBeDir, hinstalls.rest u (by simpa using hne), withDirs]
    split
    · exact .inr rfl
    · exact (h.each g hg').free u hu
  · have hspot := spot?_place h hinstalls hg hv
    rw [bytes?, hspot, ← bytes?]
    exact ((h.each g hg').old v hv).imp_right
      (And.imp_left (way?_of_keepsDirs (keepsDirs_of_installs htake hinstalls)))

theorem holdsText_iff (h : d.CanTakeAll (f :: fs)) (hinstalls : Installs [f] d d₁) (hg : g ∈ fs) :
    d₁.HoldsText g ↔ d.HoldsText g := by
  refine forall_congr' fun v ↦ forall_congr' fun hv ↦ ?_
  have hbytes : d₁.bytes? v = d.bytes? v := by
    rw [bytes?, bytes?, spot?_place h hinstalls hg hv]
  rw [hbytes]

theorem outcomeOf_eq (h : d.CanTakeAll (f :: fs)) (hinstalls : Installs [f] d d₁) (hg : g ∈ fs) :
    d₁.outcomeOf g = d.outcomeOf g := by
  have hg' : g ∈ f :: fs := List.mem_cons_of_mem f hg
  obtain ⟨v, hv⟩ := (h.each g hg').place
  have htext : d₁.text? g.path = d.text? g.path := by
    refine Option.ext fun text ↦ ?_
    rw [((h.tail hinstalls).each g hg).text?_eq_some_iff hv, (h.each g hg').text?_eq_some_iff hv,
      bytes?, bytes?, spot?_place h hinstalls hg hv]
  rw [outcomeOf, outcomeOf, htext]

theorem Installs.cons (h : d.CanTakeAll (f :: fs)) (hinstalls : Installs [f] d d₁)
    (hmore : Installs fs d₁ d') : Installs (f :: fs) d d' := by
  refine ⟨fun g hg v hv ↦ ?_, fun v hv ↦ ?_⟩
  · rcases List.mem_cons.mp hg with rfl | hg
    · have hne : ∀ g' ∈ fs, place? g'.path ≠ some v := by
        intro g' hg' heq
        exact (List.pairwise_cons.mp h.apart).1 g' hg' (Eq.trans hv heq.symm)
      have hclear : v ∉ fs.flatMap fun f ↦ above f.path := by
        intro hmem
        obtain ⟨g', hg', hmem⟩ := List.mem_flatMap.mp hmem
        exact h.clear g List.mem_cons_self g' (List.mem_cons_of_mem g hg') v hv hmem
      rw [hmore.rest v hne, withDirs, if_neg hclear, hinstalls.files g List.mem_cons_self v hv]
    · exact hmore.files g hg v hv
  · obtain ⟨hf, hfs⟩ := List.forall_mem_cons.mp hv
    rw [hmore.rest v hfs, withDirs, withDirs, hinstalls.rest v (by simpa using hf), withDirs]
    by_cases hmem : v ∈ fs.flatMap fun f ↦ above f.path
    · simp [hmem]
    · simp [hmem]

end Step

theorem exists_writeAll (h : d.CanTakeAll fs) (htext : ∀ f ∈ fs, d.HoldsText f) :
    ∃ d', d.writeAll fs = (.ok (fs.map fun f ↦ (f.path, d.outcomeOf f)), d') ∧
      Installs fs d d' := by
  induction fs generalizing d with
  | nil => exact ⟨d, rfl, fun _ hf ↦ absurd hf List.not_mem_nil, fun _ _ ↦ rfl⟩
  | cons f fs ih =>
    obtain ⟨hf, hfs⟩ := List.forall_mem_cons.mp htext
    have hself := h.clear f List.mem_cons_self f List.mem_cons_self
    obtain ⟨d₁, hwrite, hinstalls⟩ := exists_write (h.each f List.mem_cons_self) hself hf
    obtain ⟨d', hmore, hrest⟩ := ih (h.tail hinstalls) fun g hg ↦
      (holdsText_iff h hinstalls hg).mpr (hfs g hg)
    refine ⟨d', writeAll_cons_eq_ok.mpr ⟨_, d₁, _, hwrite, hmore, ?_⟩, hinstalls.cons h hrest⟩
    have houtcomes : (fs.map fun g ↦ (g.path, d₁.outcomeOf g))
        = fs.map fun g ↦ (g.path, d.outcomeOf g) :=
      List.map_congr_left fun g hg ↦ by rw [outcomeOf_eq h hinstalls hg]
    rw [houtcomes]
    rfl

theorem holdsText_of_writeAll (h : d.CanTakeAll fs) {outcomes : List (Path × Outcome)}
    (hok : d.writeAll fs = (.ok outcomes, d')) : ∀ f ∈ fs, d.HoldsText f := by
  induction fs generalizing d outcomes with
  | nil => simp
  | cons f fs ih =>
    obtain ⟨o, d₁, rest, hwrite, hmore, -⟩ := writeAll_cons_eq_ok.mp hok
    have hf : d.HoldsText f := holdsText_of_write (h.each f List.mem_cons_self) hwrite
    have hself := h.clear f List.mem_cons_self f List.mem_cons_self
    obtain ⟨d₁', hwrite', hinstalls⟩ := exists_write (h.each f List.mem_cons_self) hself hf
    obtain ⟨-, rfl⟩ := Prod.mk.inj (hwrite.symm.trans hwrite')
    refine List.forall_mem_cons.mpr ⟨hf, fun g hg ↦ ?_⟩
    exact (holdsText_iff h hinstalls hg).mp (ih (h.tail hinstalls) hmore g hg)

/-- Two disks on which the same files were written differ in nothing. -/
theorem Installs.spot?_eq (h : Installs fs d d') (h' : Installs fs' d d'') (hperm : fs'.Perm fs) :
    d''.spot? = d'.spot? := by
  funext v
  by_cases hv : ∃ f ∈ fs, place? f.path = some v
  · obtain ⟨f, hf, hv⟩ := hv
    rw [h.files f hf v hv, h'.files f (hperm.mem_iff.mpr hf) v hv]
  · have hne : ∀ f ∈ fs, place? f.path ≠ some v := fun f hf heq ↦ hv ⟨f, hf, heq⟩
    have hmem : (v ∈ fs'.flatMap fun f ↦ above f.path) ↔ v ∈ fs.flatMap fun f ↦ above f.path := by
      simp only [List.mem_flatMap, hperm.mem_iff]
    rw [h.rest v hne, h'.rest v fun f hf ↦ hne f (hperm.mem_iff.mp hf), withDirs, withDirs]
    simp only [hmem]

/-- The path of a file that was written leads to its contents. -/
theorem Installs.text?_eq (hinstalls : Installs fs d d') (h : d.CanTakeAll fs) (hf : f ∈ fs) :
    d'.text? f.path = some f.contents := by
  obtain ⟨v, hv⟩ := (h.each f hf).place
  refine Disk.text?_eq_some_iff.mpr ⟨v, (way?_eq_some_iff_above hv).mpr ⟨rfl, fun u hu ↦ ?_⟩,
    bytes?_eq_some_iff.mpr (hinstalls.files f hf v hv)⟩
  have hne : ∀ g ∈ fs, place? g.path ≠ some u := fun g hg heq ↦ h.clear g hg f hf u heq hu
  rw [hinstalls.rest u hne, withDirs, if_pos (List.mem_flatMap.mpr ⟨f, hf, hu⟩)]

/-- No other file is touched. -/
theorem Installs.bytes?_eq (hinstalls : Installs fs d d') (h : d.CanTakeAll fs) {v : List String}
    (hv : ∀ f ∈ fs, place? f.path ≠ some v) : d'.bytes? v = d.bytes? v := by
  rw [bytes?, bytes?, hinstalls.rest v hv, withDirs]
  split
  · rename_i hmem
    obtain ⟨f, hf, hmem⟩ := List.mem_flatMap.mp hmem
    rcases (h.each f hf).free v hmem with hnone | hdir
    · rw [hnone]
      rfl
    · rw [hdir]
  · rfl

/-- Files that can be written as far as directories are concerned are written exactly if each file
in their places is text.  Then every path leads to its contents, a file is unchanged if it led there
before, every other file has the bytes it had, the directories above the files are made and nothing
else; and the files may be written in another order. -/
theorem writeAll_iff_holdsText (h : d.CanTakeAll fs) :
    ((∃ outcomes d', d.writeAll fs = (.ok outcomes, d')) ↔ ∀ f ∈ fs, d.HoldsText f) ∧
      ∀ outcomes d', d.writeAll fs = (.ok outcomes, d') →
        outcomes = (fs.map fun f ↦ (f.path, d.outcomeOf f)) ∧
        (∀ f ∈ fs, d'.text? f.path = some f.contents) ∧
        (∀ v, (∀ f ∈ fs, place? f.path ≠ some v) → d'.bytes? v = d.bytes? v) ∧
        Installs fs d d' ∧
        ∀ fs', fs'.Perm fs → ∃ d'',
          d.writeAll fs' = (.ok (fs'.map fun f ↦ (f.path, d.outcomeOf f)), d'') ∧
            d''.spot? = d'.spot? := by
  refine ⟨⟨fun ⟨_, _, hok⟩ ↦ holdsText_of_writeAll h hok, fun htext ↦ ?_⟩,
    fun outcomes d' hok ↦ ?_⟩
  · obtain ⟨d', hok, -⟩ := exists_writeAll h htext
    exact ⟨_, d', hok⟩
  · have htext := holdsText_of_writeAll h hok
    obtain ⟨_, hok', hinstalls⟩ := exists_writeAll h htext
    obtain ⟨houtcomes, rfl⟩ := Prod.mk.inj (hok.symm.trans hok')
    refine ⟨Except.ok.inj houtcomes, fun f hf ↦ hinstalls.text?_eq h hf,
      fun v hv ↦ hinstalls.bytes?_eq h hv, hinstalls, fun fs' hperm ↦ ?_⟩
    obtain ⟨d'', hok'', hinstalls''⟩ := exists_writeAll (h.perm hperm) fun f hf ↦
      htext f (hperm.mem_iff.mp hf)
    exact ⟨d'', hok'', hinstalls.spot?_eq hinstalls'' hperm⟩

/-- A directory with a file of text and one of another kind. -/
def outputDisk : Disk :=
  ⟨.dir [("out", .dir [("a.ts", .file "old".toUTF8), ("b.ts", .file ⟨#[0xff]⟩),
    ("c.ts", .file "same".toUTF8)])]⟩

/-- A file that replaces text, one with the contents that are there, and one in a new directory. -/
def outputFiles : List OutputFile :=
  [⟨⟨"out/a.ts"⟩, "new"⟩, ⟨⟨"out/c.ts"⟩, "same"⟩, ⟨⟨"out/more/d.ts"⟩, "first"⟩]

theorem writeAll_outputFiles :
    outputDisk.CanTakeAll outputFiles ∧
      ∃ d', outputDisk.writeAll outputFiles = (.ok [(⟨"out/a.ts"⟩, .written),
          (⟨"out/c.ts"⟩, .unchanged), (⟨"out/more/d.ts"⟩, .written)], d') ∧
        (∀ f ∈ outputFiles, d'.text? f.path = some f.contents) ∧
        d'.bytes? ["out", "b.ts"] = some ⟨#[0xff]⟩ ∧
        ∃ d'', outputDisk.writeAll outputFiles.reverse = (.ok [(⟨"out/more/d.ts"⟩, .written),
            (⟨"out/c.ts"⟩, .unchanged), (⟨"out/a.ts"⟩, .written)], d'') ∧
          d''.spot? = d'.spot? := by
  have htake : outputDisk.CanTakeAll outputFiles :=
    ⟨by decide +kernel, by decide +kernel, by decide +kernel⟩
  have htext : ∀ f ∈ outputFiles, outputDisk.HoldsText f := by decide +kernel
  obtain ⟨hiff, hrun⟩ := writeAll_iff_holdsText htake
  obtain ⟨outcomes, d', hok⟩ := hiff.mpr htext
  obtain ⟨houtcomes, htexts, hothers, -, hperm⟩ := hrun outcomes d' hok
  have hother : ∀ f ∈ outputFiles, place? f.path ≠ some ["out", "b.ts"] := by decide +kernel
  have hb : outputDisk.bytes? ["out", "b.ts"] = some ⟨#[0xff]⟩ := by decide +kernel
  have hlist : outputFiles.map (fun f ↦ (f.path, outputDisk.outcomeOf f))
      = [(⟨"out/a.ts"⟩, .written), (⟨"out/c.ts"⟩, .unchanged), (⟨"out/more/d.ts"⟩, .written)] := by
    decide +kernel
  obtain ⟨d'', hok', hsame⟩ := hperm outputFiles.reverse outputFiles.reverse_perm
  rw [List.map_reverse, hlist] at hok'
  rw [houtcomes, hlist] at hok
  exact ⟨htake, d', hok, htexts, (hothers _ hother).trans hb, d'', hok', hsame⟩

/-- A file that is not text stays as it is, and the run fails. -/
theorem writeAll_binaryFile :
    outputDisk.CanTakeAll [⟨⟨"out/b.ts"⟩, "text"⟩] ∧
      (outputDisk.writeAll [⟨⟨"out/b.ts"⟩, "text"⟩]).1.toOption = none ∧
      (outputDisk.writeAll [⟨⟨"out/b.ts"⟩, "text"⟩]).2.bytes? ["out", "b.ts"]
        = some ⟨#[0xff]⟩ :=
  ⟨⟨by decide +kernel, by decide +kernel, by decide +kernel⟩, by decide +kernel,
    by decide +kernel⟩

end FrontendSync.Disk
