import FrontendSync.Proofs.Disk.Writing

/-!
# Places of paths

The place of a path by its text alone, and the places above it that its way leads through.  The way
is there if directories stand in all places above.  Making the directory of a path puts directories
into these places, where nothing was before.
-/

namespace FrontendSync.Disk

open Text

variable {d d' : Disk} {names u w : List String} {segments : List (List Char)}

/-! ## Ways by text -/

/-- The places that a way leads through, with the first and the last one. -/
def passed (names : List String) : List (List Char) → List (List String)
  | [] => [names]
  | segment :: segments => names ::
    match move names segment with
    | some names => passed names segments
    | none => []

theorem mem_passed_start (names : List String) (segments : List (List Char)) :
    names ∈ passed names segments := by
  cases segments <;> exact List.mem_cons_self

theorem passed_cons {names' : List String} {segment : List Char}
    (h : move names segment = some names') :
    passed names (segment :: segments) = names :: passed names' segments := by
  rw [passed, h]

/-- A way can be followed to a directory exactly if it leads through directories only. -/
theorem foldlM_step_iff :
    (segments.foldlM d.step names = some u ∧ d.spot? u = some .dir) ↔
      segments.foldlM move names = some u ∧ ∀ v ∈ passed names segments, d.spot? v = some .dir := by
  induction segments generalizing names with
  | nil =>
    simp only [List.foldlM_nil, passed, List.forall_mem_singleton]
    exact and_congr_right fun h ↦ by rw [Option.some.inj h]
  | cons segment segments ih =>
    constructor
    · rintro ⟨hfollow, hu⟩
      obtain ⟨names', hstep, hrest⟩ := Option.bind_eq_some_iff.mp hfollow
      obtain ⟨hdir, hmove⟩ := step_eq_some_iff.mp hstep
      obtain ⟨hmoves, hdirs⟩ := ih.mp ⟨hrest, hu⟩
      rw [passed_cons hmove]
      exact ⟨Option.bind_eq_some_iff.mpr ⟨names', hmove, hmoves⟩,
        List.forall_mem_cons.mpr ⟨hdir, hdirs⟩⟩
    · rintro ⟨hmoves, hdirs⟩
      obtain ⟨names', hmove, hrest⟩ := Option.bind_eq_some_iff.mp hmoves
      rw [passed_cons hmove] at hdirs
      obtain ⟨hdir, hdirs⟩ := List.forall_mem_cons.mp hdirs
      obtain ⟨hfollow, hu⟩ := ih.mpr ⟨hrest, hdirs⟩
      exact ⟨Option.bind_eq_some_iff.mpr ⟨names', step_eq_some_iff.mpr ⟨hdir, hmove⟩, hfollow⟩, hu⟩

/-! ## New directories -/

/-- What stands where after directories were made in some places. -/
def withDirs (places : List (List String)) (spot? : List String → Option Spot) :
    List String → Option Spot :=
  fun v ↦ if v ∈ places then some .dir else spot? v

/-- Whether a directory is in a place, or can be made there. -/
def CanBeDir (d : Disk) (v : List String) : Prop := d.spot? v = none ∨ d.spot? v = some .dir

instance (d : Disk) (v : List String) : Decidable (d.CanBeDir v) :=
  inferInstanceAs (Decidable (_ ∨ _))

theorem withDirs_of_forall {places : List (List String)}
    (h : ∀ v ∈ places, d.spot? v = some .dir) : withDirs places d.spot? = d.spot? := by
  funext v
  rw [withDirs]
  split
  · rename_i hv
    exact (h v hv).symm
  · rfl

theorem withDirs_cons {v : List String} {places : List (List String)}
    {spot? : List String → Option Spot} (hv : spot? v = some .dir) :
    withDirs (v :: places) spot? = withDirs places spot? := by
  funext u
  rw [withDirs, withDirs]
  by_cases hu : u = v
  · simp [hu, hv]
  · simp [hu]

theorem withDirs_update {v : List String} {places : List (List String)}
    {spot? : List String → Option Spot} (hv : v ∈ places) :
    withDirs places (Function.update spot? v (some .dir)) = withDirs places spot? := by
  funext u
  rw [withDirs, withDirs, Function.update_apply]
  by_cases hu : u = v
  · simp [hu, hv]
  · simp [hu]

theorem exists_makeStep {names' : List String} {segment : List Char}
    (hmove : move names segment = some names') (hnames : d.spot? names = some .dir)
    (hfree : d.CanBeDir names') :
    ∃ d', makeStep (d, names) segment = some (d', names') ∧
      d'.spot? = Function.update d.spot? names' (some .dir) := by
  have hstep : d.step names segment = some names' := step_eq_some_iff.mpr ⟨hnames, hmove⟩
  rcases hfree with hnone | hdir
  · rcases cases_of_step hstep with ⟨-, -, rfl⟩ | ⟨-, hdir⟩
    · have hold : d.spot? (names ++ [String.ofList segment]) ≠ some .dir := by simp [hnone]
      refine ⟨_, ?_, spot?_putAt (m := .dir []) hnames rfl hold⟩
      rw [makeStep, hstep, Option.bind_some, spot?_eq_none_iff.mp hnone]
      rfl
    · simp [hnone] at hdir
  · obtain ⟨es, hes⟩ := spot?_eq_dir_iff.mp hdir
    refine ⟨d, ?_, (Function.update_eq_self_iff.mpr hdir.symm).symm⟩
    rw [makeStep, hstep, Option.bind_some, hes]

/-- Directories are made in all places that a way leads through. -/
theorem exists_foldlM_makeStep (hmoves : segments.foldlM move names = some u)
    (hnames : d.spot? names = some .dir) (hfree : ∀ v ∈ passed names segments, d.CanBeDir v) :
    ∃ d', segments.foldlM makeStep (d, names) = some (d', u) ∧
      d'.spot? = withDirs (passed names segments) d.spot? := by
  induction segments generalizing d names with
  | nil =>
    refine ⟨d, congrArg (fun u ↦ some (d, u)) (Option.some.inj hmoves), ?_⟩
    exact (withDirs_of_forall (List.forall_mem_singleton.mpr hnames)).symm
  | cons segment segments ih =>
    obtain ⟨names', hmove, hrest⟩ := Option.bind_eq_some_iff.mp hmoves
    rw [passed_cons hmove] at hfree ⊢
    have hfree' := (List.forall_mem_cons.mp hfree).2
    have hstart := mem_passed_start names' segments
    obtain ⟨d₁, hmake, hspot⟩ := exists_makeStep hmove hnames (hfree' names' hstart)
    have hdir : d₁.spot? names' = some .dir := by rw [hspot, Function.update_self]
    obtain ⟨d', hmore, hspot'⟩ := ih hrest hdir fun v hv ↦ by
      rw [CanBeDir, hspot, Function.update_apply]
      split
      · exact .inr rfl
      · exact hfree' v hv
    refine ⟨d', Option.bind_eq_some_iff.mpr ⟨_, hmake, hmore⟩, ?_⟩
    rw [hspot', hspot, withDirs_update hstart, withDirs_cons hnames]

/-! ## Directories of files -/

/-- A segment that stays in its directory. -/
def IsSkip (segment : List Char) : Prop := segment = [] ∨ segment = ['.']

theorem move_of_isSkip {segment : List Char} (h : IsSkip segment) (names : List String) :
    move names segment = some names := by
  rcases h with rfl | rfl <;> rfl

theorem foldlM_move_skips {skips : List (List Char)} (h : ∀ s ∈ skips, IsSkip s) :
    skips.foldlM move names = some names ∧ ∀ v ∈ passed names skips, v = names := by
  induction skips with
  | nil => exact ⟨rfl, fun v hv ↦ List.mem_singleton.mp hv⟩
  | cons s skips ih =>
    obtain ⟨hs, hskips⟩ := List.forall_mem_cons.mp h
    have hmove := move_of_isSkip hs names
    obtain ⟨hmoves, hpassed⟩ := ih hskips
    refine ⟨Option.bind_eq_some_iff.mpr ⟨names, hmove, hmoves⟩, ?_⟩
    rw [passed_cons hmove]
    exact List.forall_mem_cons.mpr ⟨rfl, hpassed⟩

/-- A way that stays in its last place leads through no other places. -/
theorem mem_passed_append_skips {front skips : List (List Char)}
    (h : front.foldlM move names = some u) (hskips : ∀ s ∈ skips, IsSkip s) {v : List String} :
    v ∈ passed names (front ++ skips) ↔ v ∈ passed names front := by
  induction front generalizing names with
  | nil =>
    constructor
    · intro hv
      exact List.mem_singleton.mpr ((foldlM_move_skips hskips).2 v hv)
    · intro hv
      rw [List.mem_singleton.mp hv]
      exact mem_passed_start names skips
  | cons segment front ih =>
    obtain ⟨names', hmove, hrest⟩ := Option.bind_eq_some_iff.mp h
    rw [List.cons_append, passed_cons hmove, passed_cons hmove, List.mem_cons, List.mem_cons,
      ih hrest]

section Parents

open Path (component?)

theorem component?_of_isName {segment : List Char} (h : isName segment = true) (first : Bool)
    (stop : Nat) :
    component? first ⟨segment, stop⟩ = some (.normal (String.ofList segment), stop) := by
  fun_cases component? first ⟨segment, stop⟩ <;> simp_all [isName]

theorem exists_component? {segment : List Char} (h : ¬ IsSkip segment) (stop : Nat) :
    ∃ c, component? false ⟨segment, stop⟩ = some (c, stop) := by
  fun_cases component? false ⟨segment, stop⟩ <;> simp_all [IsSkip]

theorem filterMap_measure_skips {skips : List (List Char)} (h : ∀ s ∈ skips, IsSkip s)
    (offset : Nat) : (Path.measure offset skips).filterMap (component? false) = [] := by
  induction skips generalizing offset with
  | nil => rfl
  | cons s skips ih =>
    obtain ⟨hs, hskips⟩ := List.forall_mem_cons.mp h
    have hnone : component? false ⟨s, offset + s.length⟩ = none := by
      rcases hs with rfl | rfl <;> rfl
    rw [Path.measure, List.filterMap_cons_none hnone, ih hskips]

theorem exists_skips (segments : List (List Char)) :
    ∃ body skips, segments = body ++ skips ∧ (∀ s ∈ skips, IsSkip s) ∧
      (body = [] ∨ ∃ front s, body = front ++ [s] ∧ ¬ IsSkip s) := by
  induction segments using List.reverseRecOn with
  | nil => exact ⟨[], [], rfl, by simp, .inl rfl⟩
  | append_singleton segments s ih =>
    by_cases hs : IsSkip s
    · obtain ⟨body, skips, rfl, hskips, hbody⟩ := ih
      refine ⟨body, skips ++ [s], List.append_assoc .., ?_, hbody⟩
      exact List.forall_mem_append.mpr ⟨hskips, List.forall_mem_singleton.mpr hs⟩
    · exact ⟨segments ++ [s], [], (List.append_nil _).symm, by simp, .inr ⟨segments, s, rfl, hs⟩⟩

theorem exists_measure_append (offset : Nat) (front back : List (List Char)) :
    ∃ offset', Path.measure offset (front ++ back)
      = Path.measure offset front ++ Path.measure offset' back := by
  induction front generalizing offset with
  | nil => exact ⟨offset, rfl⟩
  | cons s front ih =>
    obtain ⟨offset', h⟩ := ih (offset + s.length + 1)
    exact ⟨offset', congrArg (_ :: ·) h⟩

/-- Segments of which the last one is a component are measured up to its end. -/
theorem exists_measured_concat {first : List Char} {body : List (List Char)} (hfirst : first ≠ [])
    (hbody : body = [] ∨ ∃ front s, body = front ++ [s] ∧ ¬ IsSkip s) :
    ∃ ms c, (component? true ⟨first, 0 + first.length⟩).toList
        ++ (Path.measure (0 + first.length + 1) body).filterMap (component? false)
      = ms ++ [(c, (Text.join '/' (first :: body)).length)] := by
  rcases hbody with rfl | ⟨front, s, rfl, hs⟩
  · have hcomponent : ∃ c, component? true ⟨first, 0 + first.length⟩ = some (c, first.length) := by
      fun_cases component? true ⟨first, 0 + first.length⟩ <;> simp_all
    obtain ⟨c, hc⟩ := hcomponent
    exact ⟨[], c, by rw [hc]; rfl⟩
  · have hlength : (Text.join '/' (first :: (front ++ [s]))).length
        = 0 + first.length + 1 + (Text.join '/' (front ++ [s])).length := by
      rw [join_cons first (by simp), List.length_append, List.length_cons]
      omega
    obtain ⟨c, hc⟩ := exists_component? hs (Text.join '/' (first :: (front ++ [s]))).length
    rw [Path.measure_append_singleton, ← hlength, List.filterMap_append,
      List.filterMap_cons_some hc, List.filterMap_nil, ← List.append_assoc]
    exact ⟨_, c, rfl⟩

variable {p : Path} {init : List (List Char)} {last : List Char}

theorem ne_nil_of_segmentsOf {first : List Char} {more : List (List Char)}
    (hp : p.isAbsolute = false) (h : segmentsOf p = first :: more) (hmore : more ≠ []) :
    first ≠ [] := by
  rintro rfl
  have htext := join_pieces '/' p.text.toList
  rw [← segmentsOf, h, join_cons [] hmore] at htext
  simp [Path.isAbsolute, ← htext] at hp

/-- The directory of a file is where its way is up to the name of the file, save for segments that
stay there; it is empty if there are none in front of the name. -/
theorem exists_parent? (hp : p.isAbsolute = false) (h : segmentsOf p = init ++ [last])
    (hlast : isName last = true) :
    ∃ q front skips, p.parent? = some q ∧ init = front ++ skips ∧ (∀ s ∈ skips, IsSkip s) ∧
      (q.text = "" ∧ front = [] ∨ q.text ≠ "" ∧ segmentsOf q = front) := by
  have hpieces : pieces '/' p.text.toList = init ++ [last] := h
  cases init with
  | nil =>
    have hparent : p.parent? = some (p.take 0) := by
      simp [Path.parent?, Path.measured, hp, hpieces, Path.measure, component?_of_isName hlast]
    exact ⟨_, [], [], hparent, rfl, by simp, .inl ⟨rfl, rfl⟩⟩
  | cons first more =>
    have hfirst : first ≠ [] := ne_nil_of_segmentsOf hp h (by simp)
    obtain ⟨body, skips, rfl, hskips, hbody⟩ := exists_skips more
    obtain ⟨ms, c, hms⟩ := exists_measured_concat hfirst hbody
    obtain ⟨offset, hmeasure⟩ := exists_measure_append (0 + first.length + 1) body (skips ++ [last])
    have hnone := filterMap_measure_skips hskips offset
    have hmeasured : p.measured = ms ++ [(c, (Text.join '/' (first :: body)).length)]
        ++ [(.normal (String.ofList last), offset + (Text.join '/' (skips ++ [last])).length)] := by
      rw [← hms, Path.measured, hp, hpieces, List.cons_append, Path.measure]
      simp only [List.append_assoc, hmeasure, List.filterMap_append, Path.measure_append_singleton,
        hnone, List.filterMap_cons_some (component?_of_isName hlast _ _)]
      simp
    have hparent : p.parent? = some (p.take (Text.join '/' (first :: body)).length) := by
      rw [Path.parent?, hmeasured, List.reverse_append, List.reverse_append]
      rfl
    have hback : skips ++ [last] ≠ [] := by simp
    have hsegments := segmentsOf_take (List.cons_ne_nil first body) hback
      (h.trans (List.append_assoc (first :: body) skips [last]))
    refine ⟨_, first :: body, skips, hparent, rfl, hskips, .inr ⟨?_, hsegments⟩⟩
    intro hempty
    rw [segmentsOf, hempty] at hsegments
    exact hfirst (List.cons.inj hsegments).1.symm

end Parents

/-! ## Places of files -/

/-- The place of a file by its path, which ends with the name of the file. -/
def place? (p : Path) : Option (List String) :=
  if canFollow p && isName ((segmentsOf p).getLast?.getD []) then (segmentsOf p).foldlM move []
  else none

/-- The places above a file that its path leads through. -/
def above (p : Path) : List (List String) := passed [] (segmentsOf p).dropLast

theorem place?_eq_some_iff {p : Path} {v : List String} :
    place? p = some v ↔ canFollow p = true ∧ ∃ init last, segmentsOf p = init ++ [last] ∧
      isName last = true ∧ ∃ dir, init.foldlM move [] = some dir ∧ move dir last = some v := by
  rw [place?]
  obtain ⟨init, last, hsegments⟩ := (List.eq_nil_or_concat' (segmentsOf p)).resolve_left
    (pieces_ne_nil '/' _)
  constructor
  · intro h
    split at h
    · rename_i hp
      obtain ⟨hfollow, hlast⟩ := Bool.and_eq_true_iff.mp hp
      rw [hsegments, List.getLast?_concat, Option.getD_some] at hlast
      rw [hsegments, List.foldlM_append] at h
      obtain ⟨dir, hdir, hmove⟩ := Option.bind_eq_some_iff.mp h
      exact ⟨hfollow, init, last, hsegments, hlast, dir, hdir, by simpa using hmove⟩
    · simp at h
  · rintro ⟨hfollow, init, last, hsegments, hlast, dir, hdir, hmove⟩
    have hp : (canFollow p && isName ((segmentsOf p).getLast?.getD [])) = true := by
      rw [hsegments, List.getLast?_concat, Option.getD_some, hfollow, hlast]
      rfl
    rw [if_pos hp, hsegments, List.foldlM_append, hdir]
    simpa using hmove

/-- The way to the place of a file is there if all places above it are directories. -/
theorem way?_eq_some_iff_above {p : Path} {v w : List String} (hv : place? p = some v) :
    d.way? p = some w ↔ w = v ∧ ∀ u ∈ above p, d.spot? u = some .dir := by
  obtain ⟨hfollow, init, last, hsegments, hlast, dir, hdir, hmove⟩ := place?_eq_some_iff.mp hv
  have hempty : p.text ≠ "" := by
    intro hempty
    have hlast' : last = [] := by
      rw [segmentsOf, hempty] at hsegments
      simpa [pieces] using congrArg List.getLast? hsegments.symm
    simp [hlast', isName] at hlast
  rw [way?_eq hempty hfollow, follow, hsegments, List.foldlM_append, above, hsegments,
    List.dropLast_concat]
  constructor
  · intro h
    obtain ⟨dir', hdir', hrest⟩ := Option.bind_eq_some_iff.mp h
    obtain ⟨_, hstep, hw⟩ := Option.bind_eq_some_iff.mp hrest
    obtain rfl := Option.some.inj hw
    obtain ⟨hspot, hmove'⟩ := step_eq_some_iff.mp hstep
    obtain ⟨hmoves, hdirs⟩ := foldlM_step_iff.mp ⟨hdir', hspot⟩
    obtain rfl := Option.some.inj (hmoves.symm.trans hdir)
    exact ⟨Option.some.inj (hmove'.symm.trans hmove), hdirs⟩
  · rintro ⟨rfl, hdirs⟩
    obtain ⟨hdir', hspot⟩ := foldlM_step_iff.mpr ⟨hdir, hdirs⟩
    have hstep : d.step dir last = some w := step_eq_some_iff.mpr ⟨hspot, hmove⟩
    refine Option.bind_eq_some_iff.mpr ⟨dir, hdir', ?_⟩
    exact Option.bind_eq_some_iff.mpr ⟨w, hstep, rfl⟩

theorem spot?_nil (d : Disk) (h : d.CanBeDir []) : d.spot? [] = some .dir := by
  refine h.resolve_left fun hnone ↦ ?_
  simp [spot?, Node.get?] at hnone

/-- The directory of a file can be made if nothing but directories stands above the file. -/
theorem exists_makeDirs_parent? {p : Path} {v : List String} (hv : place? p = some v)
    (hfree : ∀ u ∈ above p, d.CanBeDir u) :
    ∃ made, d.makeDirs (p.parent?.getD ⟨""⟩) = some made ∧
      made.spot? = withDirs (above p) d.spot? := by
  obtain ⟨hfollow, init, last, hsegments, hlast, dir, hdir, -⟩ := place?_eq_some_iff.mp hv
  have hrelative : p.isAbsolute = false := by
    rw [canFollow] at hfollow
    simpa using (Bool.and_eq_true_iff.mp hfollow).1
  have habove : above p = passed [] init := by rw [above, hsegments, List.dropLast_concat]
  rw [habove] at hfree ⊢
  have htop : d.spot? [] = some .dir := spot?_nil d (hfree [] (mem_passed_start [] init))
  obtain ⟨q, front, skips, hparent, rfl, hskips, hq⟩ := exists_parent? hrelative hsegments hlast
  have hfront : front.foldlM move [] = some dir := by
    rw [List.foldlM_append] at hdir
    obtain ⟨dir', hdir', hrest⟩ := Option.bind_eq_some_iff.mp hdir
    rw [(foldlM_move_skips hskips).1] at hrest
    rw [hdir', Option.some.inj hrest]
  have hpassed (u : List String) : u ∈ passed [] (front ++ skips) ↔ u ∈ passed [] front :=
    mem_passed_append_skips hfront hskips
  have hwith : withDirs (passed [] (front ++ skips)) d.spot?
      = withDirs (passed [] front) d.spot? := by
    funext u
    simp only [withDirs, hpassed]
  rw [hparent, Option.getD_some, hwith]
  rcases hq with ⟨hempty, rfl⟩ | ⟨hne, hq⟩
  · refine ⟨d, by simp [makeDirs, hempty], ?_⟩
    exact (withDirs_of_forall (List.forall_mem_singleton.mpr htop)).symm
  · obtain ⟨n, rfl⟩ := exists_take_of_parent? hparent
    obtain ⟨made, hmade, hspot⟩ := exists_foldlM_makeStep hfront htop fun u hu ↦
      hfree u ((hpassed u).mpr hu)
    refine ⟨made, ?_, hspot⟩
    simp [makeDirs, hne, canFollow_take n hfollow, hq, hmade]

end FrontendSync.Disk
