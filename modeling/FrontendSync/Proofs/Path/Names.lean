import Mathlib.Data.List.Basic
import FrontendSync.Path.Relative
import FrontendSync.Proofs.Text.Pieces

/-!
# Paths of names

Relative paths that climb nowhere: their components are names.  So are those of the directory of
such a path, and those of the path without the extension of its last name as long as a name is left
of it.
-/

namespace FrontendSync.Path

open Text

/-! ## Names -/

/-- A name of a component. -/
structure IsName (name : String) : Prop where
  ne_empty : name ≠ ""
  ne_dot : name ≠ "."
  ne_dots : name ≠ ".."
  noSeparator : '/' ∉ name.toList

theorem component?_of_isName {name : String} (h : IsName name) (first : Bool) (stop : Nat) :
    component? first ⟨name.toList, stop⟩ = some (.normal name, stop) := by
  have hne (other : String) (hother : name ≠ other) : name.toList ≠ other.toList :=
    fun heq ↦ hother (String.toList_injective heq)
  rw [component?]
  split
  · rename_i heq
    exact absurd heq (hne "" h.ne_empty)
  · rename_i heq
    exact absurd heq (hne "." h.ne_dot)
  · rename_i heq
    exact absurd heq (hne ".." h.ne_dots)
  · rw [String.ofList_toList]

/-- A segment that is a name and not a part of the syntax. -/
theorem isName_of_component? {first : Bool} {s : Segment} {name : String} {stop : Nat}
    (h : component? first s = some (.normal name, stop)) (hs : '/' ∉ s.name) :
    IsName name ∧ s.name = name.toList ∧ s.stop = stop := by
  revert h
  fun_cases component? first s with
  | case1 => simp
  | case2 => simp
  | case3 => simp
  | case4 => simp
  | case5 hempty hdot hdots =>
    intro h
    obtain ⟨hname, rfl⟩ := Prod.mk.inj (Option.some.inj h)
    obtain rfl := Component.normal.inj hname
    rw [String.toList_ofList]
    refine ⟨⟨?_, ?_, ?_, by rwa [String.toList_ofList]⟩, rfl, rfl⟩
    · exact fun heq ↦ hempty (String.ofList_eq_empty_iff.mp heq)
    · exact fun heq ↦ hdot (by simpa using congrArg String.toList heq)
    · exact fun heq ↦ hdots (by simpa using congrArg String.toList heq)

/-! ## Segments -/

theorem exists_of_measure_eq {offset : Nat} {segments : List (List Char)}
    {front back : List Segment} {s : Segment} (h : measure offset segments = front ++ s :: back) :
    ∃ before behind, segments = before ++ s.name :: behind ∧ front = measure offset before ∧
      s.stop = offset + (Text.join '/' (before ++ [s.name])).length := by
  induction front generalizing offset segments with
  | nil =>
    cases segments with
    | nil => simp [measure] at h
    | cons t segments =>
      obtain ⟨rfl, -⟩ := List.cons.inj h
      exact ⟨[], segments, rfl, rfl, rfl⟩
  | cons r front ih =>
    cases segments with
    | nil => simp [measure] at h
    | cons t segments =>
      obtain ⟨rfl, hrest⟩ := List.cons.inj h
      obtain ⟨before, behind, rfl, rfl, hstop⟩ := ih hrest
      refine ⟨t :: before, behind, rfl, rfl, ?_⟩
      rw [hstop, List.cons_append, join_cons t (by simp)]
      simp only [List.length_append, List.length_cons]
      omega

theorem measure_append_singleton (offset : Nat) (segments : List (List Char)) (s : List Char) :
    measure offset (segments ++ [s]) = measure offset segments
      ++ [⟨s, offset + (Text.join '/' (segments ++ [s])).length⟩] := by
  induction segments generalizing offset with
  | nil => rfl
  | cons t segments ih =>
    have hlength : offset + t.length + 1 + (Text.join '/' (segments ++ [s])).length
        = offset + (Text.join '/' (t :: (segments ++ [s]))).length := by
      rw [join_cons t (by simp), List.length_append, List.length_cons]
      omega
    rw [List.cons_append, measure, ih, hlength]
    rfl

/-- A path without a root or a dot at its start. -/
structure IsPlain (p : Path) : Prop where
  relative : p.isAbsolute = false
  noDot : (pieces '/' p.text.toList).head? ≠ some ['.']

theorem IsPlain.measured_eq {p : Path} (h : IsPlain p) :
    p.measured = (measure 0 (pieces '/' p.text.toList)).filterMap (component? false) := by
  have hdot := h.noDot
  rw [measured, h.relative]
  cases hpieces : pieces '/' p.text.toList with
  | nil => rfl
  | cons s more =>
    have hs : s ≠ ['.'] := by simpa [hpieces] using hdot
    have hfirst (stop : Nat) : component? true ⟨s, stop⟩ = component? false ⟨s, stop⟩ := by
      rw [component?, component?]
      split <;> simp_all
    simp only [measure, hfirst]
    rw [List.filterMap_cons]
    cases component? false ⟨s, 0 + s.length⟩ <;> rfl

/-- A path with names only is plain. -/
theorem isPlain_of_components {p : Path} {names : List String}
    (h : p.components = names.map .normal) : IsPlain p := by
  have hnormal : ∀ c ∈ p.components, ∃ name, c = .normal name := by
    intro c hc
    rw [h] at hc
    obtain ⟨name, -, rfl⟩ := List.mem_map.mp hc
    exact ⟨name, rfl⟩
  rw [components, measured] at hnormal
  constructor
  · refine Bool.eq_false_iff.mpr fun habsolute ↦ ?_
    rw [habsolute] at hnormal
    split at hnormal
    · simpa using hnormal .root (by simp)
    · simpa using hnormal .root (by simp)
  · intro hdot
    obtain ⟨more, hpieces⟩ := List.head?_eq_some_iff.mp hdot
    rw [hpieces, measure] at hnormal
    simpa [component?] using hnormal .current (by simp [component?])

theorem isAbsolute_take {p : Path} (h : p.isAbsolute = false) (n : Nat) :
    (p.take n).isAbsolute = false := by
  simp only [isAbsolute, take, String.toList_ofList, beq_eq_false_iff_ne] at h ⊢
  cases n with
  | zero => simp
  | succ n => simpa [List.head?_take] using h

section Measured

variable {p : Path} {front back : List (Component × Nat)} {name : String} {stop : Nat}

/-- A name among the components is a segment, and its components end where the segment does. -/
theorem IsPlain.exists_of_measured_eq (h : IsPlain p)
    (hmeasured : p.measured = front ++ (.normal name, stop) :: back) :
    IsName name ∧ ∃ before behind, pieces '/' p.text.toList = before ++ name.toList :: behind ∧
      (measure 0 before).filterMap (component? false) = front ∧
      stop = (Text.join '/' (before ++ [name.toList])).length := by
  rw [h.measured_eq, List.filterMap_eq_append_iff] at hmeasured
  obtain ⟨left, right, hmeasure, hleft, hright⟩ := hmeasured
  obtain ⟨skipped, s, right, rfl, hskipped, hs, -⟩ := List.filterMap_eq_cons_iff.mp hright
  rw [← List.append_assoc] at hmeasure
  obtain ⟨before, behind, hpieces, hbefore, hstop⟩ := exists_of_measure_eq hmeasure
  have hfree : '/' ∉ s.name := by
    refine notMem_of_mem_pieces (s := p.text.toList) ?_
    rw [hpieces]
    exact List.mem_append_right before List.mem_cons_self
  obtain ⟨hname, hsname, rfl⟩ := isName_of_component? hs hfree
  rw [hsname] at hpieces hstop
  refine ⟨hname, before, behind, hpieces, ?_, by rw [hstop, Nat.zero_add]⟩
  rw [← hbefore, List.filterMap_append, hleft, List.filterMap_eq_nil_iff.mpr hskipped,
    List.append_nil]

theorem IsPlain.length_le_of_measured_eq (h : IsPlain p)
    (hmeasured : p.measured = front ++ (.normal name, stop) :: back) : name.length ≤ stop := by
  obtain ⟨-, before, -, -, -, rfl⟩ := h.exists_of_measured_eq hmeasured
  rw [join_append_eq_flatMap before (by simp), List.length_append, Text.join, String.length_toList]
  exact Nat.le_add_left _ _

/-- A path that is cut off behind a name or inside of it ends with what is left of the name. -/
theorem IsPlain.components_take (h : IsPlain p)
    (hmeasured : p.measured = front ++ (.normal name, stop) :: back) {n : Nat}
    (hn : n ≤ name.length) {short : String} (hshort : short.toList = name.toList.take n)
    (hname : IsName short) :
    (p.take (stop - name.length + n)).components = front.map Prod.fst ++ [.normal short] := by
  obtain ⟨-, before, behind, hpieces, hfront, hstop⟩ := h.exists_of_measured_eq hmeasured
  -- the text up to the end of what is left of the name
  have htext (qs : List (List Char)) (h : qs ≠ []) := join_append_eq_flatMap (c := '/') before h
  generalize before.flatMap (· ++ ['/']) = text at htext
  have hsize : name.toList.length = name.length := String.length_toList
  have hchars : p.text.toList = text ++ (name.toList ++ behind.flatMap ('/' :: ·)) := by
    rw [← join_pieces '/' p.text.toList, hpieces, htext _ (by simp), join_cons_eq_flatMap]
  have hlength : stop = text.length + name.length := by
    rw [hstop, htext _ (by simp), List.length_append, Text.join, hsize]
  have htake : (p.take (stop - name.length + n)).text.toList
      = Text.join '/' (before ++ [short.toList]) := by
    rw [take, String.toList_ofList, htext _ (by simp), hchars, hlength, Nat.add_sub_cancel,
      List.take_length_add_append, List.take_append_of_le_length (hsize ▸ hn), hshort]
    rfl
  have hshorter : pieces '/' (p.take (stop - name.length + n)).text.toList
      = before ++ [short.toList] := by
    rw [htake, pieces_join (by simp)]
    intro t ht
    rcases List.mem_append.mp ht with ht | ht
    · refine notMem_of_mem_pieces (s := p.text.toList) ?_
      rw [hpieces]
      exact List.mem_append_left _ ht
    · rw [List.mem_singleton.mp ht]
      exact hname.noSeparator
  have hplain : IsPlain (p.take (stop - name.length + n)) := by
    refine ⟨isAbsolute_take h.relative _, ?_⟩
    rw [hshorter]
    cases before with
    | nil =>
      intro hdot
      exact hname.ne_dot (String.toList_injective (by simpa using hdot))
    | cons t before => simpa [hpieces] using h.noDot
  rw [components, hplain.measured_eq, hshorter, measure_append_singleton, List.filterMap_append,
    hfront, List.filterMap_cons, component?_of_isName hname]
  simp

end Measured

/-! ## Directories and extensions -/

section Parts

variable {p : Path} {names : List String}

theorem exists_measured_eq {front : List String} {name : String} {back : List String}
    (h : p.components = (front ++ name :: back).map .normal) :
    ∃ ms stop more, p.measured = ms ++ (.normal name, stop) :: more ∧
      ms.map Prod.fst = front.map .normal ∧ more.map Prod.fst = back.map .normal := by
  rw [components, List.map_append, List.map_eq_append_iff] at h
  obtain ⟨ms, more, hmeasured, hfront, hmore⟩ := h
  obtain ⟨⟨_, stop⟩, more, rfl, rfl, hback⟩ := List.map_eq_cons_iff.mp hmore
  exact ⟨ms, stop, more, hmeasured, hfront, hback⟩

theorem isName_of_components (h : p.components = names.map .normal) : ∀ n ∈ names, IsName n := by
  intro n hn
  obtain ⟨front, back, rfl⟩ := List.append_of_mem hn
  obtain ⟨ms, stop, more, hmeasured, -, -⟩ := exists_measured_eq h
  exact ((isPlain_of_components h).exists_of_measured_eq hmeasured).1

/-- The directory of a path has all its names but the last; that of a path without names is the
dot. -/
theorem components_parent? (h : p.components = names.map .normal) :
    (p.parent?.getD ⟨"."⟩).isAbsolute = false ∧
      (p.parent?.getD ⟨"."⟩).components
        = if names = [] then [.current] else names.dropLast.map .normal := by
  have hplain := isPlain_of_components h
  rcases List.eq_nil_or_concat' names with rfl | ⟨front, last, rfl⟩
  · have hmeasured : p.measured = [] := List.map_eq_nil_iff.mp h
    have hparent : p.parent? = none := by rw [parent?, hmeasured]; rfl
    rw [hparent]
    exact ⟨rfl, rfl⟩
  · rw [if_neg (by simp), List.dropLast_concat]
    rcases List.eq_nil_or_concat' front with rfl | ⟨above, dir, rfl⟩
    · obtain ⟨ms, stop, more, hmeasured, hms, hmore⟩ := exists_measured_eq h
      obtain rfl := List.map_eq_nil_iff.mp hms
      obtain rfl := List.map_eq_nil_iff.mp hmore
      have hparent : p.parent? = some (p.take 0) := by rw [parent?, hmeasured]; rfl
      rw [hparent]
      exact ⟨isAbsolute_take hplain.relative 0, rfl⟩
    · rw [List.append_assoc] at h
      obtain ⟨ms, stop, more, hmeasured, hms, hmore⟩ := exists_measured_eq h
      have hdir := isName_of_components h dir (by simp)
      obtain ⟨⟨_, _⟩, rfl, rfl⟩ := List.map_eq_singleton_iff.mp hmore
      have hparent : p.parent? = some (p.take stop) := by
        rw [parent?, hmeasured, List.reverse_append]
        rfl
      have hwhole : dir.toList = dir.toList.take dir.length := by
        rw [← String.length_toList, List.take_length]
      have htake := hplain.components_take hmeasured (Nat.le_refl _) hwhole hdir
      rw [Nat.sub_add_cancel (hplain.length_le_of_measured_eq hmeasured)] at htake
      rw [hparent, Option.getD_some, htake, hms, List.map_append]
      exact ⟨isAbsolute_take hplain.relative stop, rfl⟩

/-- A file name and what is left of it without its last extension.  A dot at the start of the name
begins no extension. -/
inductive IsStem : List Char → List Char → Prop
  | extended {stem extension : List Char} : stem ≠ [] → '.' ∉ extension →
      IsStem (stem ++ '.' :: extension) stem
  | plain {name : List Char} : '.' ∉ name.tail → IsStem name name

theorem exists_isStem {file : List Char} (h : file ≠ []) : ∃ stem, IsStem file stem := by
  obtain ⟨c, cs, rfl⟩ := List.exists_cons_of_ne_nil h
  by_cases hdot : '.' ∈ cs
  · obtain ⟨extension, stem, hcs, hfree⟩ := List.eq_append_cons_of_mem (List.mem_reverse.mpr hdot)
    have hfile : c :: cs = (c :: stem.reverse) ++ '.' :: extension.reverse := by
      rw [List.reverse_eq_iff.mp hcs]
      simp
    rw [hfile]
    exact ⟨_, .extended (by simp) (mt List.mem_reverse.mp hfree)⟩
  · exact ⟨_, .plain hdot⟩

theorem IsStem.prefix_of {file stem : List Char} (h : IsStem file stem) : stem <+: file := by
  cases h with
  | extended => exact List.prefix_append _ _
  | plain => exact List.prefix_refl _

/-- What is left of a file name is a name if it is not only dots. -/
theorem IsStem.isName {file stem : String} (h : IsStem file.toList stem.toList)
    (hfile : IsName file) (hdot : stem ≠ ".") (hdots : stem ≠ "..") : IsName stem := by
  refine ⟨?_, hdot, hdots, fun hmem ↦ hfile.noSeparator (h.prefix_of.subset hmem)⟩
  rintro rfl
  generalize hfile' : file.toList = cs, hempty : "".toList = ds at h
  cases h with
  | extended hne => exact hne hempty.symm
  | plain => exact hfile.ne_empty (String.toList_injective (hfile'.trans hempty.symm))

theorem splitName_fst {file stem : String} (h : IsStem file.toList stem.toList) :
    (splitName file).1 = stem := by
  rw [splitName]
  generalize hfile : file.toList = cs, hstem : stem.toList = ds at h
  cases h with
  | @extended ds extension hne hfree =>
    have hafter : ((ds ++ '.' :: extension).reverse.takeWhile (· ≠ '.')).reverse = extension := by
      have hreverse : ∀ c ∈ extension.reverse, decide (c ≠ '.') = true := by
        intro c hc
        have hc' : c ∈ extension := List.mem_reverse.mp hc
        exact decide_eq_true fun hdot ↦ hfree (hdot ▸ hc')
      rw [List.reverse_append, List.reverse_cons, List.append_assoc, List.singleton_append,
        List.takeWhile_append_of_pos hreverse]
      simp
    have hbefore : ((ds ++ '.' :: extension).take
        ((ds ++ '.' :: extension).length - extension.length)).dropLast = ds := by
      have hsplit : ds ++ '.' :: extension = ds ++ ['.'] ++ extension := by simp
      rw [hsplit, List.length_append, Nat.add_sub_cancel, List.take_left, List.dropLast_concat]
    simp only [hafter, hbefore, if_neg hne]
    rw [← hstem, String.ofList_toList]
  | plain hfree =>
    have hsame : file = stem := String.toList_injective (hfile.trans hstem.symm)
    have hbefore : (cs.take (cs.length - (cs.reverse.takeWhile (· ≠ '.')).reverse.length)).dropLast
        = [] := by
      cases cs with
      | nil => rfl
      | cons c cs =>
        have hreverse : ∀ d ∈ cs.reverse, decide (d ≠ '.') = true := by
          intro d hd
          have hd' : d ∈ cs := List.mem_reverse.mp hd
          exact decide_eq_true fun hdot ↦ hfree (hdot ▸ hd')
        rw [List.reverse_cons, List.takeWhile_append_of_pos hreverse]
        by_cases hc : c = '.' <;> simp [hc]
    simp only [hbefore, if_true, hsame]

/-- Every file name has a stem, and it is the one in front of the last dot. -/
theorem isStem_splitName {file : String} (h : file ≠ "") :
    IsStem file.toList (splitName file).1.toList := by
  obtain ⟨stem, hstem⟩ := exists_isStem (mt String.toList_eq_nil_iff.mp h)
  have hsame : IsStem file.toList (String.ofList stem).toList := by rwa [String.toList_ofList]
  rwa [splitName_fst hsame]

/-- The path without its extension has the names of the path, the last one without its extension as
long as that is a name. -/
theorem components_dropExtension {file stem : String}
    (h : p.components = (names ++ [file]).map .normal) (hstem : IsStem file.toList stem.toList)
    (hname : IsName stem) :
    p.dropExtension.isAbsolute = false ∧
      p.dropExtension.components = (names ++ [stem]).map .normal := by
  have hplain := isPlain_of_components h
  obtain ⟨ms, stop, more, hmeasured, hms, hmore⟩ := exists_measured_eq h
  obtain rfl := List.map_eq_nil_iff.mp hmore
  have hlast : p.measured.getLast? = some (.normal file, stop) := by simp [hmeasured]
  have hprefix := hstem.prefix_of
  have hn : stem.length ≤ file.length := by
    rw [← String.length_toList, ← String.length_toList]
    exact hprefix.length_le
  have hshort : stem.toList = file.toList.take stem.length := by
    rw [← String.length_toList]
    exact List.prefix_iff_eq_take.mp hprefix
  have hdrop : p.dropExtension = p.take (stop - file.length + stem.length) := by
    rw [dropExtension, hlast]
    simp only [splitName_fst hstem]
    rw [if_neg fun hdot ↦ hname.ne_dot hdot.1]
  rw [hdrop]
  refine ⟨isAbsolute_take hplain.relative _, ?_⟩
  rw [hplain.components_take hmeasured hn hshort hname, hms, List.map_append]
  rfl

end Parts

end FrontendSync.Path
