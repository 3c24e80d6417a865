import FrontendSync.Proofs.Disk.Ways
import FrontendSync.Proofs.Lists
import FrontendSync.Proofs.Path.Names

/-!
# Entries and parents of paths

The path of an entry leads to the entry of what its directory's path leads to.  The path of a
file's directory needs no new directories where the file is reached.
-/

namespace FrontendSync.Disk

open Text

variable {d d' : Disk}

theorem way?_eq {p : Path} (hempty : p.text ≠ "") (hfollow : canFollow p = true) :
    d.way? p = d.follow (segmentsOf p) := by
  rw [way?]
  simp [hempty, hfollow]

theorem find?_eq_none {p : Path} (h : p.text = "" ∨ canFollow p = false) : d.find? p = none := by
  rw [find?, way?]
  rcases h with h | h <;> simp [h]

/-! ## Entries -/

/-- A name that an entry of a directory can have. -/
structure IsEntryName (name : String) : Prop where
  isName : isName name.toList = true
  noSeparator : '/' ∉ name.toList
  canName : canName name.toList = true

instance : DecidablePred IsEntryName := fun name ↦ decidable_of_iff
  (Disk.isName name.toList = true ∧ '/' ∉ name.toList ∧ Disk.canName name.toList = true)
  ⟨fun ⟨h₁, h₂, h₃⟩ ↦ ⟨h₁, h₂, h₃⟩, fun h ↦ ⟨h.isName, h.noSeparator, h.canName⟩⟩

section Join

variable {p : Path} {name : String}

theorem text_join (hp : p.text ≠ "") (hname : IsEntryName name) :
    (p.join ⟨name⟩).text.toList = p.text.toList ++
      (if p.text.toList.getLast? = some '/' then [] else ['/']) ++ name.toList := by
  have habsolute : (⟨name⟩ : Path).isAbsolute = false := by
    have hhead : name.toList.head? ≠ some '/' := fun h ↦
      hname.noSeparator (List.mem_of_mem_head? h)
    simpa [Path.isAbsolute] using hhead
  rw [Path.join, habsolute, Bool.false_or, beq_eq_false_iff_ne.mpr hp]
  by_cases hlast : p.text.toList.getLast? = some '/' <;> simp [hlast, String.toList_append]

theorem text_join_ne (hp : p.text ≠ "") (hname : IsEntryName name) : (p.join ⟨name⟩).text ≠ "" := by
  intro hempty
  have htext := text_join hp hname
  rw [hempty] at htext
  have hnil := (List.append_eq_nil_iff.mp (List.append_eq_nil_iff.mp htext.symm).1).1
  exact hp (String.toList_eq_nil_iff.mp hnil)

theorem exists_segmentsOf_join (hp : p.text ≠ "") (hname : IsEntryName name) :
    ∃ front, segmentsOf (p.join ⟨name⟩) = front ++ [name.toList] ∧
      (segmentsOf p = front ∨ segmentsOf p = front ++ [[]]) := by
  have hpieces := pieces_of_notMem hname.noSeparator
  rw [segmentsOf, text_join hp hname, segmentsOf]
  by_cases hlast : p.text.toList.getLast? = some '/'
  · obtain ⟨front, hfront⟩ := List.getLast?_eq_some_iff.mp hlast
    refine ⟨pieces '/' front, ?_, .inr ?_⟩
    · rw [if_pos hlast, List.append_nil, hfront, List.append_assoc, List.singleton_append,
        pieces_append_cons, hpieces]
    · rw [hfront, pieces_append_cons]
      rfl
  · refine ⟨pieces '/' p.text.toList, ?_, .inl rfl⟩
    rw [if_neg hlast, List.append_assoc, List.singleton_append, pieces_append_cons, hpieces]

theorem isAbsolute_join (hp : p.text ≠ "") (hname : IsEntryName name) :
    (p.join ⟨name⟩).isAbsolute = p.isAbsolute := by
  have hne : p.text.toList ≠ [] := mt String.toList_eq_nil_iff.mp hp
  rw [Path.isAbsolute, Path.isAbsolute, text_join hp hname, List.append_assoc,
    List.head?_append_of_ne_nil _ hne]

theorem canFollow_of_join (hp : p.text ≠ "") (hname : IsEntryName name)
    (h : canFollow (p.join ⟨name⟩) = true) : canFollow p = true := by
  have htext := text_join hp hname
  have hsize : p.text.utf8ByteSize ≤ (p.join ⟨name⟩).text.utf8ByteSize := by
    rw [← String.ofList_toList (s := (p.join ⟨name⟩).text), htext, String.ofList_append,
      String.ofList_append, String.ofList_toList, String.utf8ByteSize_append,
      String.utf8ByteSize_append]
    omega
  rw [canFollow, isAbsolute_join hp hname] at h
  rw [canFollow]
  simp only [Bool.and_eq_true, decide_eq_true_eq] at h ⊢
  exact ⟨h.1, by omega⟩

theorem step_name (hname : IsEntryName name) (names : List String) :
    d.step names name.toList
      = if d.spot? names = some .dir then some (names ++ [name]) else none := by
  have hisName := hname.isName
  rw [isName] at hisName
  simp only [Bool.and_eq_true, decide_eq_true_eq] at hisName
  have hmove : move names name.toList = some (names ++ [name]) := by
    rw [move, hname.canName, if_pos rfl, String.ofList_toList]
    · exact hisName.1.1
    · exact hisName.1.2
    · exact hisName.2
  rw [step_eq, hmove]

theorem bind_child?_eq_none {names : List String} (h : d.spot? names ≠ some .dir) :
    (d.top.get? names).bind (·.child? name) = none := by
  cases hget : d.top.get? names with
  | none => rfl
  | some n =>
    rw [Option.bind_some, Node.child?, entries_eq_nil_of_spot? h n hget]
    rfl

/-- The path of an entry leads to the entry. -/
theorem find?_join (hp : p.text ≠ "") (hname : IsEntryName name) :
    d.find? (p.join ⟨name⟩)
      = if canFollow (p.join ⟨name⟩) = true then (d.find? p).bind (·.child? name) else none := by
  split
  · rename_i hfollow
    obtain ⟨front, hfront, hp'⟩ := exists_segmentsOf_join hp hname
    rw [find?, find?, way?_eq (text_join_ne hp hname) hfollow,
      way?_eq hp (canFollow_of_join hp hname hfollow), hfront, follow, List.foldlM_append, follow]
    cases hnames : front.foldlM d.step [] with
    | none => rcases hp' with hp' | hp' <;> simp [hp', List.foldlM_append, hnames]
    | some names =>
      have hentry : (do let w ← d.step names name.toList; d.top.get? w)
          = (d.top.get? names).bind (·.child? name) := by
        rw [step_name hname]
        split
        · rw [Option.bind_eq_bind, Option.bind_some, Node.get?_append]
          exact congrArg _ (funext fun n ↦ n.get?_singleton name)
        · rename_i hdir
          exact (bind_child?_eq_none hdir).symm
      rcases hp' with hp' | hp'
      · simpa [hp', hnames] using hentry
      · -- a separator at the end of the directory's path asks for a directory
        have hlast : d.step names [] = if d.spot? names = some .dir then some names else none :=
          step_eq d names []
        by_cases hdir : d.spot? names = some .dir
        · simpa [hp', List.foldlM_append, hnames, hlast, hdir] using hentry
        · rw [bind_child?_eq_none hdir] at hentry
          simpa [hp', List.foldlM_append, hnames, hlast, hdir] using hentry
  · rename_i hfollow
    exact find?_eq_none (.inr (by simpa using hfollow))

theorem find?_join_congr (hp : p.text ≠ "") (hname : IsEntryName name)
    (h : d'.find? p = d.find? p) : d'.find? (p.join ⟨name⟩) = d.find? (p.join ⟨name⟩) := by
  rw [find?_join hp hname, find?_join hp hname, h]

end Join

/-! ## Components -/

section Components

open Path (Component component?)

/-- The component that a segment stands for. -/
def componentOf (first : Bool) (segment : List Char) : Option Component :=
  (component? first ⟨segment, 0⟩).map Prod.fst

theorem map_fst_component? (first : Bool) (s : Path.Segment) :
    (component? first s).map Prod.fst = componentOf first s.name := by
  rw [componentOf]
  fun_cases component? first s <;> simp_all [component?]

theorem map_fst_filterMap_measure (offset : Nat) (segments : List (List Char)) :
    ((Path.measure offset segments).filterMap (component? false)).map Prod.fst
      = segments.filterMap (componentOf false) := by
  induction segments generalizing offset with
  | nil => rfl
  | cons s segments ih =>
    rw [Path.measure, List.filterMap_cons, List.filterMap_cons, ← map_fst_component? false ⟨s, _⟩]
    cases component? false ⟨s, offset + s.length⟩ with
    | none => exact ih _
    | some c => exact congrArg (c.1 :: ·) (ih _)

theorem components_eq {p : Path} {first : List Char} {more : List (List Char)}
    (h : segmentsOf p = first :: more) :
    p.components = (if p.isAbsolute then [.root] else []) ++ (componentOf true first).toList
      ++ more.filterMap (componentOf false) := by
  rw [segmentsOf] at h
  simp only [Path.components, Path.measured, h, Path.measure, List.map_append,
    map_fst_filterMap_measure]
  rw [← map_fst_component? true ⟨first, _⟩]
  cases component? true ⟨first, 0 + first.length⟩ <;> cases p.isAbsolute <;> rfl

theorem IsEntryName.isPathName {name : String} (h : IsEntryName name) : Path.IsName name := by
  have hname : name.toList ≠ [] ∧ name.toList ≠ ['.'] ∧ name.toList ≠ ['.', '.'] := by
    simpa [Disk.isName, and_assoc] using h.isName
  obtain ⟨hempty, hdot, hdots⟩ := hname
  refine ⟨?_, ?_, ?_, h.noSeparator⟩
  · rintro rfl
    exact hempty rfl
  · rintro rfl
    exact hdot rfl
  · rintro rfl
    exact hdots rfl

/-- The path of an entry has the name of the entry as one more component. -/
theorem components_join {p : Path} {name : String} (hp : p.text ≠ "") (hname : IsEntryName name) :
    (p.join ⟨name⟩).components = p.components ++ [.normal name] := by
  have hlast : componentOf false name.toList = some (.normal name) := by
    rw [componentOf, Path.component?_of_isName hname.isPathName, Option.map_some]
  obtain ⟨front, hfront, hp'⟩ := exists_segmentsOf_join hp hname
  cases front with
  | nil =>
    -- the path would be empty
    have hsegments : segmentsOf p = [[]] := hp'.resolve_left (pieces_ne_nil '/' _)
    have htext := join_pieces '/' p.text.toList
    rw [← segmentsOf, hsegments] at htext
    exact absurd (String.toList_eq_nil_iff.mp htext.symm) hp
  | cons first more =>
    have hcomponents : p.components = (if p.isAbsolute then [.root] else [])
        ++ (componentOf true first).toList ++ more.filterMap (componentOf false) := by
      rcases hp' with hp' | hp'
      · exact components_eq hp'
      · -- a separator at the end adds no component
        rw [List.cons_append] at hp'
        rw [components_eq hp', List.filterMap_append]
        exact congrArg _ (List.append_nil _)
    rw [List.cons_append] at hfront
    rw [components_eq hfront, isAbsolute_join hp hname, hcomponents, List.filterMap_append,
      List.filterMap_cons_some hlast, List.filterMap_nil, ← List.append_assoc]

end Components

/-! ## Parents -/

/-- A segment before the last one stops where the text of the segments up to it does. -/
theorem exists_of_mem_dropLast_measure {offset stop : Nat} {segments : List (List Char)}
    (h : stop ∈ ((Path.measure offset segments).map Path.Segment.stop).dropLast) :
    ∃ front back, segments = front ++ back ∧ front ≠ [] ∧ back ≠ [] ∧
      stop = offset + (Text.join '/' front).length := by
  induction segments generalizing offset with
  | nil => simp [Path.measure] at h
  | cons s segments ih =>
    cases segments with
    | nil => simp [Path.measure] at h
    | cons t segments =>
      rw [Path.measure, Path.measure, List.map_cons, List.map_cons, List.dropLast_cons_cons] at h
      rcases List.mem_cons.mp h with rfl | h
      · exact ⟨[s], t :: segments, rfl, by simp, by simp, rfl⟩
      · obtain ⟨front, back, hsegments, hfront, hback, rfl⟩ := ih h
        refine ⟨s :: front, back, by rw [hsegments]; rfl, by simp, hback, ?_⟩
        rw [join_cons s hfront, List.length_append, List.length_cons]
        omega

theorem snd_of_component? {first : Bool} {s : Path.Segment} {c : Path.Component × Nat}
    (h : Path.component? first s = some c) : c.2 = s.stop := by
  revert h
  fun_cases Path.component? first s <;> simp
  all_goals rintro rfl; rfl

theorem map_snd_filterMap_sublist (first : Bool) (segments : List Path.Segment) :
    ((segments.filterMap (Path.component? first)).map Prod.snd).Sublist
      (segments.map Path.Segment.stop) := by
  induction segments with
  | nil => exact .slnil
  | cons s segments ih =>
    rw [List.filterMap_cons, List.map_cons]
    cases hc : Path.component? first s with
    | none => exact ih.cons _
    | some c =>
      simp only [List.map_cons]
      rw [snd_of_component? hc]
      exact ih.cons_cons _

theorem map_snd_measured_sublist {p : Path} (h : p.isAbsolute = false) :
    (p.measured.map Prod.snd).Sublist
      ((Path.measure 0 (segmentsOf p)).map Path.Segment.stop) := by
  rw [Path.measured, segmentsOf, h]
  cases Path.measure 0 (pieces '/' p.text.toList) with
  | nil => exact .slnil
  | cons s more =>
    have hfirst := map_snd_filterMap_sublist true [s]
    have htoList : [s].filterMap (Path.component? true) = (Path.component? true s).toList := by
      cases hc : Path.component? true s <;> simp [hc]
    rw [htoList] at hfirst
    simpa using hfirst.append (map_snd_filterMap_sublist false more)

/-- A path that is cut off behind some of its segments has these segments. -/
theorem segmentsOf_take {p : Path} {front back : List (List Char)} (hfront : front ≠ [])
    (hback : back ≠ []) (h : segmentsOf p = front ++ back) :
    segmentsOf (p.take (Text.join '/' front).length) = front := by
  have hchars : p.text.toList = Text.join '/' front ++ '/' :: Text.join '/' back := by
    rw [← join_append hfront hback, ← h, segmentsOf, join_pieces]
  have hfree : ∀ s ∈ front, '/' ∉ s := by
    intro s hs
    refine notMem_of_mem_pieces (s := p.text.toList) ?_
    rw [← segmentsOf, h]
    exact List.mem_append_left back hs
  rw [segmentsOf, Path.take, String.toList_ofList, hchars, List.take_left,
    pieces_join hfront hfree]

/-- The segments of a parent are the first ones of its file. -/
theorem segmentsOf_parent? {p q : Path} (h : canFollow p = true) (hq : p.parent? = some q) :
    q.text = "" ∨ ∃ back, back ≠ [] ∧ segmentsOf p = segmentsOf q ++ back := by
  have hrelative : p.isAbsolute = false := by
    rw [canFollow] at h
    simpa using (Bool.and_eq_true_iff.mp h).1
  rw [Path.parent?] at hq
  split at hq
  · simp at hq
  · simp at hq
  · obtain rfl := Option.some.inj hq
    exact .inl rfl
  · rename_i last _ stop rest _ hreverse
    obtain rfl := Option.some.inj hq
    have hpair : [stop, last.2].Sublist (p.measured.map Prod.snd) := by
      rw [List.reverse_eq_cons_iff.mp hreverse, List.reverse_cons]
      simp
    obtain ⟨front, back, hsegments, hfront, hback, rfl⟩ := exists_of_mem_dropLast_measure
      (mem_dropLast_of_sublist (hpair.trans (map_snd_measured_sublist hrelative)))
    refine .inr ⟨back, hback, ?_⟩
    rw [Nat.zero_add, segmentsOf_take hfront hback hsegments, hsegments]

theorem canFollow_take {p : Path} (n : Nat) (h : canFollow p = true) :
    canFollow (p.take n) = true := by
  have hsize : (p.take n).text.utf8ByteSize ≤ p.text.utf8ByteSize := by
    have hsplit : p.text = String.ofList (p.text.toList.take n)
        ++ String.ofList (p.text.toList.drop n) := by
      rw [← String.ofList_append, List.take_append_drop, String.ofList_toList]
    conv_rhs => rw [hsplit, String.utf8ByteSize_append]
    exact Nat.le_add_right _ _
  simp only [canFollow, Bool.and_eq_true, decide_eq_true_eq, Bool.not_eq_true'] at h ⊢
  exact ⟨Path.isAbsolute_take h.1 n, by omega⟩

theorem spot?_of_foldlM_step {segments : List (List Char)} {names u : List String}
    (h : segments.foldlM d.step names = some u) (hu : d.spot? u = some .dir) :
    d.spot? names = some .dir := by
  cases segments with
  | nil => exact Option.some.inj h ▸ hu
  | cons segment segments =>
    obtain ⟨_, hstep, -⟩ := Option.bind_eq_some_iff.mp h
    exact (step_eq_some_iff.mp hstep).1

theorem foldlM_makeStep {segments : List (List Char)} {names u : List String}
    (h : segments.foldlM d.step names = some u) (hu : d.spot? u = some .dir) :
    segments.foldlM makeStep (d, names) = some (d, u) := by
  induction segments generalizing names with
  | nil => exact Option.some.inj h ▸ rfl
  | cons segment segments ih =>
    obtain ⟨names', hstep, hrest⟩ := Option.bind_eq_some_iff.mp h
    obtain ⟨es, hdir⟩ := spot?_eq_dir_iff.mp (spot?_of_foldlM_step hrest hu)
    refine Option.bind_eq_some_iff.mpr ⟨(d, names'), ?_, ih hrest⟩
    rw [makeStep, hstep, Option.bind_some, hdir]

theorem exists_take_of_parent? {p q : Path} (h : p.parent? = some q) : ∃ n, q = p.take n := by
  rw [Path.parent?] at h
  split at h
  · simp at h
  · simp at h
  · exact ⟨0, (Option.some.inj h).symm⟩
  · exact ⟨_, (Option.some.inj h).symm⟩

/-- The directories of a file that is reached are there. -/
theorem makeDirs_parent {p : Path} {u : List String} (h : d.way? p = some u) :
    d.makeDirs (p.parent?.getD ⟨""⟩) = some d := by
  obtain ⟨-, hfollow, hu⟩ := way?_eq_some_iff.mp h
  cases hq : p.parent? with
  | none => rfl
  | some q =>
    have hfollow' : canFollow q = true := by
      obtain ⟨n, rfl⟩ := exists_take_of_parent? hq
      exact canFollow_take n hfollow
    rw [Option.getD_some, makeDirs, hfollow']
    rcases segmentsOf_parent? hfollow hq with hempty | ⟨back, hback, hsegments⟩
    · simp [hempty]
    · rw [hsegments, follow, List.foldlM_append] at hu
      obtain ⟨w, hw, hrest⟩ := Option.bind_eq_some_iff.mp hu
      have hdir : d.spot? w = some .dir := by
        cases back with
        | nil => exact absurd rfl hback
        | cons segment back =>
          obtain ⟨_, hstep, -⟩ := Option.bind_eq_some_iff.mp hrest
          exact (step_eq_some_iff.mp hstep).1
      rw [foldlM_makeStep hw hdir]
      simp

end FrontendSync.Disk
