import FrontendSync.Module.Specifier
import FrontendSync.Proofs.Path.Relative

/-!
# Where specifiers lead

A relative specifier is followed segment by segment from the directory of the module that has it.
It leads to the module it was made for unless a name on the way is not what it is as text: a name
with a backslash, a directory that starts with a dot, or a file name that is only dots without its
extension.
-/

namespace FrontendSync.Module.Specifier

open Path (IsName IsStem unshared exists_unshared_eq wayOf segmentsOf)
open Text (pieces)

/-! ## Following a specifier -/

/-- The place that a segment leads to from a directory.  Nothing is above the first directory. -/
def move (names : List String) (segment : List Char) : Option (List String) :=
  match segment with
  | [] | ['.'] => some names
  | ['.', '.'] => if names = [] then none else some names.dropLast
  | name => some (names ++ [String.ofList name])

def follow? (dir : List String) (specifier : String) : Option (List String) :=
  (pieces '/' specifier.toList).foldlM move dir

/-- A specifier is told from the name of a package, and leads from a directory to a place. -/
structure Leads (dir place : List String) (specifier : String) : Prop where
  relative : "./".toList <+: specifier.toList ∨ "../".toList <+: specifier.toList
  reaches : follow? dir specifier = some place

theorem move_of_isName {name : String} (h : IsName name) (names : List String) :
    move names name.toList = some (names ++ [name]) := by
  have hne (other : String) (hother : name ≠ other) : name.toList ≠ other.toList :=
    fun heq ↦ hother (String.toList_injective heq)
  unfold move
  split
  · rename_i heq
    exact absurd heq (hne "" h.ne_empty)
  · rename_i heq
    exact absurd heq (hne "." h.ne_dot)
  · rename_i heq
    exact absurd heq (hne ".." h.ne_dots)
  · rw [String.ofList_toList]

theorem foldlM_move_names {names : List String} (h : ∀ n ∈ names, IsName n) (dir : List String) :
    (names.map String.toList).foldlM move dir = some (dir ++ names) := by
  induction names generalizing dir with
  | nil => exact congrArg some (List.append_nil dir).symm
  | cons n names ih =>
    obtain ⟨hn, hnames⟩ := List.forall_mem_cons.mp h
    rw [List.map_cons, List.foldlM_cons, move_of_isName hn, Option.bind_eq_bind, Option.bind_some,
      ih hnames, List.append_assoc, List.singleton_append]

theorem foldlM_move_dots (dir up : List String) :
    (List.replicate up.length ['.', '.']).foldlM move (dir ++ up) = some dir := by
  generalize hn : up.length = n
  induction n generalizing up with
  | zero => rw [List.length_eq_zero_iff.mp hn, List.append_nil]; rfl
  | succ n ih =>
    have hne : up ≠ [] := List.ne_nil_of_length_eq_add_one hn
    have hmove : move (dir ++ up) ['.', '.'] = some (dir ++ up.dropLast) := by
      rw [move, if_neg (by simp [hne]), List.dropLast_append_of_ne_nil hne]
    rw [List.replicate_succ, List.foldlM_cons, hmove, Option.bind_eq_bind, Option.bind_some]
    exact ih up.dropLast (by rw [List.length_dropLast, hn]; rfl)

/-- What is reached begins with directories that were there, and goes on with segments that are no
dots. -/
theorem exists_of_foldlM_move {segments : List (List Char)} {names place : List String}
    (h : segments.foldlM move names = some place) :
    ∃ kept entered, place = kept ++ entered ∧ kept <+: names ∧
      ∀ n ∈ entered, n.toList ∈ segments ∧ n ≠ "." ∧ n ≠ ".." := by
  induction segments generalizing names with
  | nil =>
    obtain rfl := Option.some.inj h
    exact ⟨names, [], (List.append_nil _).symm, List.prefix_refl _, by simp⟩
  | cons s segments ih =>
    obtain ⟨names', hmove, hrest⟩ := Option.bind_eq_some_iff.mp h
    obtain ⟨kept, entered, rfl, hkept, hentered⟩ := ih hrest
    have hmore : ∀ n ∈ entered, n.toList ∈ s :: segments ∧ n ≠ "." ∧ n ≠ ".." := fun n hn ↦
      ⟨List.mem_cons_of_mem s (hentered n hn).1, (hentered n hn).2⟩
    revert hmove
    fun_cases move names s with
    | case1 | case2 =>
      intro hmove
      obtain rfl := Option.some.inj hmove
      exact ⟨kept, entered, rfl, hkept, hmore⟩
    | case3 => simp
    | case4 =>
      intro hmove
      obtain rfl := Option.some.inj hmove
      exact ⟨kept, entered, rfl, hkept.trans (List.dropLast_prefix _), hmore⟩
    | case5 _ hempty hdot hdots =>
      intro hmove
      obtain rfl := Option.some.inj hmove
      rcases List.prefix_concat_iff.mp hkept with rfl | hkept
      · refine ⟨names, String.ofList s :: entered, by simp, List.prefix_refl _, ?_⟩
        refine List.forall_mem_cons.mpr ⟨⟨by simp, ?_, ?_⟩, hmore⟩
        · exact fun heq ↦ hdot (by simpa using congrArg String.toList heq)
        · exact fun heq ↦ hdots (by simpa using congrArg String.toList heq)
      · exact ⟨kept, entered, rfl, hkept, hmore⟩

/-! ## Texts of specifiers -/

def slash (c : Char) : Char := if c = '\\' then '/' else c

/-- The dot in front of a specifier leads nowhere else. -/
theorem follow?_dotted (dir : List String) (s : String) :
    follow? dir (dotted s) = follow? dir s := by
  unfold dotted
  split
  · rfl
  · have hpieces : pieces '/' ("./" ++ s).toList = ['.'] :: pieces '/' s.toList := by
      rw [String.toList_append]
      exact Text.pieces_append_cons ['.'] s.toList
    rw [follow?, hpieces]
    rfl

/-- The text of a way with forward slashes only. -/
def textOf (ways : List String × List String) : String :=
  String.ofList ((Text.join '/' (segmentsOf ways)).map slash)

theorem relative_eq {source target : Path} {names folders : List String} {file stem : String}
    (hsource : source.components = names.map .normal)
    (htarget : target.components = (folders ++ [file]).map .normal)
    (hstem : IsStem file.toList stem.toList) (hname : IsName stem) :
    relative source target = dotted (textOf (unshared names.dropLast (folders ++ [stem]))) := by
  obtain ⟨hdir, hdirComponents⟩ := Path.components_parent? hsource
  obtain ⟨hgoal, hgoalComponents⟩ := Path.components_dropExtension htarget hstem hname
  let ways := unshared names.dropLast (folders ++ [stem])
  have hway : Path.way? target.dropExtension.components (source.parent?.getD ⟨"."⟩).components
      = some (wayOf ways) := by
    rw [hdirComponents, hgoalComponents]
    split
    · rename_i hnil
      rw [Path.way?_current (by simp)]
      simp only [ways, hnil, List.dropLast_nil]
    · exact Path.way?_normals _ _
  have hnames : ∀ n ∈ ways.2, IsName n := by
    obtain ⟨shared, -, hshared⟩ := exists_unshared_eq names.dropLast (folders ++ [stem])
    intro n hn
    have hmem : n ∈ folders ++ [stem] := hshared ▸ List.mem_append_right shared hn
    rcases List.mem_append.mp hmem with hmem | hmem
    · exact Path.isName_of_components htarget n (List.mem_append_left _ hmem)
    · exact List.mem_singleton.mp hmem ▸ hname
  have hrelative : target.dropExtension.relative? (source.parent?.getD ⟨"."⟩)
      = some (Path.ofComponents (wayOf ways)) := by
    rw [Path.relative?, hdir, hgoal, hway]
    rfl
  unfold relative
  simp only [hrelative, slashed, Path.text_wayOf hnames]
  rfl

/-! ## Ways that are told -/

/-- What the text of a specifier can tell: no name on the way down has a backslash, the way does not
end one directory further up, and a way that only goes down does not begin with a dot. -/
structure IsTold (ways : List String × List String) : Prop where
  noBackslash : ∀ n ∈ ways.2, '\\' ∉ n.toList
  notAbove : ways.1.length = 1 → ways.2 ≠ []
  noDot : ways.1 = [] → ∀ n ∈ ways.2.head?, n.toList.head? ≠ some '.'

section Ways

variable {ways : List String × List String} {shared : List String}

theorem map_slash_of_notMem {s : List Char} (h : '\\' ∉ s) : s.map slash = s := by
  have hsame : ∀ c ∈ s, slash c = id c := fun c hc ↦
    if_neg fun heq : c = '\\' ↦ h (heq ▸ hc)
  rw [List.map_congr_left hsame, List.map_id]

theorem textOf_eq (hslash : ∀ n ∈ ways.2, '\\' ∉ n.toList) :
    textOf ways = String.ofList (Text.join '/' (segmentsOf ways)) := by
  have hsame : ∀ s ∈ segmentsOf ways, s.map slash = id s := by
    intro s hs
    refine map_slash_of_notMem ?_
    rcases List.mem_append.mp hs with hs | hs
    · rw [List.eq_of_mem_replicate hs]
      decide
    · obtain ⟨n, hn, rfl⟩ := List.mem_map.mp hs
      exact hslash n hn
  rw [textOf, Text.map_join rfl, List.map_congr_left hsame, List.map_id]

/-- A way without backslashes is followed to its end. -/
theorem follow?_textOf (hnames : ∀ n ∈ ways.2, IsName n)
    (hslash : ∀ n ∈ ways.2, '\\' ∉ n.toList) :
    follow? (shared ++ ways.1) (textOf ways) = some (shared ++ ways.2) := by
  have hfree : ∀ s ∈ segmentsOf ways, '/' ∉ s := by
    intro s hs
    rcases List.mem_append.mp hs with hs | hs
    · rw [List.eq_of_mem_replicate hs]
      decide
    · obtain ⟨n, hn, rfl⟩ := List.mem_map.mp hs
      exact (hnames n hn).noSeparator
  rw [follow?, textOf_eq hslash, String.toList_ofList]
  by_cases hempty : segmentsOf ways = []
  · obtain ⟨hup, hdown⟩ := List.append_eq_nil_iff.mp hempty
    have hup : ways.1 = [] := by simpa using hup
    rw [hempty, hup, List.map_eq_nil_iff.mp hdown]
    rfl
  · rw [Text.pieces_join hempty hfree, segmentsOf, List.foldlM_append, foldlM_move_dots,
      Option.bind_eq_bind, Option.bind_some, foldlM_move_names hnames]

theorem pieces_textOf (hdown : ways.2 ≠ []) :
    pieces '/' (textOf ways).toList = List.replicate ways.1.length ['.', '.']
      ++ pieces '/' ((Text.join '/' (ways.2.map String.toList)).map slash) := by
  rw [textOf, String.toList_ofList, segmentsOf, Text.map_join rfl, List.map_append,
    List.map_replicate, Text.pieces_join_append, Text.map_join rfl]
  · rfl
  · intro p hp
    rw [List.eq_of_mem_replicate hp]
    decide
  · simpa using hdown

/-- A name with a backslash is divided where it is written, and not reached. -/
theorem notMem_of_follow? (h : follow? (shared ++ ways.1) (textOf ways) = some (shared ++ ways.2)) :
    ∀ n ∈ ways.2, '\\' ∉ n.toList := by
  intro n hn hmem
  rw [follow?, pieces_textOf (List.ne_nil_of_mem hn), List.foldlM_append, foldlM_move_dots,
    Option.bind_eq_bind, Option.bind_some] at h
  obtain ⟨kept, entered, hplace, ⟨more, rfl⟩, hentered⟩ := exists_of_foldlM_move h
  rw [List.append_assoc] at hplace
  obtain rfl := List.append_cancel_left hplace
  have htext := Text.mem_of_mem_pieces (hentered n (List.mem_append_right more hn)).1 hmem
  obtain ⟨c, -, hc⟩ := List.mem_map.mp htext
  unfold slash at hc
  split at hc
  · exact absurd hc (by decide)
  · rename_i hne
    exact hne hc

/-- A name that starts with a dot is not the dots of a specifier. -/
theorem not_prefix_of_isName {n : String} (hn : IsName n) (hdot : n.toList.head? = some '.')
    (rest : List Char) :
    ¬ ("./".toList <+: n.toList ++ rest ∨ "../".toList <+: n.toList ++ rest) := by
  obtain ⟨cs, hcs⟩ := List.head?_eq_some_iff.mp hdot
  have hne (other : String) (hother : n ≠ other) : n.toList ≠ other.toList :=
    fun heq ↦ hother (String.toList_injective heq)
  have hfree := hn.noSeparator
  have hdot := hne "." hn.ne_dot
  have hdots := hne ".." hn.ne_dots
  rw [hcs] at hfree hdot hdots ⊢
  match cs, hfree, hdot, hdots with
  | [], _, hdot, _ => exact absurd rfl hdot
  | [c], hfree, _, hdots =>
    have hne : c ≠ '.' := fun h ↦ hdots (by rw [h]; rfl)
    rintro (⟨t, ht⟩ | ⟨t, ht⟩)
    · simp_all
    · exact hne (List.cons.inj (List.cons.inj ht).2).1.symm
  | c :: d :: cs, hfree, _, _ =>
    rintro (⟨t, ht⟩ | ⟨t, ht⟩) <;> simp_all

theorem dotted_of_head {s : String} (h : s.toList.head? = some '.') : dotted s = s := if_pos h

theorem dotted_of_head_ne {s : String} (h : s.toList.head? ≠ some '.') :
    "./".toList <+: (dotted s).toList := by
  rw [dotted, if_neg h, String.toList_append]
  exact List.prefix_append _ _

/-- Behind two dots comes a slash exactly if the way goes on. -/
theorem dots_prefix_iff (up down : List String) :
    "../".toList <+: "..".toList ++ (segmentsOf (up, down)).flatMap ('/' :: ·)
      ↔ (up.length = 0 → down ≠ []) := by
  have hdots : "../".toList = "..".toList ++ ['/'] := rfl
  rw [hdots, List.prefix_append_right_inj]
  cases up with
  | cons u up => simp [segmentsOf, List.replicate_succ]
  | nil => cases down <;> simp [segmentsOf]

/-- A specifier begins with dots and a slash exactly if the way is not one step up, and does not go
down to a name with a dot at its start. -/
theorem relative_dotted_iff (hnames : ∀ n ∈ ways.2, IsName n)
    (hslash : ∀ n ∈ ways.2, '\\' ∉ n.toList) :
    ("./".toList <+: (dotted (textOf ways)).toList ∨ "../".toList <+: (dotted (textOf ways)).toList)
      ↔ (ways.1.length = 1 → ways.2 ≠ []) ∧
        (ways.1 = [] → ∀ n ∈ ways.2.head?, n.toList.head? ≠ some '.') := by
  obtain ⟨up, down⟩ := ways
  have htext := textOf_eq hslash
  cases up with
  | cons u up =>
    have hchars : (textOf (u :: up, down)).toList
        = "..".toList ++ (segmentsOf (up, down)).flatMap ('/' :: ·) := by
      rw [htext, String.toList_ofList]
      exact Text.join_cons_eq_flatMap _ _
    have hnoDot : ¬ "./".toList <+: "..".toList ++ (segmentsOf (up, down)).flatMap ('/' :: ·) :=
      fun ⟨_, h⟩ ↦ absurd (List.cons.inj (List.cons.inj h).2).1 (by decide)
    rw [dotted_of_head (by rw [hchars]; rfl), hchars, or_iff_right hnoDot, dots_prefix_iff]
    simp
  | nil =>
    cases down with
    | nil => simp [htext, segmentsOf, Text.join, dotted]
    | cons n down =>
      have hchars : (textOf ([], n :: down)).toList
          = n.toList ++ (down.map String.toList).flatMap ('/' :: ·) := by
        rw [htext, String.toList_ofList]
        exact Text.join_cons_eq_flatMap _ _
      have hn := hnames n List.mem_cons_self
      have hchar : n.toList ≠ [] := mt String.toList_eq_nil_iff.mp hn.ne_empty
      have hhead : (textOf ([], n :: down)).toList.head? = n.toList.head? := by
        rw [hchars, List.head?_append_of_ne_nil _ hchar]
      by_cases hdot : n.toList.head? = some '.'
      · rw [dotted_of_head (hhead.trans hdot), hchars]
        simpa [hdot] using not_prefix_of_isName hn hdot _
      · simpa [hdot] using Or.inl (dotted_of_head_ne (mt hhead.symm.trans hdot))

end Ways

/-! ## Where they lead -/

/-- No directory is entered by dots only, so none is reached as the last of a place. -/
theorem named_of_follow? {dir folders : List String} {stem specifier : String}
    (hdir : ∀ n ∈ dir, IsName n) (h : follow? dir specifier = some (folders ++ [stem])) :
    stem ≠ "." ∧ stem ≠ ".." := by
  obtain ⟨kept, entered, hplace, hkept, hentered⟩ := exists_of_foldlM_move h
  have hstem : stem ∈ kept ++ entered :=
    hplace ▸ List.mem_append_right _ (List.mem_singleton_self _)
  rcases List.mem_append.mp hstem with hstem | hstem
  · have hname := hdir stem (hkept.subset hstem)
    exact ⟨hname.ne_dot, hname.ne_dots⟩
  · exact (hentered stem hstem).2

/-- The specifier of a way leads to its end exactly if the way is told by its text. -/
theorem leads_dotted_iff {ways : List String × List String} {shared : List String}
    (hnames : ∀ n ∈ ways.2, IsName n) :
    Leads (shared ++ ways.1) (shared ++ ways.2) (dotted (textOf ways)) ↔ IsTold ways := by
  constructor
  · rintro ⟨hrelative, hreaches⟩
    rw [follow?_dotted] at hreaches
    have hslash := notMem_of_follow? hreaches
    obtain ⟨hnotAbove, hnoDot⟩ := (relative_dotted_iff hnames hslash).mp hrelative
    exact ⟨hslash, hnotAbove, hnoDot⟩
  · rintro ⟨hslash, hnotAbove, hnoDot⟩
    refine ⟨(relative_dotted_iff hnames hslash).mpr ⟨hnotAbove, hnoDot⟩, ?_⟩
    rw [follow?_dotted, follow?_textOf hnames hslash]

/-- Without a base, a specifier leads from the directory of its module to the other module without
its extension exactly if the module has a name without it and the way is told by its text. -/
theorem leads_of_iff {source target : Path} {names folders : List String} {file stem : String}
    (hsource : source.components = names.map .normal)
    (htarget : target.components = (folders ++ [file]).map .normal)
    (hstem : IsStem file.toList stem.toList) :
    Leads names.dropLast (folders ++ [stem]) (of none source target)
      ↔ (stem ≠ "." ∧ stem ≠ "..") ∧ IsTold (unshared names.dropLast (folders ++ [stem])) := by
  have hfile : IsName file := Path.isName_of_components htarget file (by simp)
  have hfolders : ∀ n ∈ folders, IsName n := fun n hn ↦
    Path.isName_of_components htarget n (List.mem_append_left _ hn)
  have hdir : ∀ n ∈ names.dropLast, IsName n := fun n hn ↦
    Path.isName_of_components hsource n (List.dropLast_subset _ hn)
  -- on both sides the stem is a name
  have hnamed (h : stem ≠ "." ∧ stem ≠ "..") :
      Leads names.dropLast (folders ++ [stem]) (of none source target)
        ↔ IsTold (unshared names.dropLast (folders ++ [stem])) := by
    have hname := hstem.isName hfile h.1 h.2
    rw [of, relative_eq hsource htarget hstem hname]
    obtain ⟨shared, hleave, henter⟩ := exists_unshared_eq names.dropLast (folders ++ [stem])
    generalize unshared names.dropLast (folders ++ [stem]) = ways at hleave henter ⊢
    rw [hleave, henter]
    refine leads_dotted_iff fun n hn ↦ ?_
    have hmem : n ∈ folders ++ [stem] := henter ▸ List.mem_append_right shared hn
    rcases List.mem_append.mp hmem with hmem | hmem
    · exact hfolders n hmem
    · exact List.mem_singleton.mp hmem ▸ hname
  constructor
  · intro h
    have hdots := named_of_follow? hdir h.reaches
    exact ⟨hdots, (hnamed hdots).mp h⟩
  · rintro ⟨hdots, htold⟩
    exact (hnamed hdots).mpr htold

/-- A translator beside the directory of its enum. -/
theorem leads_of_statusTranslator :
    Leads ["resources", "js", "translators"] ["resources", "js", "enums", "Status"]
      (of none ⟨"resources/js/translators/useStatusTranslator.ts"⟩
        ⟨"resources/js/enums/Status.ts"⟩) := by
  have hsource : (⟨"resources/js/translators/useStatusTranslator.ts"⟩ : Path).components
      = ["resources", "js", "translators", "useStatusTranslator.ts"].map .normal := by
    decide +kernel
  have htarget : (⟨"resources/js/enums/Status.ts"⟩ : Path).components
      = (["resources", "js", "enums"] ++ ["Status.ts"]).map .normal := by decide +kernel
  have hfile : "Status.ts".toList = "Status".toList ++ '.' :: "ts".toList := by decide
  have hstem : IsStem "Status.ts".toList "Status".toList :=
    hfile ▸ .extended (by simp) (by decide)
  refine (leads_of_iff hsource htarget hstem).mpr ?_
  exact ⟨by decide, by decide +kernel, by decide +kernel, by decide +kernel⟩

/-- A directory that starts with a dot makes the specifier the name of a package. -/
theorem not_leads_of_hiddenEnums :
    of none ⟨"out/useStatusTranslator.ts"⟩ ⟨"out/.enums/Status.ts"⟩ = ".enums/Status" ∧
      ¬ Leads ["out"] ["out", ".enums", "Status"]
        (of none ⟨"out/useStatusTranslator.ts"⟩ ⟨"out/.enums/Status.ts"⟩) := by
  have htext : of none ⟨"out/useStatusTranslator.ts"⟩ ⟨"out/.enums/Status.ts"⟩ = ".enums/Status" :=
    by decide +kernel
  refine ⟨htext, fun h ↦ ?_⟩
  exact absurd (htext ▸ h.relative) (by decide +kernel)

end FrontendSync.Module.Specifier
