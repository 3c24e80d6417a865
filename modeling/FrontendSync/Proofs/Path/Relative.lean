import FrontendSync.Proofs.Path.Names

/-!
# The way from a directory to a path

Between paths of names the way climbs out of the directories that are not shared and goes down by
the names that are not shared, and its text is the text of its parts.
-/

namespace FrontendSync.Path

open Text

/-! ## Ways -/

/-- What two lists of names do not share after the names that both start with. -/
def unshared : List String → List String → List String × List String
  | a :: as, b :: bs => if a = b then unshared as bs else (a :: as, b :: bs)
  | as, bs => (as, bs)

theorem exists_unshared_eq (dir goal : List String) :
    ∃ shared, dir = shared ++ (unshared dir goal).1 ∧ goal = shared ++ (unshared dir goal).2 := by
  fun_induction unshared dir goal with
  | case1 as b bs ih =>
    obtain ⟨shared, has, hbs⟩ := ih
    exact ⟨b :: shared, congrArg (b :: ·) has, congrArg (b :: ·) hbs⟩
  | case2 => exact ⟨[], rfl, rfl⟩
  | case3 => exact ⟨[], rfl, rfl⟩

/-- Up as often as there are names to leave, and down by the others. -/
def wayOf (ways : List String × List String) : List Component :=
  List.replicate ways.1.length .parent ++ ways.2.map .normal

theorem climb?_nil (dir : List String) (up : List Component) :
    climb? [] (dir.map .normal) up = some (up ++ List.replicate dir.length .parent) := by
  induction dir generalizing up with
  | nil => simp [climb?]
  | cons d dir ih =>
    rw [List.map_cons, climb?, ih, List.append_assoc, List.singleton_append, List.length_cons,
      List.replicate_succ]

theorem climb?_normals (goal dir : List String) :
    climb? (goal.map .normal) (dir.map .normal) [] = some (wayOf (dir, goal)) := by
  cases goal with
  | nil => rw [List.map_nil, climb?_nil, wayOf, List.map_nil, List.append_nil, List.nil_append]
  | cons g goal =>
    cases dir with
    | nil => rfl
    | cons d dir =>
      have hup : (dir.map Component.normal).map (fun _ ↦ Component.parent)
          = List.replicate dir.length .parent := by rw [List.map_const', List.length_map]
      simp only [List.map_cons, climb?, hup, wayOf, List.length_cons, List.replicate_succ,
        List.nil_append, List.cons_append]

theorem way?_normals (goal dir : List String) :
    way? (goal.map .normal) (dir.map .normal) = some (wayOf (unshared dir goal)) := by
  fun_induction unshared dir goal with
  | case1 a as bs ih => rw [List.map_cons, List.map_cons, way?, if_pos rfl, ih]
  | case2 a as b bs hab =>
    have hne : Component.normal b ≠ .normal a := fun h ↦ hab (Component.normal.inj h).symm
    rw [List.map_cons, List.map_cons, way?, if_neg hne, ← List.map_cons, ← List.map_cons,
      climb?_normals]
  | case3 dir goal h =>
    rw [way?, climb?_normals]
    intro g goal' d dir' hgoal hdir
    obtain ⟨b, bs, rfl, -, -⟩ := List.map_eq_cons_iff.mp hgoal
    obtain ⟨a, as, rfl, -, -⟩ := List.map_eq_cons_iff.mp hdir
    exact h a as b bs rfl rfl

/-- Out of the directory that is only a dot one need not climb. -/
theorem way?_current {goal : List String} (h : goal ≠ []) :
    way? (goal.map .normal) [.current] = some (wayOf (unshared [] goal)) := by
  obtain ⟨g, goal, rfl⟩ := List.exists_cons_of_ne_nil h
  cases goal <;> simp [way?, climb?, wayOf, unshared]

/-! ## Texts of ways -/

/-- Components that are not empty and have no separator inside are put one behind the other. -/
theorem text_foldl_join {cs : List Component} (h : ∀ c ∈ cs, c.text ≠ "" ∧ '/' ∉ c.text.toList)
    {p : Path} (hp : p.text ≠ "") (hlast : p.text.toList.getLast? ≠ some '/') :
    (cs.foldl (fun p c ↦ p.join ⟨c.text⟩) p).text.toList
      = p.text.toList ++ cs.flatMap ('/' :: ·.text.toList) := by
  induction cs generalizing p with
  | nil => exact (List.append_nil _).symm
  | cons c cs ih =>
    obtain ⟨⟨hne, hfree⟩, hcs⟩ := List.forall_mem_cons.mp h
    have hrelative : (⟨c.text⟩ : Path).isAbsolute = false := by
      rw [isAbsolute, beq_eq_false_iff_ne]
      exact fun hhead ↦ hfree (List.mem_of_mem_head? hhead)
    have hjoin : p.join ⟨c.text⟩ = ⟨p.text ++ "/" ++ c.text⟩ := by
      simp [join, hrelative, hp, hlast]
    have hchars : c.text.toList ≠ [] := mt String.toList_eq_nil_iff.mp hne
    rw [List.foldl_cons, hjoin, ih hcs]
    · simp
    · simp [hne]
    · rw [String.toList_append, List.getLast?_append_of_ne_nil _ hchars]
      exact fun h ↦ hfree (List.mem_of_getLast? h)

theorem text_ofComponents {cs : List Component}
    (h : ∀ c ∈ cs, c.text ≠ "" ∧ '/' ∉ c.text.toList) :
    (ofComponents cs).text.toList = Text.join '/' (cs.map (·.text.toList)) := by
  cases cs with
  | nil => rfl
  | cons c cs =>
    obtain ⟨⟨hne, hfree⟩, hcs⟩ := List.forall_mem_cons.mp h
    have hfirst : (⟨""⟩ : Path).join ⟨c.text⟩ = ⟨c.text⟩ := by simp [join]
    have hlast : c.text.toList.getLast? ≠ some '/' := fun h ↦ hfree (List.mem_of_getLast? h)
    have hrest := text_foldl_join (p := ⟨c.text⟩) hcs hne hlast
    rw [ofComponents, List.foldl_cons, hfirst, hrest, List.map_cons, join_cons_eq_flatMap,
      List.flatMap_map]

/-- The segments of a way. -/
def segmentsOf (ways : List String × List String) : List (List Char) :=
  List.replicate ways.1.length ['.', '.'] ++ ways.2.map String.toList

theorem text_wayOf {ways : List String × List String} (h : ∀ n ∈ ways.2, IsName n) :
    (ofComponents (wayOf ways)).text.toList = Text.join '/' (segmentsOf ways) := by
  rw [text_ofComponents]
  · simp [wayOf, segmentsOf, Component.text, Function.comp_def]
  · intro c hc
    rcases List.mem_append.mp hc with hc | hc
    · rw [List.eq_of_mem_replicate hc]
      decide
    · obtain ⟨n, hn, rfl⟩ := List.mem_map.mp hc
      exact ⟨(h n hn).ne_empty, (h n hn).noSeparator⟩

end FrontendSync.Path
