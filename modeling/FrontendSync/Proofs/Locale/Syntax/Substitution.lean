import FrontendSync.Locale.Syntax.Adapter
import FrontendSync.Proofs.Locale.Syntax.Parameter
import FrontendSync.Proofs.Locale.Syntax.Plural
import FrontendSync.Proofs.Text.Pieces
import FrontendSync.Proofs.Text.Trim

/-!
# Parameters found from left to right

Which parts of a text are its parameters, and that nothing else is replaced.  The brackets around
a name leave no parameter behind, and a bar belongs to none, so that it makes no difference whether
a text or its pieces between bars are worked on.  With two braces on each side a marker stays a
marker as well: the forms of a plural text under its keys are those of the text that has them all.
-/

namespace FrontendSync.Locale

open FrontendSync.Text

variable {opening closing front s t out : List Char} {c : Char}

/-! ## Where parameters are -/

/-- Letters and digits of ASCII, and the low line. -/
def IsWordChar (c : Char) : Prop :=
  'A' ≤ c ∧ c ≤ 'Z' ∨ 'a' ≤ c ∧ c ≤ 'z' ∨ '0' ≤ c ∧ c ≤ '9' ∨ c = '_'

theorem isNameChar_iff : isNameChar c = true ↔ IsWordChar c := by
  unfold isNameChar Char.isAlphanum Char.isAlpha Char.isUpper Char.isLower Char.isDigit IsWordChar
  simp only [Bool.or_eq_true, Bool.and_eq_true, decide_eq_true_eq, beq_iff_eq, or_assoc]
  exact Iff.rfl

/-- A colon with a character of names behind it. -/
inductive StartsParameter : List Char → Prop
  | mk {c : Char} {s : List Char} : IsWordChar c → StartsParameter (':' :: c :: s)

/-- What becomes of a text when its parameters are replaced one after the other.  The next one is
where a parameter starts first, and its name is as long as there are characters of names. -/
inductive Replaces (opening closing : List Char) : List Char → List Char → Prop
  | none {s : List Char} : (∀ u, u <:+ s → ¬ StartsParameter u) → Replaces opening closing s s
  | next {front name rest out : List Char} :
      (∀ u, u <:+ front ++ ':' :: (name ++ rest) → StartsParameter u →
        u.length ≤ (':' :: (name ++ rest)).length) →
      name ≠ [] → (∀ c ∈ name, IsWordChar c) → (∀ c ∈ rest.head?, ¬ IsWordChar c) →
      Replaces opening closing rest out →
      Replaces opening closing (front ++ ':' :: (name ++ rest))
        (front ++ (opening ++ (name ++ (closing ++ out))))

theorem StartsParameter.head?_eq (h : StartsParameter s) : s.head? = some ':' := by
  cases h
  rfl

theorem not_startsParameter_nil : ¬ StartsParameter [] := fun h ↦ nomatch h

/-- No name starts at a colon where no parameter does. -/
theorem takeWhile_eq_nil_iff : s.takeWhile isNameChar = [] ↔ ¬ StartsParameter (':' :: s) := by
  cases s with
  | nil => simpa using fun h : StartsParameter [':'] ↦ nomatch h
  | cons c s =>
    rw [List.takeWhile_cons]
    constructor
    · rintro h ⟨hc⟩
      simp [isNameChar_iff.mpr hc] at h
    · intro h
      rw [if_neg fun hc ↦ h ⟨isNameChar_iff.mp hc⟩]

theorem substitute_cons_of_not_startsParameter (h : ¬ StartsParameter (c :: s)) :
    substitute opening closing (c :: s) = c :: substitute opening closing s := by
  by_cases hc : c = ':'
  · subst hc
    rw [substitute_colon, if_pos (takeWhile_eq_nil_iff.mpr h)]
  · exact substitute_cons_of_ne hc s

/-- Nothing changes in front of the first parameter. -/
theorem substitute_append_of_first
    (h : ∀ u, u <:+ front ++ t → StartsParameter u → u.length ≤ t.length) :
    substitute opening closing (front ++ t) = front ++ substitute opening closing t := by
  induction front with
  | nil => rfl
  | cons c front ih =>
    have hstart : ¬ StartsParameter (c :: (front ++ t)) := fun hstart ↦ by
      have hle := h _ (List.suffix_refl _) hstart
      simp only [List.length_cons, List.length_append] at hle
      omega
    have hrest := ih fun u hu ↦ h u (hu.trans (List.suffix_cons c _))
    rw [List.cons_append, substitute_cons_of_not_startsParameter hstart, hrest, List.cons_append]

/-- A text without parameters stays as it is. -/
theorem substitute_eq_self (h : ∀ u, u <:+ s → ¬ StartsParameter u) :
    substitute opening closing s = s := by
  have happend : substitute opening closing (s ++ []) = s ++ substitute opening closing [] :=
    substitute_append_of_first fun u hu hstart ↦ absurd hstart (h u (by simpa using hu))
  rwa [List.append_nil, substitute, List.append_nil] at happend

theorem takeWhile_append_of_name {name rest : List Char} (hname : ∀ c ∈ name, IsWordChar c)
    (hrest : ∀ c ∈ rest.head?, ¬ IsWordChar c) :
    (name ++ rest).takeWhile isNameChar = name ∧ (name ++ rest).dropWhile isNameChar = rest := by
  have hchars : ∀ c ∈ name, isNameChar c = true := fun c hc ↦ isNameChar_iff.mpr (hname c hc)
  rw [List.takeWhile_append_of_pos hchars, List.dropWhile_append_of_pos hchars]
  cases rest with
  | nil => simp
  | cons c rest =>
    have hc : ¬ isNameChar c = true := mt isNameChar_iff.mp (hrest c rfl)
    rw [List.takeWhile_cons_of_neg hc, List.dropWhile_cons_of_neg hc, List.append_nil]
    exact ⟨rfl, rfl⟩

theorem Replaces.eq_substitute (h : Replaces opening closing s out) :
    out = substitute opening closing s := by
  induction h with
  | none hnone => rw [substitute_eq_self hnone]
  | @next front name rest out hfirst hne hname hrest _ ih =>
    obtain ⟨htake, hdrop⟩ := takeWhile_append_of_name hname hrest
    rw [substitute_append_of_first hfirst, substitute_colon, htake, hdrop, if_neg hne, ih]
    simp

/-- Where no parameter starts there is one more character in front of the next. -/
theorem Replaces.cons (h : Replaces opening closing s out) (hc : ¬ StartsParameter (c :: s)) :
    Replaces opening closing (c :: s) (c :: out) := by
  cases h with
  | none hnone =>
    refine .none fun u hu ↦ ?_
    rcases List.suffix_cons_iff.mp hu with rfl | hu
    · exact hc
    · exact hnone u hu
  | @next front name rest out hfirst hne hname hrest hout =>
    rw [← List.cons_append, ← List.cons_append]
    refine .next (fun u hu hstart ↦ ?_) hne hname hrest hout
    rcases List.suffix_cons_iff.mp hu with rfl | hu
    · exact absurd hstart hc
    · exact hfirst u hu hstart

theorem replaces_substitute (opening closing s : List Char) :
    Replaces opening closing s (substitute opening closing s) := by
  match s with
  | [] =>
    rw [substitute]
    exact .none fun u hu ↦ by simpa [List.suffix_nil.mp hu] using not_startsParameter_nil
  | c :: s =>
    by_cases hstart : StartsParameter (c :: s)
    · obtain rfl : c = ':' := Option.some.inj hstart.head?_eq
      have hbehind := replaces_substitute opening closing (s.dropWhile isNameChar)
      have hne : s.takeWhile isNameChar ≠ [] := mt takeWhile_eq_nil_iff.mp (not_not_intro hstart)
      have hname : ∀ c ∈ s.takeWhile isNameChar, IsWordChar c := fun c hc ↦
        isNameChar_iff.mp (List.all_eq_true.mp List.all_takeWhile c hc)
      have hrest : ∀ c ∈ (s.dropWhile isNameChar).head?, ¬ IsWordChar c := fun c hc hword ↦ by
        have hhead := List.head?_dropWhile_not isNameChar s
        rw [Option.mem_def.mp hc] at hhead
        simp [isNameChar_iff.mpr hword] at hhead
      rw [substitute_colon, if_neg hne]
      have hnext : Replaces opening closing
          ([] ++ ':' :: (s.takeWhile isNameChar ++ s.dropWhile isNameChar)) _ :=
        .next (fun u hu _ ↦ hu.length_le) hne hname hrest hbehind
      simpa using hnext
    · rw [substitute_cons_of_not_startsParameter hstart]
      exact (replaces_substitute opening closing s).cons hstart
termination_by s.length
decreasing_by
  · have hle := (List.dropWhile_sublist isNameChar (l := s)).length_le
    simp only [List.length_cons]
    omega
  · simp

/-- Replacing is what it is said to be, and nothing else is. -/
theorem replaces_iff : Replaces opening closing s out ↔ out = substitute opening closing s :=
  ⟨Replaces.eq_substitute, fun h ↦ h ▸ replaces_substitute opening closing s⟩

/-! ## Once is enough

The brackets have to be there, and to hold neither colons nor characters of names. -/

/-- A text starts as it did, or with a bracket. -/
theorem mem_head?_substitute (hopening : opening ≠ [])
    (h : c ∈ (substitute opening closing s).head?) : c ∈ s.head? ∨ c ∈ opening := by
  cases s with
  | nil => simp [substitute] at h
  | cons d s =>
    by_cases hstart : StartsParameter (d :: s)
    · obtain rfl : d = ':' := Option.some.inj hstart.head?_eq
      rw [substitute_colon, if_neg (mt takeWhile_eq_nil_iff.mp (not_not_intro hstart))] at h
      obtain ⟨b, opening, rfl⟩ := List.exists_cons_of_ne_nil hopening
      obtain rfl : b = c := Option.some.inj h
      exact .inr List.mem_cons_self
    · rw [substitute_cons_of_not_startsParameter hstart] at h
      exact .inl h

/-- No parameter starts in front of the first colon. -/
theorem suffix_of_startsParameter {u : List Char} (hu : u <:+ s ++ t) (hstart : StartsParameter u)
    (hs : ':' ∉ s) : u <:+ t := by
  induction s with
  | nil => exact hu
  | cons c s ih =>
    obtain ⟨hc, hs⟩ := not_or.mp (mt List.mem_cons.mpr hs)
    rcases List.suffix_cons_iff.mp hu with rfl | hu
    · exact absurd (Option.some.inj hstart.head?_eq).symm hc
    · exact ih hu hs

/-- No parameter is left or made. -/
theorem not_startsParameter_of_suffix (hopening : opening ≠ [])
    (hsigns : ∀ c ∈ opening ++ closing, c ≠ ':' ∧ ¬ IsWordChar c) {u : List Char}
    (hu : u <:+ substitute opening closing s) : ¬ StartsParameter u := by
  intro hstart
  fun_induction substitute opening closing s with
  | case1 => exact not_startsParameter_nil (List.suffix_nil.mp hu ▸ hstart)
  | case2 d s name hname ih =>
    rcases List.suffix_cons_iff.mp hu with rfl | hu
    · -- a name behind the colon would have been there before
      obtain rfl : d = ':' := Option.some.inj hstart.head?_eq
      generalize hout : substitute opening closing s = out at hstart
      cases hstart with
      | @mk c out hc =>
        rcases mem_head?_substitute hopening (by rw [hout]; rfl : c ∈ _) with hhead | hmem
        · cases s with
          | nil => simp at hhead
          | cons e s =>
            obtain rfl : e = c := Option.some.inj hhead
            exact takeWhile_eq_nil_iff.mp hname ⟨hc⟩
        · exact (hsigns c (List.mem_append_left _ hmem)).2 hc
    · exact ih hu
  | case3 d s name hname ih =>
    have hword : ∀ c ∈ name, isNameChar c = true := by
      intro c hc
      simp only [name] at hc
      split at hc
      · exact List.all_eq_true.mp List.all_takeWhile c hc
      · exact absurd hc List.not_mem_nil
    have hcolon : ':' ∉ opening ++ name ++ closing := by
      simp only [List.mem_append, not_or]
      exact ⟨⟨fun hmem ↦ (hsigns ':' (List.mem_append_left _ hmem)).1 rfl,
        fun hmem ↦ absurd (hword ':' hmem) (by decide)⟩,
        fun hmem ↦ (hsigns ':' (List.mem_append_right _ hmem)).1 rfl⟩
    exact ih (suffix_of_startsParameter hu hstart hcolon)

theorem substitute_substitute (hopening : opening ≠ [])
    (hsigns : ∀ c ∈ opening ++ closing, c ≠ ':' ∧ ¬ IsWordChar c) (s : List Char) :
    substitute opening closing (substitute opening closing s) = substitute opening closing s :=
  substitute_eq_self fun _ ↦ not_startsParameter_of_suffix hopening hsigns

/-! ## Pieces -/

/-- A separator that starts behind every name and has no colon divides parameters as well. -/
theorem substitute_intercalate {sep : List Char} (hc : isNameChar c = false)
    (hsep : ':' ∉ c :: sep) (ps : List (List Char)) :
    substitute opening closing ((c :: sep).intercalate ps)
      = (c :: sep).intercalate (ps.map (substitute opening closing)) := by
  induction ps with
  | nil => rw [List.map_nil, List.intercalate_nil, substitute]
  | cons p ps ih =>
    cases ps with
    | nil => rw [List.map_singleton, List.intercalate_singleton, List.intercalate_singleton]
    | cons q ps =>
      rw [List.map_cons, List.intercalate_cons_cons, List.map_cons, List.intercalate_cons_cons,
        List.append_assoc, List.cons_append, substitute_append_cons hc, ← List.cons_append,
        substitute_append_of_notMem hsep, ih, List.map_cons, List.append_assoc]

theorem join_eq_intercalate (ps : List (List Char)) : join c ps = [c].intercalate ps := by
  induction ps with
  | nil => rfl
  | cons p ps ih =>
    cases ps with
    | nil => rw [List.intercalate_singleton, join]
    | cons q ps => rw [join_cons p (by simp), List.intercalate_cons_cons, ih]; simp

theorem isNameChar_bar : isNameChar '|' = false := by decide

/-- The pieces between bars are worked on each on its own. -/
theorem join_map_substitute_pieces (s : List Char) :
    join '|' ((pieces '|' s).map (substitute opening closing)) = substitute opening closing s := by
  rw [join_eq_intercalate, ← substitute_intercalate isNameChar_bar (by decide),
    ← join_eq_intercalate, join_pieces]

/-! ## Markers and blanks

Two opening braces are no marker, and neither is a name between braces that has two of them. -/

/-- Only the first character of a marker may be an opening brace. -/
theorem IsMarker.exists_cons {marker : List Char} (h : IsMarker marker) :
    ∃ c more, marker = c :: more ∧ more ≠ [] ∧ '{' ∉ more := by
  have hsign : isDecimalDigit '{' = false ∧ isBlank '{' = false := by decide +kernel
  have hcount {n : List Char} (hn : IsCount n) : '{' ∉ n := fun hmem ↦
    Bool.noConfusion (hsign.1.symm.trans (hn.2 _ hmem))
  have hblank {blanks : List Char} (hblanks : ∀ c ∈ blanks, isBlank c = true) : '{' ∉ blanks :=
    fun hmem ↦ Bool.noConfusion (hsign.2.symm.trans (hblanks _ hmem))
  cases h with
  | count hn => exact ⟨_, _, rfl, by simp, by simp [hcount hn]⟩
  | @range low front back high hlow hfront hback hhigh =>
    have hbound : '{' ∉ high := by
      rcases hhigh with hhigh | rfl
      · exact hcount hhigh
      · decide
    exact ⟨_, _, rfl, by simp, by simp [hcount hlow, hblank hfront, hblank hback, hbound]⟩

/-- What stands in front of a text with its parameters between braces, and holds no opening brace,
stood there before. -/
theorem exists_eq_append_of_substitute {p r : List Char}
    (h : Brackets.double.substitute s = p ++ r) (hp : '{' ∉ p) :
    ∃ rest, s = p ++ rest ∧ Brackets.double.substitute rest = r := by
  induction p generalizing s with
  | nil => exact ⟨s, rfl, h⟩
  | cons c p ih =>
    obtain ⟨hc, hmore⟩ := not_or.mp (mt List.mem_cons.mpr hp)
    cases s with
    | nil => simp [Brackets.substitute, substitute] at h
    | cons d s =>
      by_cases hstart : StartsParameter (d :: s)
      · obtain rfl : d = ':' := Option.some.inj hstart.head?_eq
        rw [Brackets.substitute, substitute_colon,
          if_neg (mt takeWhile_eq_nil_iff.mp (not_not_intro hstart))] at h
        exact absurd (List.cons.inj h).1 hc
      · rw [Brackets.substitute, substitute_cons_of_not_startsParameter hstart] at h
        obtain ⟨rfl, htail⟩ := List.cons.inj h
        obtain ⟨rest, rfl, hrest⟩ := ih htail hmore
        exact ⟨rest, rfl, hrest⟩

/-- A marker in front of a text with its parameters between two braces stood there before. -/
theorem IsMarker.exists_of_substitute {marker r : List Char} (hmarker : IsMarker marker)
    (h : Brackets.double.substitute s = marker ++ r) :
    ∃ rest, s = marker ++ rest ∧ Brackets.double.substitute rest = r := by
  obtain ⟨c, more, rfl, hne, hmore⟩ := hmarker.exists_cons
  cases s with
  | nil => simp [Brackets.substitute, substitute] at h
  | cons d s =>
    by_cases hstart : StartsParameter (d :: s)
    · -- the second brace is none that a marker has
      obtain rfl : d = ':' := Option.some.inj hstart.head?_eq
      obtain ⟨e, more, rfl⟩ := List.exists_cons_of_ne_nil hne
      rw [Brackets.substitute, substitute_colon,
        if_neg (mt takeWhile_eq_nil_iff.mp (not_not_intro hstart))] at h
      have he : '{' = e := (List.cons.inj (List.cons.inj h).2).1
      exact absurd (he ▸ List.mem_cons_self) hmore
    · rw [Brackets.substitute, substitute_cons_of_not_startsParameter hstart] at h
      obtain ⟨rfl, htail⟩ := List.cons.inj h
      obtain ⟨rest, rfl, hrest⟩ := exists_eq_append_of_substitute htail hmore
      exact ⟨rest, rfl, hrest⟩

/-- A text is left with the same marker, and what follows the marker has its parameters replaced. -/
theorem marker?_substitute (s : List Char) : marker? (Brackets.double.substitute s)
    = (marker? s).map fun m ↦ (m.1, Brackets.double.substitute m.2) := by
  cases hs : marker? s with
  | some m =>
    obtain ⟨form, rest⟩ := m
    obtain ⟨marker, hmarker, rfl⟩ := exists_marker?_eq_some_iff.mp ⟨form, hs⟩
    obtain ⟨form', hform⟩ := hmarker.append_eq
    obtain rfl : form' = form := congrArg Prod.fst (Option.some.inj ((hform rest).symm.trans hs))
    rw [Brackets.substitute, substitute_append_of_notMem hmarker.colon_notMem, hform]
    rfl
  | none =>
    refine Option.eq_none_iff_forall_ne_some.mpr fun m hm ↦ ?_
    obtain ⟨marker, hmarker, heq⟩ := exists_marker?_eq_some_iff.mp ⟨m.1, hm⟩
    obtain ⟨rest, rfl, -⟩ := hmarker.exists_of_substitute heq
    obtain ⟨form, hform⟩ := hmarker.append_eq
    exact absurd (hs.symm.trans (hform rest)) (by simp)

theorem substitute_ne_nil (hclosing : closing ≠ []) (hs : s ≠ []) :
    substitute opening closing s ≠ [] := by
  obtain ⟨c, s, rfl⟩ := List.exists_cons_of_ne_nil hs
  by_cases hstart : StartsParameter (c :: s)
  · obtain rfl : c = ':' := Option.some.inj hstart.head?_eq
    rw [substitute_colon, if_neg (mt takeWhile_eq_nil_iff.mp (not_not_intro hstart))]
    simp [hclosing]
  · rw [substitute_cons_of_not_startsParameter hstart]
    exact List.cons_ne_nil _ _

/-- A text ends as it did, or with a bracket. -/
theorem mem_getLast?_substitute (hclosing : closing ≠ [])
    (h : c ∈ (substitute opening closing s).getLast?) : c ∈ s.getLast? ∨ c ∈ closing := by
  fun_induction substitute opening closing s with
  | case1 => simp at h
  | case2 d s name hname ih =>
    by_cases hs : s = []
    · subst hs
      rw [substitute] at h
      exact .inl h
    · rw [List.getLast?_cons_of_ne_nil (substitute_ne_nil hclosing hs)] at h
      rw [List.getLast?_cons_of_ne_nil hs]
      exact ih h
  | case3 d s name hname ih =>
    rw [List.getLast?_append, Option.mem_def, Option.or_eq_some_iff] at h
    rcases h with h | ⟨-, h⟩
    · refine (ih h).imp_left fun hlast ↦ ?_
      have hs : d :: s = (d :: s.take name.length) ++ s.drop name.length := by simp
      rw [hs, List.getLast?_append, Option.mem_def.mp hlast]
      rfl
    · rw [List.getLast?_append, Option.or_of_isSome (by simpa using hclosing)] at h
      exact .inr (List.mem_of_getLast? h)

/-- Brackets that are no blanks, on both sides, stay when a text is trimmed. -/
theorem trim_substitute (hopening : opening ≠ []) (hclosing : closing ≠ [])
    (hblank : ∀ c ∈ opening ++ closing, isBlank c = false) (s : List Char) :
    trim (substitute opening closing s) = substitute opening closing (trim s) := by
  obtain ⟨front, back, hfront, hback, hs⟩ := exists_eq_append_trim s
  have hcolon : ':' ∉ front := fun hmem ↦ absurd (hfront ':' hmem) (by decide)
  conv_lhs => rw [hs, substitute_append_append hcolon hback]
  refine trim_append_append hfront hback (fun c hc ↦ ?_) fun c hc ↦ ?_
  · rcases mem_head?_substitute hopening hc with hc | hc
    · exact isBlank_of_mem_ends_trim (.inl hc)
    · exact hblank c (List.mem_append_left _ hc)
  · rcases mem_getLast?_substitute hclosing hc with hc | hc
    · exact isBlank_of_mem_ends_trim (.inr hc)
    · exact hblank c (List.mem_append_right _ hc)

/-! ## Segments -/

theorem isBlank_eq_false_of_mem_double {c : Char}
    (h : c ∈ Brackets.double.opening ++ Brackets.double.closing) : isBlank c = false := by
  have hblank : (Brackets.double.opening ++ Brackets.double.closing).all (!isBlank ·) = true := by
    decide +kernel
  simpa using List.all_eq_true.mp hblank c h

theorem trimStart_substitute_double (s : List Char) :
    trimStart (Brackets.double.substitute s) = Brackets.double.substitute (trimStart s) := by
  obtain ⟨front, hfront, hs⟩ := exists_eq_append_trimStart s
  have hcolon : ':' ∉ front := fun hmem ↦ absurd (hfront ':' hmem) (by decide)
  conv_lhs => rw [hs, Brackets.substitute, substitute_append_of_notMem hcolon]
  refine trimStart_append hfront fun c hc ↦ ?_
  rcases mem_head?_substitute (by simp [Brackets.double]) hc with hc | hc
  · exact isBlank_of_mem_head?_trimStart hc
  · exact isBlank_eq_false_of_mem_double (List.mem_append_left _ hc)

theorem trim_substitute_double (s : List Char) :
    trim (Brackets.double.substitute s) = Brackets.double.substitute (trim s) :=
  trim_substitute (by simp [Brackets.double]) (by simp [Brackets.double])
    (fun _ ↦ isBlank_eq_false_of_mem_double) s

namespace Segment

/-- A segment with its parameters between two braces on each side. -/
def substitute (seg : Segment) : Segment := ⟨seg.form, Brackets.double.substitute seg.text⟩

theorem ofText_substitute (s : List Char) :
    ofText (Brackets.double.substitute s) = (ofText s).substitute := by
  rw [ofText, ofText, trimStart_substitute_double, marker?_substitute]
  cases marker? (trimStart s) with
  | none => exact congrArg (mk none) (trim_substitute_double s)
  | some m => exact congrArg (mk (some m.1)) (trim_substitute_double m.2)

end Segment

/-- It makes no difference whether a text is divided before its parameters are replaced. -/
theorem segments_substitute (s : List Char) :
    segments (Brackets.double.substitute s) = (segments s).map Segment.substitute := by
  have hbar : ∀ p ∈ (pieces '|' s).map Brackets.double.substitute, '|' ∉ p := by
    intro p hp hmem
    obtain ⟨piece, hpiece, rfl⟩ := List.mem_map.mp hp
    rcases mem_of_mem_substitute hmem with hmem | hmem | hmem
    · exact notMem_of_mem_pieces hpiece hmem
    · exact absurd hmem (by decide)
    · exact absurd hmem (by decide)
  have hpieces : pieces '|' (Brackets.double.substitute s)
      = (pieces '|' s).map Brackets.double.substitute := by
    have hjoin : join '|' ((pieces '|' s).map Brackets.double.substitute)
        = Brackets.double.substitute s := join_map_substitute_pieces s
    rw [← hjoin]
    exact pieces_join (by simpa using pieces_ne_nil '|' s) hbar
  rw [segments, segments, hpieces, List.map_map, List.map_map]
  exact List.map_congr_left fun p _ ↦ Segment.ofText_substitute p

namespace Adapter

theorem forms_map_substitute (seen : List PluralForm) (first : Bool) (segs : List Segment) :
    forms seen first (segs.map Segment.substitute)
      = (forms seen first segs).map fun f ↦ (f.1, Brackets.double.substitute f.2) := by
  induction segs generalizing seen first with
  | nil => rfl
  | cons seg segs ih =>
    by_cases hseen : seg.form.getD (if first then .one else .other) ∈ seen
    · simp only [List.map_cons, forms, Segment.substitute, ih, if_pos hseen]
    · simp only [List.map_cons, forms, Segment.substitute, ih, if_neg hseen]

/-- A text without its markers, its segments between separators if it is plural. -/
def unmarked (separator s : List Char) : List Char :=
  if isPlural s then separator.intercalate ((segments s).map Segment.text) else s

theorem joinForms_eq_substitute (c : Char) (sep s : List Char) (hc : isNameChar c = false)
    (hsep : ':' ∉ c :: sep) :
    joinForms (c :: sep) s = Brackets.single.substitute (unmarked (c :: sep) s) := by
  rw [joinForms, unmarked]
  split
  · rw [Brackets.substitute, substitute_intercalate hc hsep, List.map_map]
    rfl
  · rfl

/-- Under a key and in a list a text becomes the same one, which is that without its markers with
all its parameters replaced. -/
def ReplacesUnmarked (a : Adapter) (separator : List Char) : Prop :=
  ∀ k s, a.expand k s = [(k, a.item s)] ∧
    a.item s = .text (String.ofList (Brackets.single.substitute (unmarked separator s.toList)))

theorem replacesUnmarked_vueI18n : vueI18n.ReplacesUnmarked [' ', '|', ' '] := by
  intro k s
  rw [← joinForms_eq_substitute ' ' ['|', ' '] s.toList (by decide) (by decide)]
  exact ⟨rfl, rfl⟩

theorem replacesUnmarked_passthrough : passthrough.ReplacesUnmarked ['|'] := by
  intro k s
  rw [← joinForms_eq_substitute '|' [] s.toList (by decide) (by decide)]
  exact ⟨rfl, rfl⟩

end Adapter

/-! ## The main statement -/

/-- What replacing the parameters of a text does: those that are found one after the other stand
between the brackets and all else is as it was, doing it once more changes nothing, and the pieces
between bars may be worked on each on its own. -/
structure Brackets.ReplacesParameters (b : Brackets) : Prop where
  found : ∀ s out, Replaces b.opening b.closing s out ↔ out = b.substitute s
  once : ∀ s, b.substitute (b.substitute s) = b.substitute s
  divided : ∀ s, join '|' ((pieces '|' s).map b.substitute) = b.substitute s

theorem Brackets.replacesParameters {b : Brackets} (hopening : b.opening ≠ [])
    (hsigns : ∀ c ∈ b.opening ++ b.closing, c ≠ ':' ∧ ¬ IsWordChar c) : b.ReplacesParameters where
  found _ _ := replaces_iff
  once := substitute_substitute hopening hsigns
  divided := join_map_substitute_pieces

/-- A text under a key and one without a key have the same parameters replaced, whether they are
replaced before or after its segments are taken apart. -/
theorem Adapter.keyed_and_inline_agree :
    Brackets.single.ReplacesParameters ∧ Brackets.double.ReplacesParameters ∧
      (∀ k s, i18next.expand k s =
        if isPlural s.toList then
          (forms [] true (segments (i18next.inline s).toList)).map fun f ↦
            (k ++ "_" ++ f.1.suffix, .text (String.ofList f.2))
        else [(k, .text (i18next.inline s))]) ∧
      vueI18n.ReplacesUnmarked [' ', '|', ' '] ∧ passthrough.ReplacesUnmarked ['|'] := by
  have hbrace : ∀ c ∈ ['{', '}'], c ≠ ':' ∧ ¬ IsWordChar c := by
    intro c hc
    rcases List.mem_pair.mp hc with rfl | rfl
    · exact ⟨by decide, mt isNameChar_iff.mpr (by decide)⟩
    · exact ⟨by decide, mt isNameChar_iff.mpr (by decide)⟩
  refine ⟨Brackets.replacesParameters (by simp [Brackets.single]) hbrace,
    Brackets.replacesParameters (by simp [Brackets.double]) fun c hc ↦ ?_, fun k s ↦ ?_,
    replacesUnmarked_vueI18n, replacesUnmarked_passthrough⟩
  · exact hbrace c (by simpa [Brackets.double] using hc)
  · have hinline : (i18next.inline s).toList = Brackets.double.substitute s.toList :=
      String.toList_ofList
    rw [hinline, segments_substitute, forms_map_substitute, List.map_map]
    rfl

end FrontendSync.Locale
