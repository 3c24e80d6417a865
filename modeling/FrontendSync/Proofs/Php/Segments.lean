import FrontendSync.Php.Name
import FrontendSync.Proofs.Php.Spelling
import FrontendSync.Proofs.Text.Pieces

/-!
# Segments of class names

A class name is its segments with backslashes between them, and a backslash in front if it is
rooted.  Every name that is read from a source is of this form.  What a scope resolves a name to
depends on the first segment.
-/

namespace FrontendSync.Php

open Lexeme (isNameStart nameTail)

namespace Name

/-- Segments with backslashes between them. -/
def ofSegments (segments : List String) : String :=
  String.ofList (Text.join '\\' (segments.map String.toList))

/-- What stands between the backslashes of a name. -/
def segments (name : String) : List String :=
  ((Text.pieces '\\' name.toList).filter (· ≠ [])).map String.ofList

structure IsSegment (s : String) : Prop where
  ne_empty : s ≠ ""
  noBackslash : '\\' ∉ s.toList

/-- A name has these segments, with a root in front of them or not. -/
structure Spells (name : String) (segments : List String) : Prop where
  ne_nil : segments ≠ []
  isSegment : ∀ s ∈ segments, IsSegment s
  text_eq : name = ofSegments segments ∨ name = "\\" ++ ofSegments segments

/-! ## Texts of segments -/

theorem toList_ofSegments_cons (s : String) (segments : List String) :
    (ofSegments (s :: segments)).toList = s.toList ++ segments.flatMap ('\\' :: ·.toList) := by
  rw [ofSegments, String.toList_ofList, List.map_cons, Text.join_cons_eq_flatMap, List.flatMap_map]

theorem ofSegments_append {front back : List String} (hfront : front ≠ []) (hback : back ≠ []) :
    ofSegments (front ++ back) = ofSegments front ++ "\\" ++ ofSegments back := by
  refine String.toList_injective ?_
  rw [ofSegments, List.map_append, Text.join_append (by simpa using hfront) (by simpa using hback)]
  simp [ofSegments]

theorem ofSegments_ne_empty {segments : List String} (hne : segments ≠ [])
    (h : ∀ s ∈ segments, IsSegment s) : ofSegments segments ≠ "" := by
  obtain ⟨s, segments, rfl⟩ := List.exists_cons_of_ne_nil hne
  intro hempty
  have hchars := congrArg String.toList hempty
  rw [toList_ofSegments_cons] at hchars
  exact (h s List.mem_cons_self).ne_empty
    (String.toList_eq_nil_iff.mp (List.append_eq_nil_iff.mp hchars).1)

theorem Spells.ne_empty {name : String} {segments : List String} (h : Spells name segments) :
    name ≠ "" := by
  have hne := ofSegments_ne_empty h.ne_nil h.isSegment
  rcases h.text_eq with rfl | rfl
  · exact hne
  · simp

theorem head?_ofSegments {s : String} (hs : IsSegment s) (segments : List String) :
    (ofSegments (s :: segments)).toList.head? ≠ some '\\' := by
  have hchars : s.toList ≠ [] := mt String.toList_eq_nil_iff.mp hs.ne_empty
  rw [toList_ofSegments_cons, List.head?_append_of_ne_nil _ hchars]
  exact fun h ↦ hs.noBackslash (List.mem_of_mem_head? h)

theorem dropRoot_of_spells {name : String} {segments : List String} (h : Spells name segments) :
    dropRoot name = ofSegments segments := by
  obtain ⟨s, segments, rfl⟩ := List.exists_cons_of_ne_nil h.ne_nil
  have hhead := head?_ofSegments (h.isSegment s List.mem_cons_self) segments
  have hplain : (ofSegments (s :: segments)).toList.dropWhile (· = '\\')
      = (ofSegments (s :: segments)).toList := by
    cases hchars : (ofSegments (s :: segments)).toList with
    | nil => rfl
    | cons c cs =>
      have hc : c ≠ '\\' := fun hc ↦ hhead (by rw [hchars, hc]; rfl)
      simp [hc]
  rcases h.text_eq with rfl | rfl
  · rw [dropRoot, hplain, String.ofList_toList]
  · have hroot : ("\\" ++ ofSegments (s :: segments)).toList.dropWhile (· = '\\')
        = (ofSegments (s :: segments)).toList.dropWhile (· = '\\') := by
      rw [String.toList_append]
      rfl
    rw [dropRoot, hroot, hplain, String.ofList_toList]

theorem short_ofSegments (front : List String) {last : String} (h : '\\' ∉ last.toList) :
    short (ofSegments (front ++ [last])) = last := by
  have hlast : ∀ c ∈ last.toList.reverse, decide (c ≠ '\\') = true := by
    intro c hc
    exact decide_eq_true fun heq ↦ h (heq ▸ List.mem_reverse.mp hc)
  have hchars : ∃ text, (text = [] ∨ text.head? = some '\\') ∧
      (ofSegments (front ++ [last])).toList.reverse = last.toList.reverse ++ text := by
    by_cases hfront : front = []
    · refine ⟨[], .inl rfl, ?_⟩
      rw [hfront, List.nil_append, toList_ofSegments_cons]
      simp
    · refine ⟨'\\' :: (ofSegments front).toList.reverse, .inr rfl, ?_⟩
      rw [ofSegments_append hfront (List.cons_ne_nil _ _), String.toList_append,
        String.toList_append, toList_ofSegments_cons]
      simp
  obtain ⟨text, htext, hreverse⟩ := hchars
  have hstop : text.takeWhile (· ≠ '\\') = [] := by
    rcases htext with rfl | htext
    · rfl
    · obtain ⟨cs, rfl⟩ := List.head?_eq_some_iff.mp htext
      simp
  rw [short, hreverse, List.takeWhile_append_of_pos hlast, hstop, List.append_nil,
    List.reverse_reverse, String.ofList_toList]

/-! ## Names of a source -/

/-- A name whose first segment goes on with these characters. -/
theorem exists_pieces_cons {c : Char} (hc : c ≠ '\\') (s : List Char) :
    ∃ p, Text.pieces '\\' (c :: s) = (c :: p) :: (Text.pieces '\\' s).tail := by
  rw [Text.pieces]
  cases hpieces : Text.pieces '\\' s with
  | nil => exact absurd hpieces (Text.pieces_ne_nil _ s)
  | cons p more => exact ⟨p, if_neg hc⟩

/-- Behind each backslash of a name there is a segment. -/
theorem ne_nil_of_mem_tail_pieces {s : List Char} (h : IsNameTail s) :
    ∀ p ∈ (Text.pieces '\\' s).tail, p ≠ [] := by
  induction s with
  | nil => simp [Text.pieces]
  | cons c s ih =>
    obtain ⟨hc, hs⟩ := h
    by_cases hslash : c = '\\'
    · obtain ⟨-, hnext⟩ := hc.resolve_left (by rw [hslash]; decide)
      obtain ⟨d, s, rfl⟩ : ∃ d t, s = d :: t := by
        cases s with
        | nil => simp at hnext
        | cons d t => exact ⟨d, t, rfl⟩
      have hd : d ≠ '\\' := by
        rintro rfl
        have hslash : isNameStart '\\' = false := by decide
        simp [hslash] at hnext
      obtain ⟨p, hpieces⟩ := exists_pieces_cons hd s
      have hmore := ih hs
      rw [hpieces] at hmore
      rw [Text.pieces, hpieces, hslash]
      intro q hq
      rcases List.mem_cons.mp hq with rfl | hq
      · exact List.cons_ne_nil _ _
      · exact hmore q hq
    · obtain ⟨p, hpieces⟩ := exists_pieces_cons hslash s
      rw [hpieces]
      exact ih hs

theorem isSegment_of_mem_segments {name s : String} (h : s ∈ segments name) : IsSegment s := by
  obtain ⟨p, hp, rfl⟩ := List.mem_map.mp h
  obtain ⟨hmem, hne⟩ := List.mem_filter.mp hp
  refine ⟨fun hempty ↦ ?_, ?_⟩
  · exact of_decide_eq_true hne (String.ofList_eq_empty_iff.mp hempty)
  · rw [String.toList_ofList]
    exact Text.notMem_of_mem_pieces hmem

/-- The pieces of a name that starts with a letter are its segments. -/
theorem pieces_of_isNameStart {c : Char} {s : List Char} (hc : isNameStart c = true)
    (hs : IsNameTail s) :
    ((Text.pieces '\\' (c :: s)).filter (· ≠ [])).map String.ofList ≠ [] ∧
      ofSegments (((Text.pieces '\\' (c :: s)).filter (· ≠ [])).map String.ofList)
        = String.ofList (c :: s) := by
  have hslash : c ≠ '\\' := by
    rintro rfl
    exact absurd hc (by decide)
  have hne : ∀ p ∈ Text.pieces '\\' (c :: s), p ≠ [] := by
    obtain ⟨p, hpieces⟩ := exists_pieces_cons hslash s
    rw [hpieces]
    exact List.forall_mem_cons.mpr ⟨List.cons_ne_nil c p, ne_nil_of_mem_tail_pieces hs⟩
  have hall : (Text.pieces '\\' (c :: s)).filter (· ≠ []) = Text.pieces '\\' (c :: s) :=
    List.filter_eq_self.mpr fun p hp ↦ decide_eq_true (hne p hp)
  have hlists : ((Text.pieces '\\' (c :: s)).map String.ofList).map String.toList
      = Text.pieces '\\' (c :: s) := by simp [List.map_map, Function.comp_def]
  rw [hall, ofSegments, hlists, Text.join_pieces]
  exact ⟨by simpa using Text.pieces_ne_nil _ _, rfl⟩

/-- What can be read as a name has segments. -/
theorem spells_segments {name : String} (h : IsName name.toList) : Spells name (segments name) := by
  obtain ⟨hstart, htail, hne⟩ := h
  obtain ⟨c, s, hname⟩ := List.exists_cons_of_ne_nil hne
  obtain ⟨-, hc⟩ := hstart c s hname
  rw [hname, List.tail_cons] at htail
  have hsegment : ∀ s ∈ segments name, IsSegment s := fun _ ↦ isSegment_of_mem_segments
  rcases hc with hc | ⟨rfl, hnext⟩
  · obtain ⟨hsegments, htext⟩ := pieces_of_isNameStart hc htail
    rw [← hname] at hsegments htext
    exact ⟨hsegments, hsegment, .inl (by rw [segments, htext, String.ofList_toList])⟩
  · -- the root is followed by a name without one
    cases s with
    | nil => simp at hnext
    | cons d s =>
      obtain ⟨hsegments, htext⟩ := pieces_of_isNameStart hnext htail.2
      have hroot : segments name
          = ((Text.pieces '\\' (d :: s)).filter (· ≠ [])).map String.ofList := by
        rw [segments, hname]
        have hpieces := Text.pieces_append_cons (c := '\\') [] (d :: s)
        rw [List.nil_append] at hpieces
        rw [hpieces]
        rfl
      rw [← hroot] at hsegments htext
      refine ⟨hsegments, hsegment, .inr (String.toList_injective ?_)⟩
      simp [htext, hname]

end Name

namespace Lexeme

theorem head?_nameTail {s : List Char} (h : s.head?.any isNameStart = true) :
    (nameTail s).head?.any isNameStart = true := by
  cases s with
  | nil => simp at h
  | cons d s =>
    have hd : isNameStart d = true := h
    rw [nameTail, isNameChar_of_isNameStart hd, Bool.true_or, if_pos rfl]
    exact hd

theorem isNameTail_nameTail (s : List Char) : IsNameTail (nameTail s) := by
  induction s with
  | nil => trivial
  | cons c s ih =>
    rw [nameTail]
    split
    · rename_i hc
      simp only [Bool.or_eq_true, Bool.and_eq_true, beq_iff_eq] at hc
      exact ⟨hc.imp_right (And.imp_right head?_nameTail), ih⟩
    · trivial

theorem number_kind_ne (s : List Char) (text : String) :
    (number s).kind ≠ some (.name text) := by
  unfold number
  split
  · split
    · rw [hexadecimal]
      split <;> simp
    · rw [decimal]
      split
      · split <;> simp
      · simp
  · rw [decimal]
    split
    · split <;> simp
    · simp

theorem heredoc_kind_ne (s : List Char) (text : String) :
    (heredoc s).kind ≠ some (.name text) := by
  unfold heredoc heredocBody
  simp only
  split <;> simp

theorem symbol_kind_ne (c : Char) (s : List Char) (text : String) :
    (symbol c s).kind ≠ some (.name text) := by
  unfold symbol
  split
  · split <;> simp
  · simp

/-- A lexeme with a name as its token is a name. -/
theorem isName_of_first {c : Char} {s : List Char} {text : String}
    (h : (first c s).kind = some (.name text)) : IsName text.toList := by
  unfold first at h
  split at h
  · simp at h
  rename_i hblank
  split at h
  · simp at h
  split at h
  · dsimp only at h
    exact absurd h (heredoc_kind_ne (s.drop 2) text)
  split at h
  · simp at h
  split at h
  · simp at h
  split at h
  · simp at h
  split at h
  · simp [quoted] at h
  split at h
  · simp at h
  split at h
  · exact absurd h (number_kind_ne (c :: s) text)
  split at h
  · rename_i hname
    obtain rfl := Token.Kind.name.inj (Option.some.inj h)
    rw [String.toList_ofList]
    refine ⟨?_, isNameTail_nameTail s, List.cons_ne_nil _ _⟩
    rintro d t heq
    obtain ⟨rfl, rfl⟩ := List.cons.inj heq
    exact ⟨Bool.eq_false_iff.mpr hblank, hname.imp_right (And.imp_right head?_nameTail)⟩
  · exact absurd h (symbol_kind_ne c s text)

theorem isName_of_mem_all {skip : Nat} {s : List Char} {l : Lexeme} (h : l ∈ all skip s)
    {text : String} (hl : l.kind = some (.name text)) : IsName text.toList := by
  fun_induction all skip s with
  | case1 => simp at h
  | case2 skip c s ih => exact ih h
  | case3 c s ih =>
    rcases List.mem_cons.mp h with rfl | h
    · exact isName_of_first hl
    · exact ih h

end Lexeme

/-- The names of a source have segments. -/
theorem spells_of_mem_tokens {source : String} {t : Token} (ht : t ∈ tokens source) {name : String}
    (hname : t.kind = .name name) : Name.Spells name (Name.segments name) := by
  obtain ⟨l, hl, hkind⟩ := Lexeme.exists_of_mem_tokens ht
  exact Name.spells_segments (Lexeme.isName_of_mem_all hl (hkind.trans (congrArg some hname)))

/-! ## Names in a scope -/

namespace Scope

/-- A rooted name is itself without the root. -/
theorem resolve_rooted (scope : Scope) (name : String) : scope.resolve ("\\" ++ name) = name := by
  have hchars : ("\\" ++ name).toList = '\\' :: name.toList := by simp
  rw [resolve, hchars]
  exact String.ofList_toList

/-- The first segment of any other name decides what the name stands for. -/
theorem resolve_ofSegments (scope : Scope) {head : String} (h : Name.IsSegment head)
    (more : List String) : scope.resolve (Name.ofSegments (head :: more))
      = match Ordered.get? head.toLower scope.imports with
        | some imported => Name.ofSegments (imported :: more)
        | none => Name.inside scope.space (Name.ofSegments (head :: more)) := by
  have hhead := Name.head?_ofSegments h more
  have hchars := Name.toList_ofSegments_cons head more
  have hfree : ∀ c ∈ head.toList, decide (c ≠ '\\') = true := fun c hc ↦
    decide_eq_true fun heq ↦ h.noBackslash (heq ▸ hc)
  have hstop : (more.flatMap ('\\' :: ·.toList)).takeWhile (· ≠ '\\') = [] := by
    cases more <;> simp
  have hrest : (more.flatMap ('\\' :: ·.toList)).dropWhile (· ≠ '\\')
      = more.flatMap ('\\' :: ·.toList) := by
    cases more <;> simp
  have hfirst : (Name.ofSegments (head :: more)).toList.takeWhile (· ≠ '\\') = head.toList := by
    rw [hchars, List.takeWhile_append_of_pos hfree, hstop, List.append_nil]
  have hmore : (Name.ofSegments (head :: more)).toList.dropWhile (· ≠ '\\')
      = more.flatMap ('\\' :: ·.toList) := by
    rw [hchars, List.dropWhile_append_of_pos hfree, hrest]
  unfold resolve
  split
  · rename_i heq
    rw [heq] at hhead
    exact absurd rfl hhead
  · simp only [hfirst, hmore, String.ofList_toList]
    cases Ordered.get? head.toLower scope.imports with
    | none => rfl
    | some imported =>
      refine String.toList_injective ?_
      rw [String.toList_append, String.toList_ofList, Name.toList_ofSegments_cons]

end Scope

end FrontendSync.Php
