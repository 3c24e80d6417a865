import FrontendSync.Proofs.Locale.Bundle
import FrontendSync.Proofs.Locale.Places
import FrontendSync.Proofs.Locale.Syntax.Parameter
import FrontendSync.Proofs.Locale.Syntax.Plural

/-!
# Data of one shape

An adapter that replaces each text by one text does nothing to the shape of data: the same keys and
positions lead to the same places.  Those for Vue and for plain text also keep the bars of every
text, and write its segments between them.
-/

namespace FrontendSync.Locale

open FrontendSync.Text FrontendSync.Tree

/-- What stands at one place of two data of the same shape: maps with the same keys in the same
order, lists of the same length, equal scalars, or texts that `R` relates. -/
inductive SameNode (R : String → String → Prop) : Tree → Tree → Prop
  | null : SameNode R .null .null
  | bool (b : Bool) : SameNode R (.bool b) (.bool b)
  | int (n : Int) : SameNode R (.int n) (.int n)
  | float (x : Binary64) : SameNode R (.float x) (.float x)
  | text {s s' : String} : R s s' → SameNode R (.text s) (.text s')
  | list {ts ts' : List Tree} : ts'.length = ts.length → SameNode R (.list ts) (.list ts')
  | map {ms ms' : Members} : Ordered.keys ms' = Ordered.keys ms → SameNode R (.map ms) (.map ms')

/-- Two data have the same places, and what stands there has the same shape. -/
def SameShape (R : String → String → Prop) (t t' : Tree) : Prop :=
  ∀ place, Option.Rel (SameNode R) (t.at? place) (t'.at? place)

/-- A segment without the marker at its front and the blanks around, with its parameters between
braces. -/
def IsForm (segment form : List Char) : Prop :=
  ∃ rest, Unmarks segment rest ∧ form = Brackets.single.substitute (trim rest)

/-- A text with as many bars as another one, whose segments stand in order between separators if it
is plural. -/
structure IsRejoined (separator s s' : String) : Prop where
  bars : s'.toList.count '|' = s.toList.count '|'
  forms : isPlural s.toList = true →
    List.Forall₂ IsForm (pieces '|' s.toList) (piecesAt separator.toList s'.toList)
  plain : isPlural s.toList = false → s'.toList = Brackets.single.substitute s.toList

/-! ## Bars and segments -/

/-- Braces around parameters bring no bar in. -/
theorem notMem_substitute_single {s : List Char} (h : '|' ∉ s) :
    '|' ∉ Brackets.single.substitute s := by
  intro hmem
  rcases mem_of_mem_substitute hmem with hmem | hmem | hmem
  · exact h hmem
  · exact absurd hmem (by decide)
  · exact absurd hmem (by decide)

theorem notMem_ofText {piece : List Char} (h : '|' ∉ piece) : '|' ∉ (Segment.ofText piece).text := by
  obtain ⟨front, back, heq, -⟩ := exists_eq_append_ofText piece
  intro hmem
  rw [heq] at h
  exact h (List.mem_append_right _ (List.mem_append_left _ hmem))

theorem isForm_ofText (piece : List Char) :
    IsForm piece (Brackets.single.substitute (Segment.ofText piece).text) := by
  obtain ⟨rest, hrest, htext⟩ := exists_unmarks_ofText piece
  exact ⟨rest, hrest, by rw [htext]⟩

/-- No segment has a bar, so the bars are those of the separators, one between two segments. -/
theorem isRejoined_joinForms {front back : List Char} (hfront : '|' ∉ front) (hback : '|' ∉ back)
    (s : String) : IsRejoined (String.ofList (front ++ '|' :: back)) s
      (String.ofList (Adapter.joinForms (front ++ '|' :: back) s.toList)) := by
  rw [Adapter.joinForms]
  split
  · rename_i hplural
    have hforms : (Locale.segments s.toList).map (fun seg ↦ Brackets.single.substitute seg.text)
        = (pieces '|' s.toList).map
          fun piece ↦ Brackets.single.substitute (Segment.ofText piece).text := by
      rw [Locale.segments, List.map_map]
      rfl
    have hnone : ∀ form ∈ (pieces '|' s.toList).map
        (fun piece ↦ Brackets.single.substitute (Segment.ofText piece).text), '|' ∉ form := by
      intro form hform
      obtain ⟨piece, hpiece, rfl⟩ := List.mem_map.mp hform
      exact notMem_substitute_single (notMem_ofText (notMem_of_mem_pieces hpiece))
    rw [hforms]
    refine ⟨?_, fun _ ↦ ?_, fun hplain ↦ Bool.noConfusion (hplain.symm.trans hplural)⟩
    · rw [String.toList_ofList, count_intercalate hnone, List.length_map, length_pieces]
      simp [List.count_eq_zero.mpr hfront, List.count_eq_zero.mpr hback]
    · rw [String.toList_ofList, String.toList_ofList, piecesAt_intercalate hfront ?_ hnone]
      · exact List.forall₂_map_right_iff.mpr (List.forall₂_same.mpr fun piece _ ↦ isForm_ofText piece)
      · simpa using pieces_ne_nil '|' s.toList
  · rename_i hplain
    have hbar : '|' ∉ s.toList := by
      intro hmem
      refine hplain ?_
      simp [isPlural, hmem]
    refine ⟨?_, fun hplural ↦ absurd hplural hplain, fun _ ↦ String.toList_ofList⟩
    rw [String.toList_ofList, List.count_eq_zero.mpr hbar,
      List.count_eq_zero.mpr (notMem_substitute_single hbar)]

namespace Adapter

variable {a : Adapter} {f : String → String} {R : String → String → Prop} {ms : Members}

/-! ## Adapters that keep the shape -/

/-- Each text becomes one text, whatever its key is. -/
def Rewrites (a : Adapter) (f : String → String) : Prop :=
  ∀ k s, a.expand k s = [(k, .text (f s))]

theorem Rewrites.isSingular (h : a.Rewrites f) : a.IsSingular := fun k s ↦ ⟨f s, h k s⟩

theorem Rewrites.inList_text (h : a.Rewrites f) (s : String) :
    a.inList (.text s) = .text (f s) := by
  rw [inList, item, h]

/-- A member and an item are adapted in the same way. -/
theorem Rewrites.adaptAt_eq (h : a.Rewrites f) (k : String) (t : Tree) :
    a.adaptAt k t = a.inList t := by
  cases t with
  | text s =>
    rw [adaptAt, h, h.inList_text]
    rfl
  | null | bool _ | int _ | float _ | list _ | map _ => rfl

theorem Rewrites.inList_map (h : a.Rewrites f) (hms : (Ordered.keys ms).Nodup) :
    a.inList (.map ms) = .map (ms.map fun m ↦ (m.1, a.inList m.2)) := by
  rw [inList_of_ne (by simp), adapt, ← transform, transform_eq h.isSingular hms]
  simp only [h.adaptAt_eq]

theorem inList_list (a : Adapter) (ts : List Tree) :
    a.inList (.list ts) = .list (ts.map a.inList) := by
  rw [inList_of_ne (by simp), adapt, adaptItems_eq_map]

theorem Rewrites.sameNode_inList (h : a.Rewrites f) (hR : ∀ s, R s (f s)) {t : Tree}
    (ht : t.WellFormed) : SameNode R t (a.inList t) := by
  cases ht with
  | null => exact .null
  | bool b => exact .bool b
  | int _ => exact .int _
  | float _ => exact .float _
  | text s =>
    rw [h.inList_text]
    exact .text (hR s)
  | list _ =>
    rw [inList_list]
    exact .list (List.length_map _)
  | map hkeys _ =>
    rw [h.inList_map hkeys]
    exact .map (by rw [Ordered.keys, List.map_map]; rfl)

/-- Going one step into the data and adapting what is there comes to the same. -/
theorem Rewrites.sameShape_inList (h : a.Rewrites f) (hR : ∀ s, R s (f s)) {t : Tree}
    (ht : t.WellFormed) : SameShape R t (a.inList t) := by
  intro place
  induction place generalizing t with
  | nil =>
    rw [at?_nil, at?_nil]
    exact .some (h.sameNode_inList hR ht)
  | cons step place ih =>
    cases ht with
    | null | bool _ | int _ | float _ => cases step <;> exact .none
    | text s =>
      rw [h.inList_text]
      cases step <;> exact .none
    | @list ts hts =>
      rw [inList_list]
      cases step with
      | key k => exact .none
      | index i =>
        rw [at?_index, at?_index, List.getElem?_map]
        cases hi : ts[i]? with
        | none => exact .none
        | some t => exact ih (hts t (List.mem_of_getElem? hi))
    | @map ms hkeys hms =>
      rw [h.inList_map hkeys]
      cases step with
      | index i => exact .none
      | key k =>
        rw [at?_key, at?_key, Ordered.get?_map]
        cases hk : Ordered.get? k ms with
        | none => exact .none
        | some t => exact ih (hms _ (Ordered.mem_of_get?_eq_some hk))

theorem Rewrites.sameShape_transform (h : a.Rewrites f) (hR : ∀ s, R s (f s))
    (hms : (Tree.map ms).WellFormed) : SameShape R (.map ms) (.map (a.transform ms)) :=
  h.sameShape_inList hR hms

/-- Plural texts, one of them with empty segments, at different depths. -/
def pluralPhrases : Members :=
  [("apples", .text "{1} :n apple|[2,*] :n apples"), ("lines", .list [.text "a||:b", .int 3])]

end Adapter

end FrontendSync.Locale
