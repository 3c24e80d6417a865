import FrontendSync.Locale.Syntax.Plural
import FrontendSync.Proofs.Text.Pieces
import FrontendSync.Proofs.Text.Property
import FrontendSync.Proofs.Text.Trim

/-!
# Markers of plural texts

What is read as a marker is exactly what is written as one, and a segment is a piece between bars
without the marker at its front and the blanks around.
-/

namespace FrontendSync.Locale

open FrontendSync.Text

/-- A count in digits of any script. -/
def IsCount (n : List Char) : Prop := n ≠ [] ∧ ∀ c ∈ n, isDecimalDigit c = true

/-- A marker as it is written: `{2}`, `[2,5]` or `[2,*]`, with blanks around the comma if any. -/
inductive IsMarker : List Char → Prop
  | count {n : List Char} : IsCount n → IsMarker ('{' :: (n ++ ['}']))
  | range {low front back high : List Char} : IsCount low → (∀ c ∈ front, isBlank c = true) →
      (∀ c ∈ back, isBlank c = true) → (IsCount high ∨ high = ['*']) →
      IsMarker ('[' :: (low ++ (front ++ ',' :: (back ++ (high ++ [']'])))))

/-- What is left of a text without the marker at its front, and without blanks in front of that;
the whole text if there is no marker. -/
inductive Unmarks : List Char → List Char → Prop
  | marked {front marker rest : List Char} : (∀ c ∈ front, isBlank c = true) → IsMarker marker →
      Unmarks (front ++ (marker ++ rest)) rest
  | plain {s : List Char} : (∀ front marker rest, (∀ c ∈ front, isBlank c = true) →
      IsMarker marker → s ≠ front ++ (marker ++ rest)) → Unmarks s s

variable {n s rest : List Char} {c : Char}

theorem isDecimalDigit_eq_false_of_isBlank (h : isBlank c = true) : isDecimalDigit c = false :=
  within_eq_false_of_areDisjoint (by decide +kernel) h

/-- A marker is made of digits, blanks and some signs. -/
theorem IsMarker.of_mem {marker : List Char} (h : IsMarker marker) (hc : c ∈ marker) :
    isDecimalDigit c = true ∨ isBlank c = true ∨ c ∈ ['{', '}', '[', ']', ',', '*'] := by
  cases h with
  | count hn =>
    rcases List.mem_cons.mp hc with rfl | hc
    · exact .inr (.inr (by simp))
    rcases List.mem_append.mp hc with hc | hc
    · exact .inl (hn.2 c hc)
    · exact .inr (.inr (by simp [List.mem_singleton.mp hc]))
  | range hlow hfront hback hhigh =>
    simp only [List.mem_cons, List.mem_append, List.not_mem_nil, or_false] at hc
    rcases hc with rfl | hc | hc | rfl | hc | hc | rfl
    · exact .inr (.inr (by simp))
    · exact .inl (hlow.2 c hc)
    · exact .inr (.inl (hfront c hc))
    · exact .inr (.inr (by simp))
    · exact .inr (.inl (hback c hc))
    · rcases hhigh with hhigh | rfl
      · exact .inl (hhigh.2 c hc)
      · exact .inr (.inr (by simp [List.mem_singleton.mp hc]))
    · exact .inr (.inr (by simp))

theorem IsMarker.colon_notMem {marker : List Char} (h : IsMarker marker) : ':' ∉ marker := by
  have hsign : isDecimalDigit ':' = false ∧ isBlank ':' = false := by decide +kernel
  intro hmem
  simpa [hsign] using h.of_mem hmem

theorem isBlank_eq_false_of_isDecimalDigit (h : isDecimalDigit c = true) : isBlank c = false := by
  refine Bool.eq_false_iff.mpr fun hblank ↦ ?_
  exact Bool.noConfusion ((isDecimalDigit_eq_false_of_isBlank hblank).symm.trans h)

/-! ## Reading a marker -/

/-- A count goes on as far as there are digits. -/
theorem count?_eq_some_iff : count? s = some (n, rest) ↔
    s = n ++ rest ∧ IsCount n ∧ ∀ c ∈ rest.head?, isDecimalDigit c = false := by
  have hleft : (s.takeWhile isDecimalDigit ++ s.dropWhile isDecimalDigit).drop
      (s.takeWhile isDecimalDigit).length = s.dropWhile isDecimalDigit := List.drop_left
  rw [List.takeWhile_append_dropWhile] at hleft
  simp only [count?, hleft]
  constructor
  · intro h
    split at h
    · simp at h
    · rename_i hne
      obtain ⟨rfl, rfl⟩ := Prod.mk.inj (Option.some.inj h)
      refine ⟨List.takeWhile_append_dropWhile.symm, ⟨hne, fun c hc ↦ ?_⟩, fun c hc ↦ ?_⟩
      · exact List.all_eq_true.mp List.all_takeWhile c hc
      · have hhead := List.head?_dropWhile_not isDecimalDigit s
        rw [Option.mem_def.mp hc] at hhead
        simpa using hhead
  · rintro ⟨rfl, ⟨hne, hn⟩, hrest⟩
    have htake : (n ++ rest).takeWhile isDecimalDigit = n := by
      rw [List.takeWhile_append_of_pos hn]
      cases rest with
      | nil => simp
      | cons c rest => simp [hrest c rfl]
    have hdrop : (n ++ rest).dropWhile isDecimalDigit = rest := by
      rw [List.dropWhile_append_of_pos hn]
      cases rest with
      | nil => rfl
      | cons c rest => rw [List.dropWhile_cons_of_neg (by simp [hrest c rfl])]
    rw [htake, hdrop, if_neg hne]

theorem upperBound?_eq_some_iff : upperBound? s = some (n, rest) ↔ s = n ++ rest ∧
    (IsCount n ∧ (∀ c ∈ rest.head?, isDecimalDigit c = false) ∨ n = ['*']) := by
  have hstar : isDecimalDigit '*' = false := by decide +kernel
  rw [upperBound?.eq_def]
  split
  · rename_i s
    simp only [Option.some.injEq, Prod.mk.injEq]
    constructor
    · rintro ⟨rfl, rfl⟩
      exact ⟨rfl, .inr rfl⟩
    · rintro ⟨heq, ⟨⟨hne, hn⟩, -⟩ | rfl⟩
      · obtain ⟨c, n, rfl⟩ := List.exists_cons_of_ne_nil hne
        obtain ⟨rfl, -⟩ := List.cons.inj heq
        exact Bool.noConfusion (hstar.symm.trans (hn '*' List.mem_cons_self))
      · exact ⟨rfl, (List.cons.inj heq).2⟩
  · rename_i hs
    rw [count?_eq_some_iff]
    constructor
    · rintro ⟨rfl, hn⟩
      exact ⟨rfl, .inl hn⟩
    · rintro ⟨rfl, hn | rfl⟩
      · exact ⟨rfl, hn⟩
      · exact absurd rfl (hs rest)

/-- The form that a marker is for does not hang on what follows it. -/
theorem IsMarker.append_eq {marker : List Char} (h : IsMarker marker) :
    ∃ form, ∀ rest, marker? (marker ++ rest) = some (form, rest) := by
  have hbrace : isDecimalDigit '}' = false := by decide +kernel
  have hbracket : isDecimalDigit ']' = false := by decide +kernel
  have hcomma : isDecimalDigit ',' = false := by decide +kernel
  cases h with
  | @count n hn =>
    refine ⟨PluralForm.ofRange n n, fun rest ↦ ?_⟩
    have hcount : count? (n ++ '}' :: rest) = some (n, '}' :: rest) :=
      count?_eq_some_iff.mpr ⟨rfl, hn, by simpa using hbrace⟩
    simp [marker?, hcount]
  | @range low front back high hlow hfront hback hhigh =>
    refine ⟨PluralForm.ofRange low high, fun rest ↦ ?_⟩
    -- what follows the lower bound, and what follows the comma
    have hcount : count? (low ++ (front ++ ',' :: (back ++ (high ++ ']' :: rest))))
        = some (low, front ++ ',' :: (back ++ (high ++ ']' :: rest))) := by
      refine count?_eq_some_iff.mpr ⟨rfl, hlow, fun c hc ↦ ?_⟩
      cases front with
      | nil => exact Option.some.inj hc ▸ hcomma
      | cons d front =>
        obtain rfl := Option.some.inj hc
        exact isDecimalDigit_eq_false_of_isBlank (hfront d List.mem_cons_self)
    have hstart : trimStart (front ++ ',' :: (back ++ (high ++ ']' :: rest)))
        = ',' :: (back ++ (high ++ ']' :: rest)) :=
      trimStart_append hfront (by simp; decide)
    have hbound : upperBound? (high ++ ']' :: rest) = some (high, ']' :: rest) :=
      upperBound?_eq_some_iff.mpr ⟨rfl, hhigh.imp_left fun hhigh ↦ ⟨hhigh, by simpa using hbracket⟩⟩
    have hhead : ∀ c ∈ (high ++ ']' :: rest).head?, isBlank c = false := by
      rcases hhigh with ⟨hne, hhigh⟩ | rfl
      · obtain ⟨c, high, rfl⟩ := List.exists_cons_of_ne_nil hne
        simpa using isBlank_eq_false_of_isDecimalDigit (hhigh c List.mem_cons_self)
      · simp; decide
    simp [marker?, hcount, hstart, trimStart_append hback hhead, hbound]

/-- What is read as a marker is one, and every marker is read. -/
theorem exists_marker?_eq_some_iff : (∃ form, marker? s = some (form, rest)) ↔
    ∃ marker, IsMarker marker ∧ s = marker ++ rest := by
  constructor
  · rintro ⟨form, h⟩
    rw [marker?.eq_def] at h
    split at h
    · split at h
      · rename_i n _ heq
        obtain ⟨-, rfl⟩ := Prod.mk.inj (Option.some.inj h)
        obtain ⟨rfl, hn, -⟩ := count?_eq_some_iff.mp heq
        exact ⟨_, .count hn, by simp⟩
      · simp at h
    · split at h
      · simp at h
      · rename_i low s heq
        obtain ⟨rfl, hlow, -⟩ := count?_eq_some_iff.mp heq
        split at h
        · rename_i s' heq'
          split at h
          · rename_i high s'' heq''
            obtain ⟨-, rfl⟩ := Prod.mk.inj (Option.some.inj h)
            obtain ⟨front, hfront, hs⟩ := exists_eq_append_trimStart s
            obtain ⟨back, hback, hs'⟩ := exists_eq_append_trimStart s'
            obtain ⟨htail, hhigh⟩ := upperBound?_eq_some_iff.mp heq''
            refine ⟨_, .range hlow hfront hback (hhigh.imp_left And.left), ?_⟩
            rw [hs, heq', hs', htail]
            simp
          · simp at h
        · simp at h
    · simp at h
  · rintro ⟨marker, hmarker, rfl⟩
    obtain ⟨form, hform⟩ := hmarker.append_eq
    exact ⟨form, hform rest⟩

/-! ## Segments -/

/-- The marker of a segment, if it has one at its front, and what is left. -/
theorem ofText_cases (s : List Char) :
    (∃ front marker rest form, (∀ c ∈ front, isBlank c = true) ∧ IsMarker marker ∧
      s = front ++ (marker ++ rest) ∧ Segment.ofText s = ⟨some form, trim rest⟩) ∨
    (Unmarks s s ∧ Segment.ofText s = ⟨none, trim s⟩) := by
  rw [Segment.ofText]
  split
  · rename_i form rest heq
    obtain ⟨marker, hmarker, hs⟩ := exists_marker?_eq_some_iff.mp ⟨form, heq⟩
    obtain ⟨front, hfront, hs'⟩ := exists_eq_append_trimStart s
    exact .inl ⟨front, marker, rest, form, hfront, hmarker, hs ▸ hs', rfl⟩
  · rename_i hnone
    refine .inr ⟨.plain ?_, rfl⟩
    rintro front marker rest hfront hmarker rfl
    have hhead : ∀ c ∈ (marker ++ rest).head?, isBlank c = false := by
      cases hmarker <;> simp <;> decide
    obtain ⟨form, hsome⟩ := hmarker.append_eq
    rw [trimStart_append hfront hhead, hsome rest] at hnone
    exact absurd hnone (by simp)

/-- The text of a segment is what its marker leaves, trimmed. -/
theorem exists_unmarks_ofText (s : List Char) :
    ∃ rest, Unmarks s rest ∧ (Segment.ofText s).text = trim rest := by
  rcases ofText_cases s with ⟨front, marker, rest, form, hfront, hmarker, rfl, heq⟩ | ⟨hplain, heq⟩
  · exact ⟨rest, .marked hfront hmarker, by rw [heq]⟩
  · exact ⟨s, hplain, by rw [heq]⟩

/-- The text of a segment stands in it between a marker or blanks and blanks; with nothing around
it, it is the whole segment. -/
theorem exists_eq_append_ofText (s : List Char) : ∃ front back,
    s = front ++ ((Segment.ofText s).text ++ back) ∧ ':' ∉ front ∧
      (∀ c ∈ back, isBlank c = true) ∧ (front = [] → back = [] → Segment.ofText s = ⟨none, s⟩) := by
  have hcolon {blanks : List Char} (h : ∀ c ∈ blanks, isBlank c = true) : ':' ∉ blanks :=
    fun hmem ↦ absurd (h ':' hmem) (by decide)
  rcases ofText_cases s with ⟨front, marker, rest, form, hfront, hmarker, hs, heq⟩ | ⟨-, heq⟩
  · obtain ⟨blanks, back, hblanks, hback, hrest⟩ := exists_eq_append_trim rest
    refine ⟨front ++ (marker ++ blanks), back, ?_, ?_, hback, fun hnil ↦ ?_⟩
    · rw [heq, hs]
      simp only [List.append_assoc, ← hrest]
    · rw [List.mem_append, List.mem_append]
      rintro (hmem | hmem | hmem)
      · exact hcolon hfront hmem
      · exact hmarker.colon_notMem hmem
      · exact hcolon hblanks hmem
    · cases hmarker <;> simp at hnil
  · obtain ⟨front, back, hfront, hback, hs⟩ := exists_eq_append_trim s
    refine ⟨front, back, by rw [heq]; exact hs, hcolon hfront, hback, ?_⟩
    rintro rfl rfl
    rw [List.nil_append, List.append_nil] at hs
    rw [heq, ← hs]

end FrontendSync.Locale
