import FrontendSync.Text.Trim
import Mathlib.Data.List.Basic

/-!
# Trimmed texts

A text is its trimmed part between blanks, and trimming takes off no more than these.
-/

namespace FrontendSync.Text

theorem exists_eq_append_trimStart (s : List Char) : ∃ front,
    (∀ c ∈ front, isBlank c = true) ∧ s = front ++ trimStart s :=
  ⟨s.takeWhile isBlank, fun c hc ↦ List.all_eq_true.mp List.all_takeWhile c hc,
    List.takeWhile_append_dropWhile.symm⟩

/-- A text is its trimmed part between blanks. -/
theorem exists_eq_append_trim (s : List Char) : ∃ front back,
    (∀ c ∈ front, isBlank c = true) ∧ (∀ c ∈ back, isBlank c = true) ∧
      s = front ++ (trim s ++ back) := by
  obtain ⟨front, hfront, hs⟩ := exists_eq_append_trimStart s
  obtain ⟨back, hback, hs'⟩ := exists_eq_append_trimStart (trimStart s).reverse
  refine ⟨front, back.reverse, hfront, fun c hc ↦ hback c (List.mem_reverse.mp hc), ?_⟩
  have hend : trimStart s = trim s ++ back.reverse := by
    rw [trim, trimEnd, ← List.reverse_append, ← hs', List.reverse_reverse]
  rwa [← hend]

theorem trimStart_append {indent s : List Char} (h : ∀ c ∈ indent, isBlank c = true)
    (hs : ∀ c ∈ s.head?, isBlank c = false) : trimStart (indent ++ s) = s := by
  rw [trimStart, List.dropWhile_append_of_pos h]
  cases s with
  | nil => rfl
  | cons c s => rw [List.dropWhile_cons_of_neg (by simp [hs c rfl])]

theorem isBlank_of_mem_head?_trimStart {s : List Char} {c : Char} (h : c ∈ (trimStart s).head?) :
    isBlank c = false := by
  have hhead := List.head?_dropWhile_not isBlank s
  rw [← trimStart, Option.mem_def.mp h] at hhead
  simpa using hhead

theorem trimEnd_append {s indent : List Char} (h : ∀ c ∈ indent, isBlank c = true)
    (hs : ∀ c ∈ s.getLast?, isBlank c = false) : trimEnd (s ++ indent) = s := by
  have hhead : ∀ c ∈ s.reverse.head?, isBlank c = false := by simpa using hs
  rw [trimEnd, List.reverse_append,
    trimStart_append (fun c hc ↦ h c (List.mem_reverse.mp hc)) hhead, List.reverse_reverse]

/-- What stands between blanks and neither starts nor ends with one is what trimming leaves. -/
theorem trim_append_append {front s back : List Char} (hfront : ∀ c ∈ front, isBlank c = true)
    (hback : ∀ c ∈ back, isBlank c = true) (hhead : ∀ c ∈ s.head?, isBlank c = false)
    (hlast : ∀ c ∈ s.getLast?, isBlank c = false) : trim (front ++ (s ++ back)) = s := by
  cases s with
  | nil =>
    have hblank : ∀ c ∈ front ++ back, isBlank c = true := fun c hc ↦
      (List.mem_append.mp hc).elim (hfront c) (hback c)
    have hstart : trimStart (front ++ back) = [] := by
      simpa using trimStart_append (s := []) hblank (by simp)
    rw [List.nil_append, trim, hstart]
    rfl
  | cons c s =>
    rw [trim, trimStart_append hfront (by simpa using hhead), trimEnd_append hback hlast]

/-- Trimming leaves no blank at either end. -/
theorem isBlank_of_mem_ends_trim {s : List Char} {c : Char}
    (h : c ∈ (trim s).head? ∨ c ∈ (trim s).getLast?) : isBlank c = false := by
  rcases h with h | h
  · obtain ⟨back, -, hs⟩ := exists_eq_append_trimStart (trimStart s).reverse
    have hstart : trimStart s = trim s ++ back.reverse := by
      rw [trim, trimEnd, ← List.reverse_append, ← hs, List.reverse_reverse]
    refine isBlank_of_mem_head?_trimStart (s := s) ?_
    rw [hstart, List.head?_append, Option.mem_def.mp h]
    rfl
  · rw [trim, trimEnd, List.getLast?_reverse] at h
    exact isBlank_of_mem_head?_trimStart h

theorem length_trimStart_le (s : List Char) : (trimStart s).length ≤ s.length :=
  (List.dropWhile_sublist _).length_le

theorem length_trimEnd_le (s : List Char) : (trimEnd s).length ≤ s.length := by
  have h := length_trimStart_le s.reverse
  rwa [List.length_reverse, ← List.length_reverse] at h

/-- Nothing is taken off either end of a trimmed text. -/
theorem trimStart_and_trimEnd_of_trim {s : List Char} (h : trim s = s) :
    trimStart s = s ∧ trimEnd s = s := by
  have hlength : s.length ≤ (trimStart s).length := by
    have hle := length_trimEnd_le (trimStart s)
    rw [← trim, h] at hle
    exact hle
  have hstart : trimStart s = s := (List.dropWhile_suffix _).eq_of_length_le hlength
  refine ⟨hstart, ?_⟩
  rw [trim, hstart] at h
  exact h

theorem trim_of_ends {c d : Char} (hc : isBlank c = false) (hd : isBlank d = false)
    (s : List Char) : trim (c :: (s ++ [d])) = c :: (s ++ [d]) := by
  have hstart : trimStart (c :: (s ++ [d])) = c :: (s ++ [d]) := by simp [trimStart, hc]
  rw [trim, hstart, trimEnd, ← List.cons_append, List.reverse_append, List.reverse_singleton,
    List.singleton_append, trimStart, List.dropWhile_cons_of_neg (by simp [hd])]
  simp

/-- Blanks around a trimmed text are taken off. -/
theorem trim_blanks {s : List Char} (h : trim s = s) (hne : s ≠ []) {c d : Char}
    (hc : isBlank c = true) (hd : isBlank d = true) : trim (c :: (s ++ [d])) = s := by
  obtain ⟨hstart, hend⟩ := trimStart_and_trimEnd_of_trim h
  have hstart' : trimStart (c :: (s ++ [d])) = s ++ [d] := by
    cases s with
    | nil => exact absurd rfl hne
    | cons e s =>
      have he : isBlank e = false := by
        refine Bool.eq_false_iff.mpr fun he ↦ ?_
        rw [trimStart, List.dropWhile_cons_of_pos he] at hstart
        have hle := length_trimStart_le s
        rw [trimStart, hstart, List.length_cons] at hle
        omega
      simp [trimStart, hc, he]
  rw [trim, hstart', trimEnd, List.reverse_append, List.reverse_singleton, List.singleton_append,
    trimStart, List.dropWhile_cons_of_pos hd]
  exact hend

/-! ## Repetitions of a text -/

theorem trimStartOf_of_stripStart?_eq_none {p s : List Char} (h : stripStart? p s = none) :
    trimStartOf p s = s := by
  cases p with
  | nil => simp [stripStart?] at h
  | cons c p =>
    rw [trimStartOf]
    split
    · rename_i heq
      simp [h] at heq
    · rfl

/-- One repetition is taken off if there is no other. -/
theorem trimStartOf_append {p s : List Char} (hne : p ≠ []) (h : stripStart? p s = none) :
    trimStartOf p (p ++ s) = s := by
  cases p with
  | nil => exact absurd rfl hne
  | cons c p =>
    rw [trimStartOf]
    split
    · rename_i heq
      rw [stripStart?_append] at heq
      obtain rfl := Option.some.inj heq
      exact trimStartOf_of_stripStart?_eq_none h
    · rename_i heq
      rw [stripStart?_append] at heq
      simp at heq

end FrontendSync.Text
