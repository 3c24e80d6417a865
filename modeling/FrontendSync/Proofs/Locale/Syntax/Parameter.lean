import FrontendSync.Locale.Syntax.Parameter
import FrontendSync.Proofs.Text.Property
import Mathlib.Data.List.Basic

/-!
# Texts with their parameters replaced

What is no part of a parameter stays as it is: the characters in front of the first colon, and all
that stands behind a character which ends every name.  Replacing brings no characters in but those
of the brackets.
-/

namespace FrontendSync.Locale

open FrontendSync.Text

variable {opening closing : List Char} {c : Char}

/-- A blank ends every name. -/
theorem isNameChar_eq_false_of_isBlank (h : isBlank c = true) : isNameChar c = false := by
  refine Bool.eq_false_iff.mpr fun hname ↦ ?_
  simp only [isNameChar, Char.isAlphanum, Bool.or_eq_true, beq_iff_eq] at hname
  rcases hname with (halpha | hdigit) | rfl
  · exact Bool.noConfusion ((isBlank_eq_false_of_isAlpha halpha).symm.trans h)
  · exact Bool.noConfusion ((isBlank_eq_false_of_isDigit hdigit).symm.trans h)
  · exact absurd h (by decide)

theorem substitute_cons_of_ne (h : c ≠ ':') (s : List Char) :
    substitute opening closing (c :: s) = c :: substitute opening closing s := by
  rw [substitute]
  simp [h]

/-- A colon with a name behind it is replaced together with the name. -/
theorem substitute_colon (s : List Char) : substitute opening closing (':' :: s)
    = if s.takeWhile isNameChar = [] then ':' :: substitute opening closing s
      else opening ++ s.takeWhile isNameChar ++ closing
        ++ substitute opening closing (s.dropWhile isNameChar) := by
  have hdrop : s.drop (s.takeWhile isNameChar).length = s.dropWhile isNameChar := by
    have hleft : (s.takeWhile isNameChar ++ s.dropWhile isNameChar).drop
        (s.takeWhile isNameChar).length = s.dropWhile isNameChar := List.drop_left
    rwa [List.takeWhile_append_dropWhile] at hleft
  rw [substitute]
  simp [hdrop]

/-- There is no parameter in front of the first colon. -/
theorem substitute_append_of_notMem {s : List Char} (h : ':' ∉ s) (t : List Char) :
    substitute opening closing (s ++ t) = s ++ substitute opening closing t := by
  induction s with
  | nil => rfl
  | cons c s ih =>
    obtain ⟨hc, hs⟩ := not_or.mp (mt List.mem_cons.mpr h)
    rw [List.cons_append, substitute_cons_of_ne (Ne.symm hc), ih hs, List.cons_append]

theorem substitute_of_notMem {s : List Char} (h : ':' ∉ s) :
    substitute opening closing s = s := by
  have happend : substitute opening closing (s ++ []) = s ++ substitute opening closing [] :=
    substitute_append_of_notMem h []
  rwa [List.append_nil, substitute, List.append_nil] at happend

/-- A character that is none of names divides a text into parts that are replaced each on its
own. -/
theorem substitute_append_cons (hc : isNameChar c = false) (s t : List Char) :
    substitute opening closing (s ++ c :: t)
      = substitute opening closing s ++ substitute opening closing (c :: t) := by
  match s with
  | [] => rw [substitute.eq_1]; rfl
  | d :: s =>
    have hrest := substitute_append_cons hc s t
    by_cases hd : d = ':'
    · subst hd
      -- the name behind the colon ends before `c`, if not earlier
      have htake : (s ++ c :: t).takeWhile isNameChar = s.takeWhile isNameChar := by
        rw [List.takeWhile_append]
        split
        · rename_i hlength
          rw [List.takeWhile_cons, hc, if_neg Bool.false_ne_true, List.append_nil]
          exact ((List.takeWhile_prefix _).eq_of_length hlength).symm
        · rfl
      have hdrop : (s ++ c :: t).dropWhile isNameChar = s.dropWhile isNameChar ++ c :: t := by
        rw [List.dropWhile_append]
        split
        · rename_i hempty
          simp [hc, List.isEmpty_iff.mp hempty]
        · rfl
      have hbehind := substitute_append_cons hc (s.dropWhile isNameChar) t
      rw [List.cons_append, substitute_colon, substitute_colon, htake, hdrop]
      split
      · rw [hrest, List.cons_append]
      · rw [hbehind, ← List.append_assoc]
    · rw [List.cons_append, substitute_cons_of_ne hd, substitute_cons_of_ne hd, hrest,
        List.cons_append]
termination_by s.length
decreasing_by
  · simp
  · have hle := (List.dropWhile_sublist isNameChar (l := s)).length_le
    simp only [List.length_cons]
    omega

/-- All characters come from the text or from the brackets. -/
theorem mem_of_mem_substitute {s : List Char} (h : c ∈ substitute opening closing s) :
    c ∈ s ∨ c ∈ opening ∨ c ∈ closing := by
  fun_induction substitute opening closing s with
  | case1 => exact absurd h List.not_mem_nil
  | case2 d s name hname ih =>
    rcases List.mem_cons.mp h with rfl | h
    · exact .inl List.mem_cons_self
    · exact (ih h).imp_left (List.mem_cons_of_mem d)
  | case3 d s name hname ih =>
    simp only [List.mem_append] at h
    rcases h with ((h | h) | h) | h
    · exact .inr (.inl h)
    · have hs : c ∈ s := by
        simp only [name] at h
        split at h
        · exact (List.takeWhile_sublist _).subset h
        · simp at h
      exact .inl (List.mem_cons_of_mem d hs)
    · exact .inr (.inr h)
    · exact (ih h).imp_left fun hs ↦ List.mem_cons_of_mem d (List.mem_of_mem_drop hs)

/-- What has no colon in front of a text and blanks behind it stay where they are. -/
theorem substitute_append_append {front back : List Char} (hfront : ':' ∉ front)
    (hback : ∀ d ∈ back, isBlank d = true) (s : List Char) :
    substitute opening closing (front ++ (s ++ back))
      = front ++ (substitute opening closing s ++ back) := by
  rw [substitute_append_of_notMem hfront]
  cases back with
  | nil => simp
  | cons d back =>
    have hcolon : ':' ∉ d :: back := fun hmem ↦ absurd (hback ':' hmem) (by decide)
    rw [substitute_append_cons (isNameChar_eq_false_of_isBlank (hback d List.mem_cons_self)),
      substitute_of_notMem hcolon]

end FrontendSync.Locale
