import FrontendSync.Module.Envelope
import FrontendSync.Proofs.Text.Pieces

/-!
# The text in an envelope

A text that ends with a character other than a blank stands in its file as a whole: its line breaks
are made plain, and before it there are comments at most.
-/

namespace FrontendSync.Module

open Envelope (plainBreaks plainBreaks_cons)

/-! ## Plain line breaks -/

theorem plainBreaks_append {t : List Char} (h : '\r' ∉ t) (s : List Char) :
    plainBreaks (t ++ s) = t ++ plainBreaks s := by
  induction t with
  | nil => rfl
  | cons c t ih =>
    obtain ⟨hc, ht⟩ : '\r' ≠ c ∧ '\r' ∉ t := by simpa using h
    rw [List.cons_append, plainBreaks_cons (Ne.symm hc), ih ht, List.cons_append]

theorem plainBreaks_eq_self {t : List Char} (h : '\r' ∉ t) : plainBreaks t = t := by
  simpa [plainBreaks] using plainBreaks_append h []

/-- A carriage return may end the first text as long as no line feed starts the second. -/
theorem plainBreaks_append_cons {c : Char} (h : c ≠ '\n') (t s : List Char) :
    plainBreaks (t ++ c :: s) = plainBreaks t ++ plainBreaks (c :: s) := by
  fun_induction plainBreaks t with
  | case1 => rfl
  | case2 t ih => simp [plainBreaks, ih]
  | case3 t ht ih =>
    have hne : ∀ u, t ++ c :: s = '\n' :: u → False := by
      intro u hu
      cases t with
      | nil => exact h (List.cons.inj hu).1
      | cons d t => exact ht t (by rw [(List.cons.inj hu).1])
    rw [List.cons_append, plainBreaks, ih, List.cons_append]
    exact hne
  | case4 d t ht hd ih =>
    rw [List.cons_append, plainBreaks_cons hd, ih, List.cons_append]

/-- A first character other than a line feed was there before. -/
theorem head?_of_head?_plainBreaks {b : Char} (hb : b ≠ '\n') {t : List Char}
    (h : (plainBreaks t).head? = some b) : t.head? = some b := by
  fun_induction plainBreaks t with
  | case1 => exact h
  | case2 => exact absurd (Option.some.inj h).symm hb
  | case3 => exact absurd (Option.some.inj h).symm hb
  | case4 => exact h

/-- Plain line breaks bring no characters together other than line feeds. -/
theorem infix_of_infix_plainBreaks {a b : Char} (ha : a ≠ '\n') (hb : b ≠ '\n')
    {t : List Char} (h : [a, b] <:+: plainBreaks t) : [a, b] <:+: t := by
  fun_induction plainBreaks t with
  | case1 => exact h
  | case2 t ih =>
    obtain hp | hi := List.infix_cons_iff.mp h
    · exact absurd (List.cons_prefix_cons.mp hp).1 ha
    · exact (ih hi).trans (List.infix_cons_iff.mpr (.inr (List.suffix_cons _ _).isInfix))
  | case3 t _ ih =>
    obtain hp | hi := List.infix_cons_iff.mp h
    · exact absurd (List.cons_prefix_cons.mp hp).1 ha
    · exact (ih hi).trans (List.suffix_cons _ _).isInfix
  | case4 c t _ _ ih =>
    obtain hp | hi := List.infix_cons_iff.mp h
    · obtain ⟨hc, v, hv⟩ := List.cons_prefix_cons.mp hp
      have hh : (plainBreaks t).head? = some b := by rw [← hv]; rfl
      obtain ⟨u, hu⟩ := List.head?_eq_some_iff.mp (head?_of_head?_plainBreaks hb hh)
      exact ⟨[], u, by rw [hc, hu]; rfl⟩
    · exact (ih hi).trans (List.suffix_cons _ _).isInfix

namespace Envelope

/-! ## Files -/

/-- The lines of a text that ends with `c`: the last of them ends with `c`. -/
theorem exists_pieces_eq {c : Char} (h : c ≠ '\n') (t : List Char) :
    ∃ ls l, Text.pieces '\n' (t ++ [c]) = ls ++ [l ++ [c]] := by
  induction t with
  | nil => exact ⟨[], [], by simp [Text.pieces, h]⟩
  | cons d t ih =>
    obtain ⟨ls, l, hl⟩ := ih
    rw [List.cons_append, Text.pieces, hl]
    cases ls with
    | nil =>
      by_cases hd : d = '\n'
      · exact ⟨[[]], l, by simp [hd]⟩
      · exact ⟨[], d :: l, by simp [hd]⟩
    | cons k ks =>
      by_cases hd : d = '\n'
      · exact ⟨[] :: k :: ks, l, by simp [hd]⟩
      · exact ⟨(d :: k) :: ks, l, by simp [hd]⟩

/-- No blank line is dropped behind a line with a character that is no blank. -/
theorem dropBlankEnd_append {c : Char} (h : Text.isBlank c = false) (ls : List (List Char))
    (l : List Char) : dropBlankEnd (ls ++ [l ++ [c]]) = ls ++ [l ++ [c]] := by
  have hl : isBlankLine (l ++ [c]) = false := by simp [isBlankLine, h]
  simp [dropBlankEnd, hl]

/-- The lines of a body that ends with a character other than a blank make up the body again. -/
theorem join_bodyLines {c : Char} (hb : Text.isBlank c = false) (t : List Char) :
    bodyLines (t ++ [c]) ≠ [] ∧
      Text.join '\n' (bodyLines (t ++ [c])) = plainBreaks (t ++ [c]) := by
  have hn : c ≠ '\n' := by rintro rfl; exact absurd hb (by decide)
  have hr : c ≠ '\r' := by rintro rfl; exact absurd hb (by decide)
  have hbreaks : plainBreaks (t ++ [c]) = plainBreaks t ++ [c] := by
    rw [plainBreaks_append_cons hn, plainBreaks_cons hr, plainBreaks]
  obtain ⟨ls, l, hl⟩ := exists_pieces_eq hn (plainBreaks t)
  have hlines : bodyLines (t ++ [c]) = Text.pieces '\n' (plainBreaks (t ++ [c])) := by
    rw [bodyLines, hbreaks, hl, dropBlankEnd_append hb]
  rw [hlines]
  exact ⟨Text.pieces_ne_nil _ _, Text.join_pieces _ _⟩

/-- A document has nothing before its body. -/
theorem wrapChars_json (limit : Option Nat) {c : Char} (hb : Text.isBlank c = false)
    (t : List Char) :
    wrapChars .json limit (t ++ [c]) = plainBreaks (t ++ [c]) ++ ['\n'] := by
  rw [wrapChars, fileLines, (join_bodyLines hb t).2]

/-- What stands before the body in a file that may have comments. -/
def preamble (limit : Option Nat) (body : List Char) : List Char :=
  (if isTooLong limit (banner ++ [] :: bodyLines body) then directive ++ ['\n'] else [])
    ++ (banner.flatMap (· ++ ['\n']) ++ ['\n'])

theorem wrapChars_eq {format : Format} (hf : format ≠ .json) (limit : Option Nat) {c : Char}
    (hb : Text.isBlank c = false) (t : List Char) :
    wrapChars format limit (t ++ [c])
      = preamble limit (t ++ [c]) ++ plainBreaks (t ++ [c]) ++ ['\n'] := by
  obtain ⟨hne, hjoin⟩ := join_bodyLines hb t
  have hlines : Text.join '\n' (banner ++ [] :: bodyLines (t ++ [c]))
      = banner.flatMap (· ++ ['\n']) ++ ['\n'] ++ plainBreaks (t ++ [c]) := by
    rw [← hjoin]
    simp only [banner, List.map_cons, List.map_nil, List.cons_append, List.nil_append,
      List.flatMap_cons, List.flatMap_nil]
    rw [Text.join_cons _ (by simp), Text.join_cons _ (by simp), Text.join_cons _ (by simp),
      Text.join_cons _ (by simp), Text.join_cons _ hne]
    simp
  cases format with
  | json => exact absurd rfl hf
  | ts | js =>
    simp only [wrapChars, fileLines, preamble]
    split
    · rw [Text.join_cons _ (by simp), hlines]
      simp
    · rw [hlines]
      simp

/-- Whether there is a directive shows in the third character. -/
theorem preamble_append_inj {limit : Option Nat} {body body' s t : List Char}
    (h : preamble limit body ++ s = preamble limit body' ++ t) : s = t := by
  unfold preamble at h
  split at h
  · split at h
    · exact List.append_cancel_left h
    · have hthird : some ' ' = some '*' := congrArg (fun u ↦ u[2]?) h
      exact absurd hthird (by decide)
  · split at h
    · have hthird : some '*' = some ' ' := congrArg (fun u ↦ u[2]?) h
      exact absurd hthird (by decide)
    · exact List.append_cancel_left h

/-- Texts without carriage returns that make the same file are the same. -/
theorem wrapChars_inj {format : Format} (hf : format ≠ .json) {limit : Option Nat} {c : Char}
    (hb : Text.isBlank c = false) {s t : List Char} (hs : '\r' ∉ s ++ [c])
    (ht : '\r' ∉ t ++ [c])
    (h : wrapChars format limit (s ++ [c]) = wrapChars format limit (t ++ [c])) :
    s ++ [c] = t ++ [c] := by
  rw [wrapChars_eq hf limit hb, wrapChars_eq hf limit hb, List.append_cancel_right_eq] at h
  have hbody := preamble_append_inj h
  rwa [plainBreaks_eq_self hs, plainBreaks_eq_self ht] at hbody

theorem carriageReturn_notMem_preamble (limit : Option Nat) (body : List Char) :
    '\r' ∉ preamble limit body := by
  unfold preamble
  split <;> decide +kernel

end Envelope

end FrontendSync.Module
