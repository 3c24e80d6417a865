import FrontendSync.Proofs.Php.Rereading
import Mathlib.Data.List.Forall2

/-!
# Lines of a heredoc that start with its label

A heredoc is read with all of its lines, up to its label and no further, exactly if none of these
lines starts with the label, be it in a longer word, and the label does not start with a character
that is taken for indentation.
-/

namespace FrontendSync.Php

open Lexeme (heredocBody outdent IsClosed isNameChar)
open Text

/-! ## Heredocs as they are written -/

/-- A line with the label behind blanks, where no longer word starts. -/
def IsClosingLine (label line : List Char) : Prop :=
  ∃ blanks rest, line = blanks ++ (label ++ rest) ∧ (∀ c ∈ blanks, isBlank c = true) ∧
    ∀ c ∈ rest.head?, isNameChar c = false

/-- A line without the spaces and tabs at its start, but for those beyond the first `n`. -/
def IsOutdented (n : Nat) (line left : List Char) : Prop :=
  ∃ blanks, line = blanks ++ left ∧ (∀ c ∈ blanks, c = ' ' ∨ c = '\t') ∧ blanks.length ≤ n ∧
    (blanks.length = n ∨ ∀ c ∈ left.head?, c ≠ ' ' ∧ c ≠ '\t')

/-- A heredoc in a source: its label, bare or between quotes, the lines behind it, none of which
closes it, the indentation of the label that does, and what follows that label. -/
structure Heredoc where
  quote : Option Char
  label : List Char
  body : List (List Char)
  indent : List Char
  behind : List Char
  isQuote : ∀ q ∈ quote, q = '\'' ∨ q = '"'
  isLabel : label ≠ [] ∧ ∀ c ∈ label, isNameChar c = true
  isLine : ∀ line ∈ body, '\n' ∉ line ∧ ¬ IsClosingLine label line
  isIndent : ∀ c ∈ indent, isBlank c = true ∧ c ≠ '\n'
  isEnd : ∀ c ∈ behind.head?, isNameChar c = false

namespace Heredoc

/-- The text in front of the body. -/
def opening (h : Heredoc) : List Char := h.quote.toList ++ (h.label ++ (h.quote.toList ++ ['\n']))

def bodyText (h : Heredoc) : List Char := h.body.flatMap (· ++ ['\n'])

def text (h : Heredoc) : List Char :=
  ['<', '<', '<'] ++ (h.opening ++ (h.bodyText ++ (h.indent ++ h.label)))

/-- The heredoc is read as one string of all of its lines, without the indentation of the closing
label, and what is read next starts behind this label. -/
def IsRead (h : Heredoc) : Prop :=
  ∃ lines, List.Forall₂ (IsOutdented h.indent.length) h.body lines ∧
    Lexeme.all 0 (h.text ++ h.behind)
      = ⟨h.text, some (.string (String.ofList (join '\n' lines)))⟩ :: Lexeme.all 0 h.behind

/-- No line of the body starts with the label. -/
def IsApart (h : Heredoc) : Prop :=
  (∀ line ∈ h.body, ¬ h.label <+: trimStart line) ∧ ∀ c ∈ h.label.head?, isBlank c = false

variable (h : Heredoc)

/-! ### In front of the body -/

theorem ne_of_mem_label {c d : Char} (hc : c ∈ h.label) (hd : isNameChar d = false) : c ≠ d := by
  rintro rfl
  exact absurd (h.isLabel.2 c hc) (by simp [hd])

theorem isOpening (s : List Char) :
    Lexeme.IsOpening [] h.quote.toList h.label h.quote.toList [] ['\n'] s := by
  obtain ⟨c, more, hlabel⟩ := List.exists_cons_of_ne_nil h.isLabel.1
  have hne {d : Char} (hd : isNameChar d = false) : c ≠ d :=
    h.ne_of_mem_label (by simp [hlabel]) hd
  have hspace : c ≠ ' ' := hne rfl
  have hsingle : c ≠ '\'' := hne rfl
  have hdouble : c ≠ '"' := hne rfl
  constructor
  · cases hq : h.quote with
    | none => simp [hlabel, hspace]
    | some q => obtain rfl | rfl := h.isQuote q hq <;> simp
  · cases hq : h.quote with
    | none => simp [hlabel, hsingle, hdouble]
    | some q => obtain rfl | rfl := h.isQuote q hq <;> simp
  · refine Lexeme.takeWhile_append h.isLabel.2 ?_
    cases hq : h.quote with
    | none => exact fun c hc ↦ Option.some.inj hc ▸ rfl
    | some q =>
      obtain rfl | rfl := h.isQuote q hq <;> exact fun c hc ↦ Option.some.inj hc ▸ rfl
  · simp
  · simp
  · rfl

theorem first_text_append (s : List Char) :
    Lexeme.first '<' ('<' :: '<' :: (h.opening ++ s))
      = ⟨['<', '<', '<'] ++ (h.opening ++ (heredocBody h.label s).text),
        (heredocBody h.label s).kind⟩ := by
  have hread := Lexeme.heredoc_append (h.isOpening s)
  simp only [List.nil_append] at hread
  rw [Lexeme.first_heredoc, opening]
  simp only [List.append_assoc]
  rw [hread]

/-! ### The lines -/

theorem closesHeredoc_iff (line : List Char) :
    Lexeme.closesHeredoc h.label line = true ↔ h.label <+: trimStart line := by
  rw [Lexeme.closesHeredoc, ← Lexeme.startsWith_iff]
  simp [h.isLabel.1]

theorem notMem_closing : '\n' ∉ h.indent ++ h.label := by
  rw [List.mem_append, not_or]
  exact ⟨fun hmem ↦ (h.isIndent _ hmem).2 rfl, fun hmem ↦ h.ne_of_mem_label hmem rfl rfl⟩

theorem isClosed_iff : IsClosed h.label h.body h.indent ↔ h.IsApart := by
  have hline (line : List Char) :
      Lexeme.closesHeredoc h.label line = false ↔ ¬ h.label <+: trimStart line := by
    rw [← h.closesHeredoc_iff, Bool.not_eq_true]
  constructor
  · rintro ⟨hlines, -, ⟨c, more, hlabel, hc⟩, -⟩
    refine ⟨fun line hmem ↦ (hline line).mp (hlines line hmem).2, ?_⟩
    simpa [hlabel] using hc
  · rintro ⟨hlines, hhead⟩
    obtain ⟨c, more, hlabel⟩ := List.exists_cons_of_ne_nil h.isLabel.1
    exact ⟨fun line hmem ↦ ⟨(h.isLine line hmem).1, (hline line).mpr (hlines line hmem)⟩,
      fun c hc ↦ (h.isIndent c hc).1, ⟨c, more, hlabel, hhead c (by simp [hlabel])⟩,
      h.notMem_closing⟩

/-- The lines of a heredoc and the line that closes it. -/
theorem pieces_bodyText : pieces '\n' (h.bodyText ++ (h.indent ++ h.label))
    = h.body ++ [h.indent ++ h.label] := by
  rw [bodyText, Lexeme.pieces_flatMap_append fun line hline ↦ (h.isLine line hline).1,
    pieces_of_notMem h.notMem_closing]

theorem isOutdented_outdent (n : Nat) (line : List Char) : IsOutdented n line (outdent n line) := by
  have hprefix := List.takeWhile_prefix (l := line) fun c ↦ c = ' ' || c = '\t'
  have hlength := hprefix.length_le
  refine ⟨line.take (min n (line.takeWhile fun c ↦ c = ' ' || c = '\t').length),
    (List.take_append_drop _ _).symm, ?_, ?_, ?_⟩
  · intro c hc
    have hmem : c ∈ line.takeWhile fun c ↦ c = ' ' || c = '\t' := by
      rw [List.prefix_iff_eq_take.mp hprefix]
      exact (List.take_subset_take_left line (min_le_right _ _)) hc
    simpa using List.all_eq_true.mp List.all_takeWhile c hmem
  · rw [List.length_take]
    omega
  · by_cases hn : n ≤ (line.takeWhile fun c ↦ c = ' ' || c = '\t').length
    · left
      rw [List.length_take]
      omega
    · right
      have hdrop : line.drop (line.takeWhile fun c ↦ c = ' ' || c = '\t').length
          = line.dropWhile fun c ↦ c = ' ' || c = '\t' :=
        Lexeme.drop_length_of_eq_append List.takeWhile_append_dropWhile.symm
      rw [outdent, min_eq_right (by omega), hdrop]
      intro c hc
      have hhead := List.head?_dropWhile_not (fun c ↦ c = ' ' || c = '\t') line
      rw [hc] at hhead
      simpa using hhead

theorem length_join_le {n : Nat} {body lines : List (List Char)}
    (hlines : List.Forall₂ (IsOutdented n) body lines) :
    (join '\n' lines).length ≤ (body.flatMap (· ++ ['\n'])).length := by
  induction hlines with
  | nil => exact le_rfl
  | cons hleft hlines ih =>
    obtain ⟨blanks, rfl, -, -, -⟩ := hleft
    cases hlines with
    | nil => simp [join]; omega
    | cons hnext hlines =>
      rw [join]
      · simp only [List.flatMap_cons, List.length_append, List.length_cons] at ih ⊢
        omega
      · simp

/-! ### Reading -/

/-- The lexeme at the start of a heredoc. -/
theorem exists_all_eq : ∃ ls, Lexeme.all 0 (h.text ++ h.behind)
    = ⟨['<', '<', '<'] ++ (h.opening
          ++ (heredocBody h.label (h.bodyText ++ (h.indent ++ h.label) ++ h.behind)).text),
        (heredocBody h.label (h.bodyText ++ (h.indent ++ h.label) ++ h.behind)).kind⟩ :: ls := by
  have htext : h.text ++ h.behind
      = '<' :: '<' :: '<' :: (h.opening ++ (h.bodyText ++ (h.indent ++ h.label) ++ h.behind)) := by
    simp [text]
  rw [htext, Lexeme.all, h.first_text_append]
  exact ⟨_, rfl⟩

theorem isRead_of_isApart (hapart : h.IsApart) : h.IsRead := by
  have hlines : List.Forall₂ (IsOutdented h.indent.length) h.body
      (h.body.map (outdent h.indent.length)) := by
    rw [List.forall₂_map_right_iff, List.forall₂_same]
    exact fun line _ ↦ isOutdented_outdent _ line
  refine ⟨h.body.map (outdent h.indent.length), hlines, ?_⟩
  have hbody := (h.isClosed_iff.mpr hapart).heredocBody_eq h.behind
  rw [← Lexeme.all_append_of_isReadBefore]
  refine ⟨'<', '<' :: '<' :: (h.opening ++ (h.bodyText ++ (h.indent ++ h.label) ++ h.behind)),
    by simp [text], by simp [text], ?_⟩
  rw [h.first_text_append, bodyText, hbody]
  simp [text, bodyText]

/-- Without an end, the closing label is among the lines that are read. -/
theorem ne_join_of_forall₂ {lines : List (List Char)}
    (hlines : List.Forall₂ (IsOutdented h.indent.length) h.body lines) :
    join '\n' (Lexeme.dropEmptyEnd (pieces '\n' (h.bodyText ++ (h.indent ++ h.label))))
      ≠ join '\n' lines := by
  have hlabel : 0 < h.label.length := List.length_pos_iff.mpr h.isLabel.1
  have hlength : (join '\n' lines).length ≤ h.bodyText.length := length_join_le hlines
  have hdrop : Lexeme.dropEmptyEnd (pieces '\n' (h.bodyText ++ (h.indent ++ h.label)))
      = pieces '\n' (h.bodyText ++ (h.indent ++ h.label)) := by
    rw [h.pieces_bodyText, Lexeme.dropEmptyEnd]
    simp [h.isLabel.1]
  rw [hdrop, join_pieces]
  intro heq
  have hlengths := congrArg List.length heq
  simp only [List.length_append] at hlengths
  omega

theorem isApart_of_isRead (hread : h.IsRead) : h.IsApart := by
  obtain ⟨lines, hlines, hall⟩ := hread
  obtain ⟨ls, hfirst⟩ := h.exists_all_eq
  rw [hfirst, List.cons.injEq, Lexeme.mk.injEq] at hall
  obtain ⟨⟨htext, hkind⟩, -⟩ := hall
  have htext : (heredocBody h.label (h.bodyText ++ (h.indent ++ h.label) ++ h.behind)).text
      = h.bodyText ++ (h.indent ++ h.label) := by
    rw [text] at htext
    exact List.append_cancel_left (List.append_cancel_left htext)
  obtain hopen | ⟨body, indent, rest, hclosed, heq⟩ := Lexeme.exists_isClosed h.label
    (h.bodyText ++ (h.indent ++ h.label) ++ h.behind)
  · -- All that follows is the string, so nothing stands behind the heredoc.
    have hbehind : h.behind = [] := by
      rw [hopen] at htext
      exact List.append_right_eq_self.mp htext
    rw [hopen, hbehind, List.append_nil, Option.some.injEq, Token.Kind.string.injEq,
      String.ofList_inj] at hkind
    exact absurd hkind (h.ne_join_of_forall₂ hlines)
  · -- What has been read ends with the closing label, so it divides into the same lines.
    rw [heq, hclosed.heredocBody_eq] at htext
    have hpieces : body ++ [indent ++ h.label] = h.body ++ [h.indent ++ h.label] := by
      rw [← h.pieces_bodyText, ← htext, List.append_assoc,
        Lexeme.pieces_flatMap_append fun line hline ↦ (hclosed.lines line hline).1,
        pieces_of_notMem hclosed.line]
    obtain ⟨rfl, hindent⟩ := List.append_inj' hpieces rfl
    obtain rfl : indent = h.indent := List.append_cancel_right (List.singleton_inj.mp hindent)
    exact h.isClosed_iff.mp hclosed

/-- A heredoc is read with all of its lines exactly if none of them starts with the label, and the
label with no blank. -/
theorem isRead_iff : h.IsRead ↔ h.IsApart := ⟨h.isApart_of_isRead, h.isRead_of_isApart⟩

/-- The line of this heredoc is a longer word than its label. -/
def longerWord : Heredoc where
  quote := none
  label := ['E', 'O', 'T']
  body := [['E', 'O', 'T', 's']]
  indent := []
  behind := [';']
  isQuote := by simp
  isLabel := ⟨by simp, List.all_eq_true.mp rfl⟩
  isLine := by
    refine List.forall_mem_singleton.mpr ⟨by decide, ?_⟩
    rintro ⟨blanks, rest, hline, hblanks, hrest⟩
    cases blanks with
    | nil =>
      obtain rfl : ['s'] = rest := by simpa using hline
      exact absurd (hrest 's' rfl) (by decide)
    | cons c blanks =>
      obtain ⟨rfl, -⟩ := List.cons.inj hline
      exact absurd (hblanks 'E' (by simp)) (by decide)
  isIndent := by simp
  isEnd := fun _ hc ↦ Option.some.inj hc ▸ rfl

theorem not_isRead_longerWord : ¬ longerWord.IsRead ∧
    tokens (String.ofList (longerWord.text ++ longerWord.behind))
      = [⟨.string "", 1⟩, ⟨.name "s", 2⟩, ⟨.name "EOT", 3⟩, ⟨.punct .semicolon, 3⟩] := by
  refine ⟨fun hread ↦ ?_, by decide +kernel⟩
  exact (longerWord.isApart_of_isRead hread).1 _ List.mem_cons_self (by decide)

end Heredoc

end FrontendSync.Php
