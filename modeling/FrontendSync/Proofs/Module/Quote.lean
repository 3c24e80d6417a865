import FrontendSync.Module.Strip
import FrontendSync.Module.Token

/-!
# Quoted strings read back

A quoted string is copied by the comment stripper whatever it holds, has no carriage return that
the envelope could touch, and the reader of tokens gets the string back and stops right behind
its closing quote.  All three facts rest on the same one: each character of the string is written
in one of three ways between its quotes.
-/

namespace FrontendSync.Module

/-- The ways a character is written between quotes `q`: as it is, by a letter behind a backslash,
or by the four hexadecimal digits of a separator of lines or paragraphs. -/
inductive Escape (q : Char) : Char → List Char → Prop
  | plain {c : Char} : c ≠ q → c ≠ '\\' → c ≠ '\r' → Escape q c [c]
  | letter {c d : Char} : Token.escaped d = c → d ≠ 'u' → d ≠ '\r' → Escape q c ['\\', d]
  | lineSeparator : Escape q '\u2028' ['\\', 'u', '2', '0', '2', '8']
  | paragraphSeparator : Escape q '\u2029' ['\\', 'u', '2', '0', '2', '9']

/-- Quotes are marks that neither escapes nor hexadecimal digits contain. -/
theorem isQuote_eq_true {q : Char} (h : Token.isQuote q = true) : q = '"' ∨ q = '\'' ∨ q = '`' := by
  simpa [Token.isQuote, or_assoc] using h

namespace Escape

variable {q c : Char} {w : List Char}

/-- No way of writing a character uses a carriage return. -/
theorem carriageReturn_notMem (h : Escape q c w) : '\r' ∉ w := by
  cases h with
  | plain _ _ hr => simpa using Ne.symm hr
  | letter _ _ hr => simpa using Ne.symm hr
  | lineSeparator => decide
  | paragraphSeparator => decide

/-- Inside a string the stripper copies what is written for a character. -/
theorem strip_append (hq : Token.isQuote q = true) (h : Escape q c w) (s : List Char) :
    Strip.strip (.string q) (w ++ s) = w ++ Strip.strip (.string q) s := by
  cases h with
  | plain hc hb _ => simp [Strip.strip, hc, hb]
  | letter _ _ _ => simp [Strip.strip]
  | lineSeparator => obtain rfl | rfl | rfl := isQuote_eq_true hq <;> simp [Strip.strip]
  | paragraphSeparator => obtain rfl | rfl | rfl := isQuote_eq_true hq <;> simp [Strip.strip]

-- the equations of the reader are many: derived here, they serve every proof below
attribute [local simp] Token.unquote

/-- Inside a string the reader gets the character back. -/
theorem unquote_append (h : Escape q c w) (s : List Char) :
    Token.unquote q (w ++ s) = Token.push c (Token.unquote q s) := by
  cases h with
  | plain hc hb _ => simp [hc, hb]
  | letter hd hu _ => simp [hu, hd]
  | lineSeparator => rw [List.cons_append, List.cons_append]; simp; rfl
  | paragraphSeparator => rw [List.cons_append, List.cons_append]; simp; rfl

end Escape

/-! ## Whole strings -/

section Strings

variable {q : Char} {f : Char → List Char} {s : List Char}

/-- A string in which each character is written in one of the three ways has no carriage
return. -/
theorem carriageReturn_notMem_flatMap (h : ∀ c ∈ s, Escape q c (f c)) : '\r' ∉ s.flatMap f := by
  intro hmem
  obtain ⟨c, hc, hw⟩ := List.mem_flatMap.mp hmem
  exact (h c hc).carriageReturn_notMem hw

/-- The stripper copies such a string with its closing quote and is outside of strings again. -/
theorem strip_flatMap (hq : Token.isQuote q = true) (h : ∀ c ∈ s, Escape q c (f c))
    (rest : List Char) :
    Strip.strip (.string q) (s.flatMap f ++ q :: rest)
      = s.flatMap f ++ q :: Strip.strip .code rest := by
  induction s with
  | nil =>
    have hb : q ≠ '\\' := by obtain rfl | rfl | rfl := isQuote_eq_true hq <;> decide
    simp [Strip.strip, hb]
  | cons c s ih =>
    obtain ⟨hc, hs⟩ := List.forall_mem_cons.mp h
    rw [List.flatMap_cons, List.append_assoc, hc.strip_append hq, ih hs, List.append_assoc]

/-- The reader gets such a string back and stops behind its closing quote. -/
theorem unquote_flatMap (hq : Token.isQuote q = true) (h : ∀ c ∈ s, Escape q c (f c))
    (rest : List Char) : Token.unquote q (s.flatMap f ++ q :: rest) = (s, rest) := by
  induction s with
  | nil =>
    have hb : q ≠ '\\' := by obtain rfl | rfl | rfl := isQuote_eq_true hq <;> decide
    simp [Token.unquote, hb]
  | cons c s ih =>
    obtain ⟨hc, hs⟩ := List.forall_mem_cons.mp h
    rw [List.flatMap_cons, List.append_assoc, hc.unquote_append, ih hs]
    rfl

end Strings

/-! ## The writer's choice of quotes -/

/-- What is written for a character that is none of the two quotes. -/
theorem escape_escapeChar {q c : Char} (h : c ≠ q) : Escape q c (escapeChar c) := by
  unfold escapeChar
  split
  · exact .letter rfl (by decide) (by decide)
  · exact .letter rfl (by decide) (by decide)
  · exact .letter rfl (by decide) (by decide)
  · exact .lineSeparator
  · exact .paragraphSeparator
  · rename_i hb _ hr _ _
    exact .plain h hb hr

theorem escape_escapeApostrophe (c : Char) : Escape '\'' c (escapeApostrophe c) := by
  unfold escapeApostrophe
  split
  · rename_i h
    exact .letter h.symm (by decide) (by decide)
  · rename_i h
    exact escape_escapeChar h

/-- A quoted string is a quote, its characters written in one of the three ways, and the same
quote again. -/
theorem exists_quoteChars_eq (s : List Char) :
    ∃ (q : Char) (f : Char → List Char), Token.isQuote q = true ∧ (∀ c ∈ s, Escape q c (f c)) ∧
      quoteChars s = q :: (s.flatMap f ++ [q]) := by
  unfold quoteChars
  split
  · rename_i h
    simp only [Bool.and_eq_true, Bool.not_eq_true', List.contains_eq_mem,
      decide_eq_false_iff_not] at h
    refine ⟨'"', escapeChar, rfl, fun c hc ↦ escape_escapeChar ?_, rfl⟩
    rintro rfl
    exact h.2 hc
  · exact ⟨'\'', escapeApostrophe, rfl, fun c _ ↦ escape_escapeApostrophe c, rfl⟩

theorem carriageReturn_notMem_quoteChars (s : List Char) : '\r' ∉ quoteChars s := by
  obtain ⟨q, f, hq, hf, h⟩ := exists_quoteChars_eq s
  have hr : '\r' ≠ q := by obtain rfl | rfl | rfl := isQuote_eq_true hq <;> decide
  rw [h]
  simp [hr, carriageReturn_notMem_flatMap hf]

/-- A quoted string is told from any other, whatever follows it. -/
theorem quoteChars_append_inj {s t rest more : List Char}
    (h : quoteChars s ++ rest = quoteChars t ++ more) : s = t ∧ rest = more := by
  obtain ⟨q, f, hq, hf, hs⟩ := exists_quoteChars_eq s
  obtain ⟨q', f', -, hf', ht⟩ := exists_quoteChars_eq t
  rw [hs, ht, List.cons_append, List.cons_append, List.cons.injEq] at h
  obtain ⟨rfl, h⟩ := h
  rw [List.append_assoc, List.append_assoc] at h
  have hread := unquote_flatMap hq hf rest
  rw [← List.singleton_append, h, List.singleton_append, unquote_flatMap hq hf' more,
    Prod.mk.injEq] at hread
  exact ⟨hread.1.symm, hread.2.symm⟩

/-- The stripper copies a quoted string. -/
theorem strip_quoteChars (s rest : List Char) :
    Strip.strip .code (quoteChars s ++ rest) = quoteChars s ++ Strip.strip .code rest := by
  obtain ⟨q, f, hq, hf, h⟩ := exists_quoteChars_eq s
  have hs : q ≠ '/' := by obtain rfl | rfl | rfl := isQuote_eq_true hq <;> decide
  have hstrip : Strip.isQuote q = true := hq
  rw [h, List.cons_append, List.append_assoc, List.singleton_append]
  simp [Strip.strip, hs, hstrip, strip_flatMap hq hf]

/-- The reader gets one token for a quoted string and goes on behind it. -/
theorem all_quoteChars (s rest : List Char) :
    Token.all (quoteChars s ++ rest) = .string (String.ofList s) :: Token.all rest := by
  obtain ⟨q, f, hq, hf, h⟩ := exists_quoteChars_eq s
  have hb : Text.isBlank q = false := by obtain rfl | rfl | rfl := isQuote_eq_true hq <;> decide
  rw [h, List.cons_append, List.append_assoc, List.singleton_append, Token.all]
  simp [hb, hq, unquote_flatMap hq hf]

end FrontendSync.Module
