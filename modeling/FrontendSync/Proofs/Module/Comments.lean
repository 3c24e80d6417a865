import FrontendSync.Proofs.Module.Scan

/-!
# Comments between tokens

The stripper reads a text character by character and, of what it has read, keeps only where it
stands.  So what it writes for a text does not depend on what follows, except behind a character
whose meaning is still open.  From its steps come the three laws of this module: a comment leaves
one blank, which lies between the same tokens as the comment; behind what has been stripped the
stripper stands where it would stand if nothing had been; and so nothing is left to strip.
-/

namespace FrontendSync.Module

namespace Strip

/-! ## The stripper as a machine -/

/-- Where the stripper stands behind a text: in a mode, or behind a character whose meaning the
next one decides. -/
inductive State where
  | plain (mode : Mode)
  | slash
  | escape (quote : Char)
  | asterisk
deriving DecidableEq, Repr

namespace State

def mode : State → Mode
  | plain m => m
  | slash => .code
  | escape q => .string q
  | asterisk => .blockComment

/-- The character whose meaning is open. -/
def pending : State → List Char
  | plain _ => []
  | slash => ['/']
  | escape _ => ['\\']
  | asterisk => ['*']

/-- The mode behind a character of code that opens no comment. -/
def enter (c : Char) : State := plain (if isQuote c then .string c else .code)

def step : State → Char → State
  | plain .code, c => if c = '/' then slash else enter c
  | slash, c =>
    if c = '/' then plain .lineComment else if c = '*' then plain .blockComment else enter c
  | plain (.string q), c =>
    if c = '\\' then escape q else plain (if c = q then .code else .string q)
  | escape q, _ => plain (.string q)
  | plain .lineComment, c => plain (if c = '\n' then .code else .lineComment)
  | plain .blockComment, c => if c = '*' then asterisk else plain .blockComment
  | asterisk, c =>
    if c = '/' then plain .code else if c = '*' then asterisk else plain .blockComment

/-- What is written when a character is read. -/
def written : State → Char → List Char
  | plain .code, c => if c = '/' then [] else [c]
  | slash, c => if c = '/' ∨ c = '*' then [] else ['/', c]
  | plain (.string _), c => if c = '\\' then [] else [c]
  | escape _, c => ['\\', c]
  | plain .lineComment, c => if c = '\n' then [c] else []
  | plain .blockComment, _ => []
  | asterisk, c => if c = '/' then [' '] else []

def after (st : State) (s : List Char) : State := s.foldl step st

/-- What is written while a text is read. -/
def text : State → List Char → List Char
  | _, [] => []
  | st, c :: s => st.written c ++ (st.step c).text s

@[simp] theorem after_nil (st : State) : st.after [] = st := rfl

@[simp] theorem after_cons (st : State) (c : Char) (s : List Char) :
    st.after (c :: s) = (st.step c).after s := rfl

theorem after_append (st : State) (s t : List Char) :
    st.after (s ++ t) = (st.after s).after t := List.foldl_append

theorem text_append (st : State) (s t : List Char) :
    st.text (s ++ t) = st.text s ++ (st.after s).text t := by
  induction s generalizing st with
  | nil => rfl
  | cons c s ih => rw [List.cons_append, text, text, ih, List.append_assoc, after_cons]

theorem strip_enter {c : Char} (h : c ≠ '/') (s : List Char) :
    strip .code (c :: s) = c :: strip (enter c).mode ((enter c).pending ++ s) := by
  rw [strip]
  · rfl
  · exact fun _ hc _ ↦ h hc
  · exact fun _ hc _ ↦ h hc

theorem strip_slash {c : Char} (hline : c ≠ '/') (hblock : c ≠ '*') (s : List Char) :
    strip .code ('/' :: c :: s) = '/' :: strip .code (c :: s) := by
  rw [strip]
  · rfl
  · rintro _ - heq
    exact hline (List.cons.inj heq).1
  · rintro _ - heq
    exact hblock (List.cons.inj heq).1

theorem strip_string {q c : Char} (h : c ≠ '\\') (s : List Char) :
    strip (.string q) (c :: s) = c :: strip (if c = q then .code else .string q) s := by
  rw [strip]
  exact fun _ _ hc _ ↦ h hc

theorem strip_blockComment_cons {c : Char} (h : c ≠ '*') (s : List Char) :
    strip .blockComment (c :: s) = strip .blockComment s := by
  rw [strip]
  exact fun _ hc _ ↦ h hc

theorem strip_asterisk {c : Char} (h : c ≠ '/') (s : List Char) :
    strip .blockComment ('*' :: c :: s) = strip .blockComment (c :: s) := by
  rw [strip]
  rintro _ - heq
  exact h (List.cons.inj heq).1

/-- One step of the stripper. -/
theorem strip_step (st : State) (c : Char) (s : List Char) :
    strip st.mode (st.pending ++ c :: s)
      = st.written c ++ strip (st.step c).mode ((st.step c).pending ++ s) := by
  cases st with
  | plain m =>
    cases m with
    | code => by_cases hc : c = '/' <;> simp [mode, pending, step, written, hc, strip_enter]
    | string q => by_cases hc : c = '\\' <;> simp [mode, pending, step, written, hc, strip_string]
    | lineComment => by_cases hc : c = '\n' <;> simp [mode, pending, step, written, hc, strip]
    | blockComment =>
      by_cases hc : c = '*' <;> simp [mode, pending, step, written, hc, strip_blockComment_cons]
  | slash =>
    by_cases hline : c = '/'
    · simp [mode, pending, step, written, hline, strip]
    · by_cases hblock : c = '*'
      · simp [mode, pending, step, written, hblock, strip]
      · simp [mode, pending, step, written, hline, hblock, strip_slash, strip_enter]
  | escape q => simp [mode, pending, step, written, strip]
  | asterisk =>
    by_cases hend : c = '/'
    · simp [mode, pending, step, written, hend, strip]
    · by_cases hc : c = '*' <;>
        simp [mode, pending, step, written, hend, hc, strip_asterisk, strip_blockComment_cons]

/-- The stripper on a text with any other behind it. -/
theorem strip_run (st : State) (s t : List Char) :
    strip st.mode (st.pending ++ (s ++ t))
      = st.text s ++ strip (st.after s).mode ((st.after s).pending ++ t) := by
  induction s generalizing st with
  | nil => rfl
  | cons c s ih => rw [List.cons_append, strip_step, ih, text, after_cons, List.append_assoc]

section Code

variable {s : List Char} (h : (plain .code).after s = plain .code)

include h

theorem strip_code_append_eq (t : List Char) :
    strip .code (s ++ t) = (plain .code).text s ++ strip .code t := by
  simpa [h, mode, pending] using strip_run (plain .code) s t

theorem strip_code_eq_text : strip .code s = (plain .code).text s := by
  simpa [strip] using strip_code_append_eq h []

/-- What is stripped of a text that leaves the stripper in code does not depend on what follows. -/
theorem strip_code_append (t : List Char) :
    strip .code (s ++ t) = strip .code s ++ strip .code t := by
  rw [strip_code_append_eq h, strip_code_eq_text h]

end Code

/-- Only behind a slash it is open whether a comment starts. -/
theorem eq_of_step_eq_slash {st : State} {c : Char} (h : st.step c = slash) : c = '/' := by
  refine Decidable.byContradiction fun hc ↦ ?_
  cases st with
  | plain m => cases m <;> grind [step, enter]
  | slash | escape q | asterisk => grind [step, enter]

/-- Outside of strings and comments, and not behind a slash, the stripper is in code. -/
theorem after_eq_code {s : List Char} (h : ((plain .code).after s).mode = .code)
    (hlast : s.getLast? ≠ some '/') : (plain .code).after s = plain .code := by
  cases hst : (plain .code).after s with
  | plain m => rw [hst] at h; rw [← h]; rfl
  | escape q | asterisk => rw [hst] at h; exact absurd h (by simp [mode])
  | slash =>
    rcases List.eq_nil_or_concat s with rfl | ⟨s, c, rfl⟩
    · exact absurd hst (by simp)
    · rw [List.concat_eq_append, after_append] at hst
      simp [eq_of_step_eq_slash hst] at hlast

/-! ## Stripped texts -/

/-- Where the stripper stands behind what it has written: it has left out comments, and has not
written yet what is open. -/
def reduced : State → State
  | plain (.string q) => plain (.string q)
  | escape q => plain (.string q)
  | _ => plain .code

/-- What is written at the end of a text. -/
def flush (st : State) : List Char := strip st.mode st.pending

theorem strip_eq_text_append (st : State) (s : List Char) :
    strip st.mode (st.pending ++ s) = st.text s ++ (st.after s).flush := by
  have hrun := strip_run st s []
  rwa [List.append_nil, List.append_nil] at hrun

/-- What is written in one step is written again, and leaves the stripper where it would stand
without the comments. -/
theorem reads_written (st : State) (c : Char) :
    st.reduced.text (st.written c) = st.written c ∧
      st.reduced.after (st.written c) = (st.step c).reduced := by
  cases st with
  | plain m =>
    cases m with
    | code =>
      by_cases hc : c = '/'
      · simp [written, step, reduced, text, hc]
      · cases hq : isQuote c <;> simp [written, step, reduced, text, enter, hc, hq]
    | string q =>
      by_cases hc : c = '\\'
      · simp [written, step, reduced, text, hc]
      · by_cases hq : c = q
        · subst hq
          simp [written, step, reduced, text, hc]
        · simp [written, step, reduced, text, hc, hq]
    | lineComment =>
      by_cases hc : c = '\n' <;> simp [written, step, reduced, text, enter, isQuote, hc]
    | blockComment => by_cases hc : c = '*' <;> simp [written, step, reduced, text, hc]
  | slash =>
    by_cases hline : c = '/'
    · simp [written, step, reduced, text, hline]
    · by_cases hblock : c = '*'
      · simp [written, step, reduced, text, hblock]
      · cases hq : isQuote c <;> simp [written, step, reduced, text, enter, hline, hblock, hq]
  | escape q => simp [written, step, reduced, text]
  | asterisk =>
    by_cases hend : c = '/'
    · simp [written, step, reduced, text, hend, enter, isQuote]
    · by_cases hc : c = '*' <;> simp [written, step, reduced, text, hend, hc]

/-- What has been written is written again. -/
theorem reads_text (st : State) (s : List Char) :
    st.reduced.text (st.text s) = st.text s ∧
      st.reduced.after (st.text s) = (st.after s).reduced := by
  induction s generalizing st with
  | nil => exact ⟨rfl, rfl⟩
  | cons c s ih =>
    obtain ⟨htext, hafter⟩ := reads_written st c
    obtain ⟨ihtext, ihafter⟩ := ih (st.step c)
    rw [text, text_append, htext, after_append, hafter, ihtext, ihafter]
    exact ⟨rfl, rfl⟩

theorem strip_flush (st : State) :
    strip st.reduced.mode (st.reduced.pending ++ st.flush) = st.flush := by
  cases st with
  | plain m => cases m <;> rfl
  | slash | asterisk => rfl
  | escape q =>
    by_cases hq : q = '\\'
    · subst hq
      rfl
    · simp [flush, reduced, mode, pending, strip, Ne.symm hq]

theorem strip_strip (s : List Char) : strip .code (strip .code s) = strip .code s := by
  have hwritten : strip .code s = (plain .code).text s ++ ((plain .code).after s).flush :=
    strip_eq_text_append (plain .code) s
  have hcode : (plain .code).reduced = plain .code := rfl
  obtain ⟨htext, hafter⟩ := reads_text (plain .code) s
  have hrun := strip_run (plain .code) ((plain .code).text s) ((plain .code).after s).flush
  rw [hcode] at htext hafter
  rw [htext, hafter, strip_flush] at hrun
  calc strip .code (strip .code s)
      = strip .code ((plain .code).text s ++ ((plain .code).after s).flush) := by rw [hwritten]
    _ = (plain .code).text s ++ ((plain .code).after s).flush := hrun
    _ = strip .code s := hwritten.symm

/-! ## Strings of stripped texts -/

/-- The quote of the string in which the stripper stands. -/
def quote? : State → Option Char
  | plain (.string q) => some q
  | escape q => some q
  | _ => none

theorem stringsClose_code (c : Char) (s : List Char) : Token.stringsClose none (c :: s)
    = Token.stringsClose (if isQuote c then some c else none) s := rfl

theorem stringsClose_written (st : State) (c : Char) (s : List Char) :
    Token.stringsClose st.quote? (st.written c ++ s) = Token.stringsClose (st.step c).quote? s := by
  cases st with
  | plain m =>
    cases m with
    | code =>
      by_cases hc : c = '/'
      · simp [written, step, quote?, hc]
      · cases hq : isQuote c <;> simp [written, step, quote?, enter, hc, hq, stringsClose_code]
    | string q =>
      by_cases hc : c = '\\'
      · simp [written, step, quote?, hc]
      · by_cases hq : c = q
        · subst hq
          simp [written, step, quote?, hc, Token.stringsClose_some_cons]
        · simp [written, step, quote?, hc, hq, Token.stringsClose_some_cons]
    | lineComment =>
      by_cases hc : c = '\n' <;> simp [written, step, quote?, stringsClose_code, isQuote, hc]
    | blockComment => by_cases hc : c = '*' <;> simp [written, step, quote?, hc]
  | slash =>
    by_cases hline : c = '/'
    · simp [written, step, quote?, hline]
    · by_cases hblock : c = '*'
      · simp [written, step, quote?, hblock]
      · have hslash : isQuote '/' = false := rfl
        cases hq : isQuote c <;>
          simp [written, step, quote?, enter, hline, hblock, hq, stringsClose_code, hslash]
  | escape q => simp [written, step, quote?, Token.stringsClose]
  | asterisk =>
    by_cases hend : c = '/'
    · simp [written, step, quote?, hend, stringsClose_code, isQuote]
    · by_cases hc : c = '*' <;> simp [written, step, quote?, hend, hc]

/-- The strings of what has been written are closed where the stripper stands in none. -/
theorem stringsClose_text (st : State) (s : List Char) :
    Token.stringsClose st.quote? (st.text s) = (st.after s).quote?.isNone := by
  induction s generalizing st with
  | nil => rw [text, Token.stringsClose, after_nil]
  | cons c s ih => rw [text, stringsClose_written, ih, after_cons]

end State

end Strip

open Strip (State strip)

/-! ## Comments -/

/-- A comment as it is written by hand: up to its first end mark, or up to the end of its line. -/
inductive Comment where
  | block (body : String) (isOpen : ¬ ['*', '/'] <:+: body.toList)
  | line (body : String) (isLine : '\n' ∉ body.toList)

namespace Comment

def text : Comment → String
  | block body _ => "/*" ++ body ++ "*/"
  | line body _ => "//" ++ body ++ "\n"

/-- What the stripper leaves of a comment. -/
def blank : Comment → Char
  | block .. => ' '
  | line .. => '\n'

theorem strip_lineComment {body : List Char} (h : '\n' ∉ body) (s : List Char) :
    strip .lineComment (body ++ '\n' :: s) = '\n' :: strip .code s := by
  induction body with
  | nil => simp [strip]
  | cons c body ih =>
    obtain ⟨hc, hbody⟩ := not_or.mp (mt List.mem_cons.mpr h)
    rw [List.cons_append, strip, if_neg (Ne.symm hc), ih hbody]

theorem strip_text_append (c : Comment) (s : List Char) :
    strip .code (c.text.toList ++ s) = c.blank :: strip .code s := by
  cases c with
  | block body h => simpa [text, blank, strip] using strip_blockComment h s
  | line body h => simpa [text, blank, strip] using strip_lineComment h s

theorem blank_eq (c : Comment) : c.blank = ' ' ∨ c.blank = '\n' := by
  cases c with
  | block body h => exact .inl rfl
  | line body h => exact .inr rfl

theorem isBlank_blank (c : Comment) : Text.isBlank c.blank = true := by
  obtain h | h := c.blank_eq <;> rw [h] <;> decide

/-- No word and no number goes on with what is left of a comment. -/
theorem isSeparator_blank (c : Comment) :
    Token.isWordChar c.blank = false ∧ Token.isNumberChar c.blank = false := by
  obtain h | h := c.blank_eq <;> rw [h] <;> decide +kernel

end Comment

/-- Behind this text the stripper is outside of strings and comments. -/
def StandsOutside (a : String) : Prop := ((State.plain .code).after a.toList).mode = .code

/-- In code a comment leaves a blank and nothing else. -/
theorem stripComments_append_comment {a : String}
    (h : (State.plain .code).after a.toList = .plain .code) (c : Comment) (b : String) :
    stripComments (a ++ c.text ++ b)
      = stripComments a ++ String.singleton c.blank ++ stripComments b := by
  apply String.toList_injective
  simp only [stripComments, String.toList_append, String.toList_ofList, List.append_assoc,
    State.strip_code_append h, c.strip_text_append]
  simp

/-! ## Tokens -/

/-- The tokens of the text of a module. -/
def Token.ofSource (source : String) : List Token := Token.all (stripComments source).toList

/-- A place in a module at which no token, string or comment is cut in two. -/
structure IsBetweenTokens (a b : String) : Prop where
  outside : (State.plain .code).after a.toList = .plain .code
  tokens : Token.ofSource (a ++ b) = Token.ofSource a ++ Token.ofSource b

theorem stringsClose_stripComments {a : String}
    (h : (State.plain .code).after a.toList = .plain .code) :
    Token.stringsClose none (stripComments a).toList = true := by
  have hclose := State.stringsClose_text (.plain .code) a.toList
  rw [h] at hclose
  rwa [stripComments, String.toList_ofList, State.strip_code_eq_text h]

/-- In front of a character that no word and no number goes on with, a text may be divided. -/
theorem ofSource_append {a b : String} (h : (State.plain .code).after a.toList = .plain .code)
    {c : Char} {s : List Char} (hb : strip .code b.toList = c :: s)
    (hw : Token.isWordChar c = false) (hn : Token.isNumberChar c = false) :
    Token.ofSource (a ++ b) = Token.ofSource a ++ Token.ofSource b := by
  have hclose := stringsClose_stripComments h
  simp only [Token.ofSource, stripComments, String.toList_append, String.toList_ofList] at hclose ⊢
  rw [State.strip_code_append h, hb, Token.all_append_cons hw hn hclose]

theorem isBetweenTokens_of_separator {a b : String}
    (h : (State.plain .code).after a.toList = .plain .code) {c : Char} {s : List Char}
    (hb : strip .code b.toList = c :: s) (hw : Token.isWordChar c = false)
    (hn : Token.isNumberChar c = false) : IsBetweenTokens a b := ⟨h, ofSource_append h hb hw hn⟩

/-- A comment divides the text around it. -/
theorem ofSource_append_comment {a : String}
    (h : (State.plain .code).after a.toList = .plain .code) (c : Comment) (b : String) :
    Token.ofSource (a ++ c.text ++ b) = Token.ofSource a ++ Token.ofSource b := by
  have hstrip : strip .code (c.text ++ b).toList = c.blank :: strip .code b.toList := by
    rw [String.toList_append, c.strip_text_append]
  obtain ⟨hw, hn⟩ := c.isSeparator_blank
  have hblank : Token.ofSource (c.text ++ b) = Token.ofSource b := by
    simp only [Token.ofSource, stripComments, String.toList_ofList]
    rw [hstrip, Token.all, if_pos c.isBlank_blank]
  rw [String.append_assoc, ofSource_append h hstrip hw hn, hblank]

/-- A module with comments added between its tokens. -/
inductive IsCommented (t : String) : String → Prop
  | refl : IsCommented t t
  | insert {a b : String} (c : Comment) :
      IsCommented t (a ++ b) → IsBetweenTokens a b → IsCommented t (a ++ c.text ++ b)

theorem IsCommented.ofSource_eq {t u : String} (h : IsCommented t u) :
    Token.ofSource u = Token.ofSource t := by
  induction h with
  | refl => rfl
  | insert c _ hplace ih => rw [ofSource_append_comment hplace.outside, ← hplace.tokens, ih]

/-- Stripping comments twice is stripping them once, a comment leaves nothing but a blank, and a
module with comments between its tokens has the exports that it has without them. -/
theorem comments_are_blanks :
    (∀ t, stripComments (stripComments t) = stripComments t) ∧
    (∀ a b (c : Comment), StandsOutside a → a.toList.getLast? ≠ some '/' →
      stripComments (a ++ c.text ++ b)
        = stripComments a ++ String.singleton c.blank ++ stripComments b) ∧
    ∀ t u, IsCommented t u → Export.ofSource u = Export.ofSource t := by
  refine ⟨fun t ↦ ?_, fun a b c h hlast ↦ ?_, fun t u h ↦ ?_⟩
  · rw [stripComments, stripComments, String.toList_ofList, State.strip_strip]
  · exact stripComments_append_comment (State.after_eq_code h hlast) c b
  · exact congrArg Export.all h.ofSource_eq

/-! A comment with quotes, behind a string with slashes. -/

def slashesFront : String := "export const A = \x7b\n  X: 'it//s'"

def slashesBack : String := ",\n\x7d as const;\n"

def quotesComment : Comment := .block " don't \" // " (by decide +kernel)

theorem comments_are_blanks_quotes :
    IsCommented (slashesFront ++ slashesBack) (slashesFront ++ quotesComment.text ++ slashesBack) ∧
      StandsOutside slashesFront ∧ slashesFront.toList.getLast? ≠ some '/' ∧
      stripComments (slashesFront ++ quotesComment.text ++ slashesBack)
        = stripComments slashesFront ++ String.singleton quotesComment.blank
          ++ stripComments slashesBack ∧
      Export.ofSource (slashesFront ++ quotesComment.text ++ slashesBack)
        = Export.ofSource (slashesFront ++ slashesBack) := by
  have hcode : (State.plain .code).after slashesFront.toList = .plain .code := by decide +kernel
  have hback : strip .code slashesBack.toList = ',' :: "\n\x7d as const;\n".toList := by
    decide +kernel
  have hplace : IsBetweenTokens slashesFront slashesBack :=
    isBetweenTokens_of_separator hcode hback (by decide +kernel) (by decide)
  have hcommented := IsCommented.refl.insert quotesComment hplace
  have hout : StandsOutside slashesFront := by rw [StandsOutside, hcode]; rfl
  have hlast : slashesFront.toList.getLast? ≠ some '/' := by decide +kernel
  obtain ⟨-, hstrip, hexports⟩ := comments_are_blanks
  exact ⟨hcommented, hout, hlast, hstrip _ slashesBack quotesComment hout hlast,
    hexports _ _ hcommented⟩

end FrontendSync.Module
