import FrontendSync.Proofs.Php.Lexeme
import FrontendSync.Proofs.Text.Property

/-!
# Spelled tokens

How a token is written, and what may follow it so that it is read back.  A text that is made of
lexemes, each of which is read before the rest, has exactly these lexemes, so its tokens are those
it was written from.
-/

namespace FrontendSync.Php

open FrontendSync.Text

/-! ## Spelling -/

theorem Punct.toList_spelling_ne_nil (p : Punct) : p.spelling.toList ≠ [] := by
  cases p <;> simp [spelling]

/-- A text as it stands between single quotes. -/
def escapeSingle : List Char → List Char
  | [] => []
  | c :: s => if c = '\'' ∨ c = '\\' then '\\' :: c :: escapeSingle s else c :: escapeSingle s

namespace Token.Kind

/-- A token as it is usually written; an integer that is written has no sign. -/
def spelling : Kind → List Char
  | name text => text.toList
  | var x => '$' :: x.toList
  | string text => '\'' :: (escapeSingle text.toList ++ ['\''])
  | int n => Decimal.intDigits n
  | float x => x.text.toList
  | docComment raw => raw.toList
  | punct p => p.spelling.toList
  | symbol c => if c = '=' then ['=', '='] else [c]

end Token.Kind

/-- Every character of a name is one of its letters, or a backslash before the next segment. -/
def IsNameTail : List Char → Prop
  | [] => True
  | c :: s => (Lexeme.isNameChar c = true ∨ c = '\\' ∧ s.head?.any Lexeme.isNameStart = true)
      ∧ IsNameTail s

/-- What can be read as one name. -/
structure IsName (text : List Char) : Prop where
  start : ∀ c s, text = c :: s → isBlank c = false ∧
    (Lexeme.isNameStart c = true ∨ c = '\\' ∧ s.head?.any Lexeme.isNameStart = true)
  tail : IsNameTail text.tail
  nonempty : text ≠ []

/-- A name of one segment in ASCII characters. -/
def isIdentifier : List Char → Bool
  | [] => false
  | c :: s => (c.isAlpha || c == '_') && s.all fun d ↦ d.isAlphanum || d == '_'

theorem isNameTail_append {s t : List Char} (hs : ∀ c ∈ s, Lexeme.isNameChar c = true)
    (ht : IsNameTail t) : IsNameTail (s ++ t) := by
  induction s with
  | nil => exact ht
  | cons c s ih =>
    obtain ⟨hc, hs⟩ := List.forall_mem_cons.mp hs
    exact ⟨.inl hc, ih hs⟩

theorem isNameTail_of_all {s : List Char} (h : ∀ c ∈ s, Lexeme.isNameChar c = true) :
    IsNameTail s := by
  have hs := isNameTail_append (t := []) h trivial
  rwa [List.append_nil] at hs

theorem exists_of_isIdentifier {text : List Char} (h : isIdentifier text = true) :
    ∃ c s, text = c :: s ∧ isBlank c = false ∧ Lexeme.isNameStart c = true ∧
      ∀ d ∈ s, Lexeme.isNameChar d = true := by
  cases text with
  | nil => simp [isIdentifier] at h
  | cons c s =>
    simp only [isIdentifier, Bool.and_eq_true, Bool.or_eq_true, beq_iff_eq, List.all_eq_true] at h
    obtain ⟨hc, hs⟩ := h
    refine ⟨c, s, rfl, ?_, ?_, ?_⟩
    · rcases hc with hc | rfl
      · exact isBlank_eq_false_of_isAlpha hc
      · rfl
    · rcases hc with hc | rfl
      · simp [Lexeme.isNameStart, hc]
      · rfl
    · intro d hd
      rcases hs d hd with hd | rfl
      · simp [Lexeme.isNameChar, hd]
      · rfl

theorem isName_cons {c : Char} {s : List Char} (hblank : isBlank c = false)
    (hstart : Lexeme.isNameStart c = true) (htail : IsNameTail s) : IsName (c :: s) := by
  refine ⟨?_, htail, List.cons_ne_nil c s⟩
  rintro d t heq
  obtain ⟨rfl, rfl⟩ := List.cons.inj heq
  exact ⟨hblank, .inl hstart⟩

theorem isName_of_isIdentifier {text : List Char} (h : isIdentifier text = true) : IsName text := by
  obtain ⟨c, s, rfl, hblank, hstart, htail⟩ := exists_of_isIdentifier h
  exact isName_cons hblank hstart (isNameTail_of_all htail)

namespace Token.Kind

/-- The tokens that are read back from their spelling: a documentation comment ends with its first
`*/`, and a symbol is no token of any other kind. -/
def IsSpelled : Kind → Prop
  | name text => IsName text.toList
  | var x => ∃ c s, x.toList = c :: s ∧ Lexeme.isNameStart c = true ∧
      ∀ d ∈ s, Lexeme.isNameChar d = true
  | string _ | punct _ => True
  | int n => 0 ≤ n ∧ n ≤ Decimal.maxInt
  | float _ => False
  | docComment raw => ∃ s, raw.toList = '/' :: '*' :: '*' :: (s ++ ['*', '/']) ∧
      s.head? ≠ some '/' ∧ ¬ ['*', '/'] <:+: s
  | symbol c => isBlank c = false ∧ Lexeme.isNameChar c = false ∧ c ∉ ['\'', '"', '#'] ∧
      (c = '=' ∨ ∀ p : Punct, p.spelling.toList.head? ≠ some c)

/-- The text after a token does not continue it. -/
def Stops : Kind → List Char → Prop
  | name _, rest => ∀ c ∈ rest.head?, Lexeme.isNameChar c = false ∧ c ≠ '\\'
  | var _, rest => ∀ c ∈ rest.head?, Lexeme.isNameChar c = false
  | int _, rest => ∀ c ∈ rest.head?, Lexeme.isNameChar c = false ∧ c ≠ '.'
  | punct .colon, rest => rest.head? ≠ some ':'
  | punct .assign, rest => rest.head? ≠ some '=' ∧ rest.head? ≠ some '>'
  | punct .question, rest => rest.head? ≠ some '-' ∧ rest.head? ≠ some '>'
  | punct .dot, rest => rest.head? ≠ some '.' ∧ rest.head?.any Char.isDigit = false
  | punct .minus, rest => rest.head? ≠ some '>'
  | symbol c, rest => c = '=' ∨
      ∀ d ∈ rest.head?, isBlank d = true ∧ Lexeme.isNameChar d = false
  | _, _ => True

end Token.Kind

namespace Lexeme

/-- A lexeme as the first one of a text that goes on with `rest`. -/
def IsReadBefore (l : Lexeme) (rest : List Char) : Prop :=
  ∃ c s, l.text ++ rest = c :: s ∧ l.text ≠ [] ∧ first c s = l

def ofKind (k : Token.Kind) : Lexeme := ⟨k.spelling, some k⟩

def blank (c : Char) : Lexeme := ⟨[c], none⟩

def openTag : Lexeme := ⟨['<', '?', 'p', 'h', 'p'], none⟩

/-! ## Reading names, numbers and quotes -/

theorem nameTail_append {s rest : List Char} (h : IsNameTail s) (hrest : nameTail rest = []) :
    nameTail (s ++ rest) = s := by
  induction s with
  | nil => exact hrest
  | cons c s ih =>
    obtain ⟨hc, htail⟩ := h
    have hnext : (isNameChar c || (c == '\\' && (s ++ rest).head?.any isNameStart)) = true := by
      rcases hc with hc | ⟨rfl, hs⟩
      · simp [hc]
      · cases s with
        | nil => simp at hs
        | cons d s => simpa using .inr hs
    rw [List.cons_append, nameTail, if_pos hnext, ih htail]

theorem nameTail_of_stops {text : String} {rest : List Char}
    (h : (Token.Kind.name text).Stops rest) : nameTail rest = [] := by
  cases rest with
  | nil => rfl
  | cons c rest =>
    obtain ⟨hc, hslash⟩ := h c rfl
    simp [nameTail, hc, hslash]

theorem takeWhile_append {p : Char → Bool} {s rest : List Char} (h : ∀ c ∈ s, p c = true)
    (hrest : ∀ c ∈ rest.head?, p c = false) : (s ++ rest).takeWhile p = s := by
  rw [List.takeWhile_append_of_pos h]
  cases rest with
  | nil => simp
  | cons c rest => simp [hrest c rfl]

theorem quotedTail_cons {quote c : Char} (h : c ≠ '\\') (s : List Char) :
    quotedTail quote (c :: s) = if c = quote then [c] else c :: quotedTail quote s := by
  cases s <;> simp [quotedTail, h]

theorem unquote_cons {quote c : Char} (h : c ≠ '\\') (escape? : Char → Option Char)
    (s : List Char) :
    unquote quote escape? (c :: s) = if c = quote then [] else c :: unquote quote escape? s := by
  cases s <;> simp [unquote, h]

theorem quotedTail_escapeSingle (s rest : List Char) :
    quotedTail '\'' (escapeSingle s ++ '\'' :: rest) = escapeSingle s ++ ['\''] := by
  induction s with
  | nil => simp [escapeSingle, quotedTail]
  | cons c s ih =>
    rw [escapeSingle]
    split
    · simp [quotedTail, ih]
    · rename_i hc
      obtain ⟨hquote, hslash⟩ := not_or.mp hc
      rw [List.cons_append, quotedTail_cons hslash, if_neg hquote, ih, List.cons_append]

theorem unquote_escapeSingle (s rest : List Char) :
    unquote '\'' singleEscape? (escapeSingle s ++ '\'' :: rest) = s := by
  induction s with
  | nil => simp [escapeSingle, unquote]
  | cons c s ih =>
    rw [escapeSingle]
    split
    · rename_i hc
      rcases hc with rfl | rfl <;> simp [unquote, singleEscape?, ih]
    · rename_i hc
      obtain ⟨hquote, hslash⟩ := not_or.mp hc
      rw [List.cons_append, unquote_cons hslash, if_neg hquote, ih]

/-! ## Each kind -/

/-- Only few characters start a lexeme that is decided by more than one character. -/
theorem first_eq {c : Char} (hblank : isBlank c = false) (hopen : c ≠ '<') (hclose : c ≠ '?')
    (s : List Char) : first c s =
      if c = '/' ∧ isDocComment s then
        ⟨c :: commentTail s, some (.docComment (String.ofList (c :: commentTail s)))⟩
      else if c = '/' ∧ s.head? = some '*' then ⟨c :: commentTail s, none⟩
      else if c = '/' ∧ s.head? = some '/' ∨ c = '#' ∧ s.head? ≠ some '[' then
        ⟨c :: lineCommentTail s, none⟩
      else if c = '\'' ∨ c = '"' then quoted c s
      else if c = '$' ∧ s.head?.any isNameStart then
        ⟨c :: s.takeWhile isNameChar, some (.var (String.ofList (s.takeWhile isNameChar)))⟩
      else if c.isDigit ∨ c = '.' ∧ s.head?.any Char.isDigit then number (c :: s)
      else if isNameStart c ∨ c = '\\' ∧ s.head?.any isNameStart then
        ⟨c :: nameTail s, some (.name (String.ofList (c :: nameTail s)))⟩
      else symbol c s := by
  have htags : tags.find? (startsWith · (c :: s)) = none := by
    simp [tags, startsWith, stripStart?, Ne.symm hopen, Ne.symm hclose]
  have hheredoc : startsWith ['<', '<', '<'] (c :: s) = false := by
    simp [startsWith, stripStart?, Ne.symm hopen]
  simp [first, hblank, htags, hheredoc]

/-- A name is read up to where its rest goes on no further. -/
theorem isReadBefore_of_nameTail {text : String} (h : IsName text.toList) {rest : List Char}
    (hrest : nameTail rest = []) : (ofKind (.name text)).IsReadBefore rest := by
  obtain ⟨hstart, htail, hne⟩ := h
  obtain ⟨c, s, hcs⟩ := List.exists_cons_of_ne_nil hne
  obtain ⟨hblank, hc⟩ := hstart c s hcs
  rw [hcs, List.tail_cons] at htail
  refine ⟨c, s ++ rest, by simp [ofKind, Token.Kind.spelling, hcs], hne, ?_⟩
  have hother {d : Char} (hd : isNameStart d = false) (hslash : d ≠ '\\') : c ≠ d := by
    rintro rfl
    rcases hc with hc | ⟨rfl, -⟩
    · simp [hd] at hc
    · exact hslash rfl
  have hdigit : c.isDigit = false := by
    rcases hc with hc | ⟨rfl, -⟩
    · exact not_isDigit_of_isNameStart hc
    · rfl
  have hname : isNameStart c = true ∨ c = '\\' ∧ (s ++ rest).head?.any isNameStart = true := by
    refine hc.imp_right (And.imp_right fun hs ↦ ?_)
    cases s with
    | nil => simp at hs
    | cons d s => exact hs
  rw [first_eq hblank (hother (by decide) (by decide)) (hother (by decide) (by decide))]
  simp only [hother (d := '/') (by decide) (by decide), hother (d := '#') (by decide) (by decide),
    hother (d := '\'') (by decide) (by decide), hother (d := '"') (by decide) (by decide),
    hother (d := '$') (by decide) (by decide), hother (d := '.') (by decide) (by decide), hdigit,
    false_and, or_self, Bool.false_eq_true, if_false, hname, if_true]
  rw [nameTail_append htail hrest, ofKind, Token.Kind.spelling, hcs, ← hcs, String.ofList_toList]

theorem isReadBefore_name {text : String} (h : IsName text.toList) {rest : List Char}
    (hrest : (Token.Kind.name text).Stops rest) : (ofKind (.name text)).IsReadBefore rest :=
  isReadBefore_of_nameTail h (nameTail_of_stops hrest)

theorem isReadBefore_var {x : String} (h : (Token.Kind.var x).IsSpelled) {rest : List Char}
    (hrest : (Token.Kind.var x).Stops rest) : (ofKind (.var x)).IsReadBefore rest := by
  obtain ⟨c, s, hcs, hc, hs⟩ := h
  have hall : ∀ d ∈ x.toList, isNameChar d = true := by
    rw [hcs]
    exact List.forall_mem_cons.mpr ⟨isNameChar_of_isNameStart hc, hs⟩
  have hhead : (x.toList ++ rest).head?.any isNameStart = true := by simp [hcs, hc]
  refine ⟨'$', x.toList ++ rest, rfl, by simp [ofKind, Token.Kind.spelling], ?_⟩
  rw [first_eq (by decide) (by decide) (by decide)]
  simp only [takeWhile_append hall hrest, hhead, String.ofList_toList]
  simp [ofKind, Token.Kind.spelling]

theorem isReadBefore_string (text : String) (rest : List Char) :
    (ofKind (.string text)).IsReadBefore rest := by
  refine ⟨'\'', escapeSingle text.toList ++ '\'' :: rest, by simp [ofKind, Token.Kind.spelling],
    by simp [ofKind, Token.Kind.spelling], ?_⟩
  rw [first_eq (by decide) (by decide) (by decide)]
  simp [quoted, quotedTail_escapeSingle, unquote_escapeSingle, ofKind, Token.Kind.spelling]

theorem dropMarks_of_all_isDigit {s : List Char} (h : ∀ c ∈ s, c.isDigit = true) :
    dropMarks s = s := by
  refine List.filter_eq_self.mpr fun c hc ↦ ?_
  have hdigit := h c hc
  rw [decide_eq_true_eq]
  rintro rfl
  simp at hdigit

theorem isNameChar_of_isDigit {c : Char} (h : c.isDigit = true) : isNameChar c = true := by
  simp [isNameChar, Char.isAlphanum, h]

theorem fractionTail_of_head? {s : List Char} (h : s.head? ≠ some '.') : fractionTail s = [] := by
  unfold fractionTail
  split
  · simp at h
  · rfl

/-- Digits that nothing continues are a number without fraction and exponent. -/
theorem decimal_append {s rest : List Char} (hs : ∀ c ∈ s, c.isDigit = true)
    (hrest : ∀ c ∈ rest.head?, isNameChar c = false ∧ c ≠ '.') {n : Int}
    (hn : Decimal.int? s = some n) : decimal (s ++ rest) = ⟨s, some (.int n)⟩ := by
  have hwhole : (s ++ rest).takeWhile isDigitOrMark = s := by
    refine takeWhile_append (fun c hc ↦ by simp [isDigitOrMark, hs c hc]) fun c hc ↦ ?_
    have hname := (hrest c hc).1
    refine Bool.eq_false_iff.mpr fun hmark ↦ ?_
    rcases Bool.or_eq_true_iff.mp hmark with hdigit | hmark
    · simp [isNameChar_of_isDigit hdigit] at hname
    · simp [isNameChar, beq_iff_eq.mp hmark] at hname
  have hfraction : fractionTail rest = [] := by
    refine fractionTail_of_head? fun hdot ↦ ?_
    exact (hrest '.' hdot).2 rfl
  have hexponent : exponentTail rest = [] := by
    cases rest with
    | nil => rfl
    | cons c rest =>
      have hname := (hrest c rfl).1
      have hne {d : Char} (hd : isNameChar d = true) : c ≠ d := by
        rintro rfl
        simp [hd] at hname
      simp [exponentTail, hne (d := 'e') (by decide), hne (d := 'E') (by decide)]
  simp [decimal, hwhole, hfraction, hexponent, dropMarks_of_all_isDigit hs, hn]

theorem number_append {s rest : List Char} (hs : ∀ c ∈ s, c.isDigit = true)
    (hrest : ∀ c ∈ rest.head?, isNameChar c = false ∧ c ≠ '.') {n : Int}
    (hn : Decimal.int? s = some n) : number (s ++ rest) = ⟨s, some (.int n)⟩ := by
  have hx : ∀ c, (c = 'x' ∨ c = 'X') → ∀ t, s ++ rest ≠ '0' :: c :: t := by
    rintro c hc t heq
    cases s with
    | nil => simp [Decimal.int?, Decimal.unsigned?] at hn
    | cons d s =>
      rw [List.cons_append] at heq
      obtain ⟨rfl, hsecond⟩ := List.cons.inj heq
      cases s with
      | nil =>
        rw [List.nil_append] at hsecond
        have hname := (hrest c (by rw [hsecond]; rfl)).1
        rcases hc with rfl | rfl <;> exact absurd hname (by decide)
      | cons d s =>
        have hdigit := hs d (by simp)
        rw [List.cons_append] at hsecond
        obtain rfl := (List.cons.inj hsecond).1
        rcases hc with rfl | rfl <;> exact absurd hdigit (by decide)
  unfold number
  split
  · rename_i c t heq
    rw [if_neg fun hc ↦ hx c hc t heq, ← heq, decimal_append hs hrest hn]
  · exact decimal_append hs hrest hn

theorem first_of_isDigit {c : Char} (hc : c.isDigit = true) (s : List Char) :
    first c s = number (c :: s) := by
  have hother {d : Char} (hd : d.isDigit = false) : c ≠ d := by
    rintro rfl
    simp [hc] at hd
  rw [first_eq (isBlank_eq_false_of_isDigit hc) (hother (by decide)) (hother (by decide))]
  simp only [hother (d := '/') (by decide), hother (d := '#') (by decide),
    hother (d := '\'') (by decide), hother (d := '"') (by decide), hother (d := '$') (by decide),
    hc, false_and, or_self, if_false, true_or, if_true]

theorem isReadBefore_int {n : Int} (h : (Token.Kind.int n).IsSpelled) {rest : List Char}
    (hrest : (Token.Kind.int n).Stops rest) : (ofKind (.int n)).IsReadBefore rest := by
  obtain ⟨hnonneg, hmax⟩ := h
  obtain ⟨m, rfl⟩ := Int.eq_ofNat_of_zero_le hnonneg
  have hdigits : ∀ c ∈ Decimal.digits m, c.isDigit = true := fun _ ↦ Decimal.isDigit_of_mem_digits
  have hne : Decimal.digits m ≠ [] := Decimal.digits_ne_nil m
  have hint : Decimal.int? (Decimal.digits m) = some (m : Int) := by
    refine Decimal.int?_digits (Decimal.fits_iff.mpr ⟨le_trans (by decide) hnonneg, hmax⟩)
  have hnumber := number_append hdigits hrest hint
  obtain ⟨c, s, hcs⟩ := List.exists_cons_of_ne_nil hne
  have hspelling : (ofKind (.int m)).text = c :: s := hcs
  have hc : c.isDigit = true := hdigits c (by rw [hcs]; exact List.mem_cons_self)
  rw [hcs, List.cons_append] at hnumber
  refine ⟨c, s ++ rest, by rw [hspelling, List.cons_append], by simp [hspelling], ?_⟩
  rw [first_of_isDigit hc, hnumber, ← hspelling]
  rfl

theorem commentTail_append {s : List Char} (h : ¬ ['*', '/'] <:+: s) (rest : List Char) :
    commentTail (s ++ '*' :: '/' :: rest) = s ++ ['*', '/'] := by
  induction s with
  | nil => rfl
  | cons c s ih =>
    have htail : ¬ ['*', '/'] <:+: s := fun hs ↦ h (hs.trans (List.suffix_cons c s).isInfix)
    rw [List.cons_append, commentTail.eq_def]
    split
    · simp_all
    · rename_i heq
      obtain ⟨rfl, hnext⟩ := List.cons.inj heq
      cases s with
      | nil => simp at hnext
      | cons d s =>
        obtain ⟨rfl, -⟩ := List.cons.inj hnext
        exact absurd ⟨[], s, rfl⟩ h
    · rename_i heq
      obtain ⟨rfl, rfl⟩ := List.cons.inj heq
      rw [ih htail, List.cons_append]

theorem isReadBefore_docComment {raw : String} (h : (Token.Kind.docComment raw).IsSpelled)
    (rest : List Char) : (ofKind (.docComment raw)).IsReadBefore rest := by
  obtain ⟨s, hraw, hslash, hclose⟩ := h
  have hdoc : isDocComment ('*' :: '*' :: (s ++ '*' :: '/' :: rest)) = true := by
    cases s with
    | nil => rfl
    | cons c s =>
      have hc : c ≠ '/' := fun hc ↦ hslash (congrArg some hc)
      unfold isDocComment
      split
      · simp_all
      · rfl
      · simp_all
  have hclosed : ¬ ['*', '/'] <:+: '*' :: '*' :: s := by
    rw [List.infix_cons_iff, List.infix_cons_iff, List.cons_prefix_cons, List.cons_prefix_cons,
      List.cons_prefix_cons]
    rintro (⟨-, h, -⟩ | ⟨-, h⟩ | h)
    · simp at h
    · cases s with
      | nil => simp at h
      | cons c s =>
        obtain ⟨rfl, -⟩ := List.cons_prefix_cons.mp h
        exact hslash rfl
    · exact hclose h
  have hcomment : commentTail ('*' :: '*' :: (s ++ '*' :: '/' :: rest))
      = '*' :: '*' :: (s ++ ['*', '/']) := commentTail_append hclosed rest
  refine ⟨'/', '*' :: '*' :: (s ++ '*' :: '/' :: rest), ?_, ?_, ?_⟩
  · simp [ofKind, Token.Kind.spelling, hraw]
  · simp [ofKind, Token.Kind.spelling, hraw]
  · rw [first_eq (by decide) (by decide) (by decide), if_pos ⟨rfl, hdoc⟩, hcomment, ← hraw,
      String.ofList_toList]
    rfl

theorem stripStart?_eq_none {c : Char} {s : List Char} (h : s.head? ≠ some c) (p : List Char) :
    stripStart? (c :: p) s = none := by
  cases s with
  | nil => rfl
  | cons d s =>
    have hd : c ≠ d := fun hd ↦ h (congrArg some hd.symm)
    simp [stripStart?, hd]

/-- No longer mark is read where one that ends stands. -/
theorem symbol_append {p : Punct} {c : Char} {s rest : List Char} (hcs : p.spelling.toList = c :: s)
    (hrest : (Token.Kind.punct p).Stops rest) : symbol c (s ++ rest) = ofKind (.punct p) := by
  cases p
  all_goals
    simp only [Punct.spelling, String.reduceToList, List.cons.injEq] at hcs
    obtain ⟨rfl, rfl⟩ := hcs
    simp only [Token.Kind.Stops] at hrest
    simp [symbol, Punct.all, Punct.spelling, startsWith, stripStart?, stripStart?_eq_none, hrest,
      ofKind, Token.Kind.spelling]

/-- A mark starts no other kind of lexeme. -/
theorem first_append {p : Punct} {c : Char} {s rest : List Char} (hcs : p.spelling.toList = c :: s)
    (hrest : (Token.Kind.punct p).Stops rest) : first c (s ++ rest) = symbol c (s ++ rest) := by
  have hc : isBlank c = false ∧ isNameStart c = false := by
    cases p
    all_goals
      simp only [Punct.spelling, String.reduceToList, List.cons.injEq] at hcs
      obtain ⟨rfl, -⟩ := hcs
      decide
  cases p
  all_goals
    simp only [Punct.spelling, String.reduceToList, List.cons.injEq] at hcs
    obtain ⟨rfl, rfl⟩ := hcs
    simp only [Token.Kind.Stops] at hrest
    simp [first, hc, tags, startsWith, stripStart?, stripStart?_eq_none, hrest]

theorem isReadBefore_punct {p : Punct} {rest : List Char}
    (hrest : (Token.Kind.punct p).Stops rest) : (ofKind (.punct p)).IsReadBefore rest := by
  obtain ⟨c, s, hcs⟩ := List.exists_cons_of_ne_nil p.toList_spelling_ne_nil
  refine ⟨c, s ++ rest, by simp [ofKind, Token.Kind.spelling, hcs], p.toList_spelling_ne_nil, ?_⟩
  rw [first_append hcs hrest, symbol_append hcs hrest]

/-- Before a gap, a character that starts no other lexeme is a symbol. -/
theorem first_of_gap {c : Char} (hblank : isBlank c = false) (hname : isNameChar c = false)
    (hquote : c ∉ ['\'', '"', '#']) (hmark : ∀ p : Punct, p.spelling.toList.head? ≠ some c)
    {rest : List Char} (hrest : ∀ d ∈ rest.head?, isBlank d = true ∧ isNameChar d = false) :
    first c rest = symbol c rest := by
  have hnext {d : Char} (hd : isBlank d = false) : rest.head? ≠ some d := fun h ↦ by
    simp [(hrest d h).1] at hd
  have hstart : rest.head?.any isNameStart = false := by
    cases rest with
    | nil => rfl
    | cons d rest =>
      refine Bool.eq_false_iff.mpr fun hd ↦ ?_
      simp [isNameChar_of_isNameStart hd] at hrest
  have hdigit : c.isDigit = false := by
    refine Bool.eq_false_iff.mpr fun hd ↦ ?_
    simp [isNameChar_of_isDigit hd] at hname
  have hcStart : isNameStart c = false := by
    refine Bool.eq_false_iff.mpr fun hd ↦ ?_
    simp [isNameChar_of_isNameStart hd] at hname
  have hquestion : c ≠ '?' := fun hc ↦ hmark .question (by simp [hc, Punct.spelling])
  have hdot : c ≠ '.' := fun hc ↦ hmark .dot (by simp [hc, Punct.spelling])
  have htags : tags.find? (startsWith · (c :: rest)) = none := by
    by_cases hc : c = '<'
    · subst hc
      have hnone := stripStart?_eq_none (hnext (d := '?') (by decide))
      simp [tags, startsWith, stripStart?, hnone]
    · simp [tags, startsWith, stripStart?, Ne.symm hc, Ne.symm hquestion]
  have hheredoc : startsWith ['<', '<', '<'] (c :: rest) = false := by
    have hnone := stripStart?_eq_none (hnext (d := '<') (by decide))
    by_cases hc : c = '<'
    · simp [startsWith, stripStart?, hc, hnone]
    · simp [startsWith, stripStart?, Ne.symm hc]
  have hdoc : isDocComment rest = false := by
    unfold isDocComment
    split
    · rfl
    · exact absurd rfl (hnext (d := '*') (by decide))
    · rfl
  simp only [List.mem_cons, List.not_mem_nil, or_false, not_or] at hquote
  obtain ⟨hsingle, hdouble, hhash⟩ := hquote
  simp [first, hblank, htags, hheredoc, hdoc, hnext (d := '*') (by decide),
    hnext (d := '/') (by decide), hsingle, hdouble, hhash, hstart, hdigit, hdot, hcStart]

theorem isReadBefore_symbol {c : Char} (h : (Token.Kind.symbol c).IsSpelled) {rest : List Char}
    (hrest : (Token.Kind.symbol c).Stops rest) : (ofKind (.symbol c)).IsReadBefore rest := by
  obtain ⟨hblank, hname, hquote, hmark⟩ := h
  by_cases hc : c = '='
  · subst hc
    have hstart : isNameStart '=' = false := by decide
    refine ⟨'=', '=' :: rest, rfl, by simp [ofKind, Token.Kind.spelling], ?_⟩
    rw [first_eq (by decide) (by decide) (by decide)]
    simp [symbol, Punct.all, Punct.spelling, startsWith, stripStart?, ofKind, Token.Kind.spelling,
      hstart]
  · have hspelling : (ofKind (.symbol c)).text = [c] := if_neg hc
    refine ⟨c, rest, by simp [hspelling], by simp [hspelling], ?_⟩
    have hmark := hmark.resolve_left hc
    rw [first_of_gap hblank hname hquote hmark (hrest.resolve_left hc), symbol]
    have hnone : Punct.all.find? (fun p ↦ startsWith p.spelling.toList (c :: rest)) = none := by
      refine List.find?_eq_none.mpr fun p _ hp ↦ ?_
      have hhead := hmark p
      cases hp' : p.spelling.toList with
      | nil =>
        exact p.toList_spelling_ne_nil hp'
      | cons d t =>
        rw [hp'] at hp hhead
        have hd : d ≠ c := fun hd ↦ hhead (congrArg some hd)
        simp [startsWith, stripStart?, hd] at hp
    rw [hnone, ← hspelling]
    rfl

/-- A spelled token is read back where nothing continues it. -/
theorem isReadBefore_ofKind {k : Token.Kind} (h : k.IsSpelled) {rest : List Char}
    (hrest : k.Stops rest) : (ofKind k).IsReadBefore rest := by
  cases k with
  | name text => exact isReadBefore_name h hrest
  | var x => exact isReadBefore_var h hrest
  | string text => exact isReadBefore_string text rest
  | int n => exact isReadBefore_int h hrest
  | float x => exact h.elim
  | docComment raw => exact isReadBefore_docComment h rest
  | punct p => exact isReadBefore_punct hrest
  | symbol c => exact isReadBefore_symbol h hrest

theorem isReadBefore_blank {c : Char} (h : isBlank c = true) (rest : List Char) :
    (blank c).IsReadBefore rest :=
  ⟨c, rest, rfl, by simp [blank], by simp [first, h, blank]⟩

theorem isReadBefore_openTag (rest : List Char) : openTag.IsReadBefore rest := by
  refine ⟨'<', '?' :: 'p' :: 'h' :: 'p' :: rest, rfl, by simp [openTag], ?_⟩
  have hblank : isBlank '<' = false := by decide
  simp [first, hblank, tags, startsWith, stripStart?, openTag]

/-! ## Texts -/

/-- The text of lexemes. -/
def textOf (ls : List Lexeme) : List Char := ls.flatMap text

@[simp] theorem textOf_nil : textOf [] = [] := rfl

@[simp] theorem textOf_cons (l : Lexeme) (ls : List Lexeme) :
    textOf (l :: ls) = l.text ++ textOf ls := rfl

@[simp] theorem textOf_append (ls ms : List Lexeme) : textOf (ls ++ ms) = textOf ls ++ textOf ms :=
  List.flatMap_append

/-- Each lexeme is read before the others and `rest`. -/
def AreReadBefore : List Lexeme → List Char → Prop
  | [], _ => True
  | l :: ls, rest => l.IsReadBefore (textOf ls ++ rest) ∧ AreReadBefore ls rest

@[simp] theorem areReadBefore_nil (rest : List Char) : AreReadBefore [] rest := trivial

@[simp] theorem areReadBefore_cons {l : Lexeme} {ls : List Lexeme} {rest : List Char} :
    AreReadBefore (l :: ls) rest ↔ l.IsReadBefore (textOf ls ++ rest) ∧ AreReadBefore ls rest :=
  Iff.rfl

@[simp] theorem areReadBefore_append {ls ms : List Lexeme} {rest : List Char} :
    AreReadBefore (ls ++ ms) rest
      ↔ AreReadBefore ls (textOf ms ++ rest) ∧ AreReadBefore ms rest := by
  induction ls with
  | nil => simp
  | cons l ls ih => simp [ih, and_assoc]

theorem all_eq_all_drop (skip : Nat) (s : List Char) : all skip s = all 0 (s.drop skip) := by
  induction s generalizing skip with
  | nil => cases skip <;> simp [all]
  | cons c s ih =>
    cases skip with
    | zero => rfl
    | succ skip => rw [all, ih, List.drop_succ_cons]

theorem all_append_of_isReadBefore {l : Lexeme} {rest : List Char} (h : l.IsReadBefore rest) :
    all 0 (l.text ++ rest) = l :: all 0 rest := by
  obtain ⟨c, s, hcs, hne, hfirst⟩ := h
  obtain ⟨d, t, hdt⟩ := List.exists_cons_of_ne_nil hne
  rw [hcs, all, hfirst, all_eq_all_drop, hdt, List.length_cons, Nat.add_sub_cancel]
  rw [hdt, List.cons_append] at hcs
  obtain ⟨-, rfl⟩ := List.cons.inj hcs
  rw [List.drop_left]

/-- A text has the lexemes it is made of. -/
theorem all_textOf {ls : List Lexeme} {rest : List Char} (h : AreReadBefore ls rest) :
    all 0 (textOf ls ++ rest) = ls ++ all 0 rest := by
  induction ls with
  | nil => rfl
  | cons l ls ih =>
    rw [textOf_cons, List.append_assoc, all_append_of_isReadBefore h.1, ih h.2, List.cons_append]

/-! ## Tokens -/

@[simp] theorem tokens_nil (line : Nat) : tokens line [] = [] := rfl

@[simp] theorem tokens_ofKind (line : Nat) (k : Token.Kind) (ls : List Lexeme) :
    tokens line (ofKind k :: ls) = ⟨k, line⟩ :: tokens (line + k.spelling.count '\n') ls := rfl

@[simp] theorem tokens_blank (line : Nat) (c : Char) (ls : List Lexeme) :
    tokens line (blank c :: ls) = tokens (line + [c].count '\n') ls := rfl

@[simp] theorem tokens_openTag (line : Nat) (ls : List Lexeme) :
    tokens line (openTag :: ls) = tokens line ls := rfl

@[simp] theorem tokens_append (line : Nat) (ls ms : List Lexeme) :
    tokens line (ls ++ ms) = tokens line ls ++ tokens (line + (textOf ls).count '\n') ms := by
  induction ls generalizing line with
  | nil => simp
  | cons l ls ih =>
    simp only [List.cons_append, tokens, textOf_cons, List.count_append, ih, Nat.add_assoc]
    cases l.kind <;> rfl

end Lexeme

/-- A text has the tokens of the lexemes it is made of. -/
theorem tokens_textOf {ls : List Lexeme} (h : Lexeme.AreReadBefore ls []) :
    tokens (String.ofList (Lexeme.textOf ls)) = Lexeme.tokens 1 ls := by
  have hall := Lexeme.all_textOf h
  rw [List.append_nil, Lexeme.all, List.append_nil] at hall
  rw [tokens, String.toList_ofList, hall]

end FrontendSync.Php
