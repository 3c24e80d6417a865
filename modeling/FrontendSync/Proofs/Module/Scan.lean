import FrontendSync.Module.Export
import FrontendSync.Proofs.Module.Envelope
import FrontendSync.Proofs.Number.Decimal
import FrontendSync.Proofs.Module.Strings
import FrontendSync.Proofs.Text.Property

/-!
# Scanning a text

A text passes three stages before its exports are read: its line breaks are made plain, its
comments are stripped, and it is cut into tokens.  `Scans` says what a piece of text becomes in all
three of them whatever comes after it, and pieces are put together with `Scans.append`.
-/

namespace FrontendSync.Module

open Envelope (plainBreaks plainBreaks_cons)

/-- The tokens of a text after its line breaks are plain and its comments are gone. -/
def scan (s : List Char) : List Token := Token.all (Strip.strip .code (plainBreaks s))

/-! ## Comments -/

/-- A block comment ends at the first asterisk that a slash follows. -/
theorem strip_blockComment {body : List Char} (h : ¬ ['*', '/'] <:+: body) (s : List Char) :
    Strip.strip .blockComment (body ++ '*' :: '/' :: s) = ' ' :: Strip.strip .code s := by
  induction body with
  | nil => simp [Strip.strip]
  | cons c body ih =>
    have hbody : ¬ ['*', '/'] <:+: body := fun hi ↦ h (hi.trans (List.suffix_cons _ _).isInfix)
    have hc : ∀ u, c = '*' → body ++ '*' :: '/' :: s = '/' :: u → False := by
      rintro u rfl hu
      cases body with
      | nil => exact absurd (List.cons.inj hu).1 (by decide)
      | cons d body =>
        obtain rfl := (List.cons.inj hu).1
        exact h ⟨[], body, rfl⟩
    rw [List.cons_append, Strip.strip, ih hbody]
    exact hc

/-- Characters that neither open a string nor a comment are copied by the stripper. -/
theorem strip_code_append {t : List Char}
    (h : ∀ c ∈ t, c ≠ '/' ∧ Token.isQuote c = false) (s : List Char) :
    Strip.strip .code (t ++ s) = t ++ Strip.strip .code s := by
  induction t with
  | nil => rfl
  | cons c t ih =>
    obtain ⟨⟨hs, hq⟩, ht⟩ := List.forall_mem_cons.mp h
    have hq' : Strip.isQuote c = false := hq
    rw [List.cons_append, Strip.strip]
    · simp [hq', ih ht]
    · exact fun _ hc _ ↦ hs hc
    · exact fun _ hc _ ↦ hs hc

/-! ## Tokens -/

namespace Token

/-! ### Words -/

/-- Whether a text is one word. -/
def isWord : List Char → Bool
  | [] => false
  | c :: cs => isWordStart c && cs.all isWordChar

theorem isWordChar_of_isWordStart {c : Char} (h : isWordStart c = true) : isWordChar c = true := by
  simp only [isWordStart, isWordChar, Text.isLetterOrNumeral, Bool.or_eq_true] at h ⊢
  obtain (hl | hu) | hd := h
  · exact .inl (.inl (.inl hl))
  · exact .inl (.inr hu)
  · exact .inr hd

theorem isWordChar_of_mem {t : List Char} (h : isWord t = true) {c : Char} (hc : c ∈ t) :
    isWordChar c = true := by
  cases t with
  | nil => simp at hc
  | cons d t =>
    simp only [isWord, Bool.and_eq_true, List.all_eq_true] at h
    obtain rfl | hc := List.mem_cons.mp hc
    · exact isWordChar_of_isWordStart h.1
    · exact h.2 c hc

/-- Words hold no character that starts a string or a comment, and no carriage return. -/
theorem ne_of_isWordChar {c : Char} (h : isWordChar c = true) :
    (c ≠ '/' ∧ isQuote c = false) ∧ c ≠ '\r' := by
  refine ⟨⟨?_, Bool.eq_false_iff.mpr fun hq ↦ ?_⟩, ?_⟩
  · rintro rfl
    exact absurd h (by decide +kernel)
  · obtain rfl | rfl | rfl := isQuote_eq_true hq <;> exact absurd h (by decide +kernel)
  · rintro rfl
    exact absurd h (by decide +kernel)

/-- Nothing else starts with a letter, an underscore or a dollar sign. -/
theorem excludes_of_isWordStart {c : Char} (h : isWordStart c = true) :
    Text.isBlank c = false ∧ isQuote c = false ∧ c.isDigit = false ∧ c ≠ '.' := by
  refine ⟨Bool.eq_false_iff.mpr fun hb ↦ ?_, ?_, Bool.eq_false_iff.mpr fun hd ↦ ?_, ?_⟩
  · have hl := Text.isLetter_eq_false_of_isBlank hb
    simp only [isWordStart, hl, Bool.false_or, Bool.or_eq_true, beq_iff_eq] at h
    obtain rfl | rfl := h <;> exact absurd hb (by decide)
  · exact (ne_of_isWordChar (isWordChar_of_isWordStart h)).1.2
  · have hl := Text.isLetter_eq_false_of_isDigit hd
    simp only [isWordStart, hl, Bool.false_or, Bool.or_eq_true, beq_iff_eq] at h
    obtain rfl | rfl := h <;> exact absurd hd (by decide)
  · rintro rfl
    exact absurd h (by decide +kernel)

/-- A word is one token if the text behind it does not go on with it. -/
theorem all_word_append {t : List Char} (ht : isWord t = true) {s : List Char}
    (hs : ∀ c ∈ s.head?, isWordChar c = false) :
    all (t ++ s) = .word (String.ofList t) :: all s := by
  cases t with
  | nil => simp [isWord] at ht
  | cons c t =>
    simp only [isWord, Bool.and_eq_true, List.all_eq_true] at ht
    obtain ⟨hb, hq, hd, hdot⟩ := excludes_of_isWordStart ht.1
    have htake : (t ++ s).takeWhile isWordChar = t := by
      rw [List.takeWhile_append_of_pos ht.2]
      cases s with
      | nil => simp
      | cons d s => simp [hs d rfl]
    rw [List.cons_append, all]
    simp [hb, hq, hd, hdot, ht.1, htake]

theorem all_word {t : List Char} (h : isWord t = true) : all t = [.word (String.ofList t)] := by
  have hall := all_word_append (s := []) h (by simp)
  simpa [all] using hall

/-- What a text is cut into as a word is a word. -/
theorem isWord_toList_of_mem_all {s : List Char} {w : String} (h : .word w ∈ all s) :
    isWord w.toList = true := by
  fun_induction all s with
  | case1 => simp at h
  | case2 c rest _ ih => exact ih h
  | case3 c rest _ _ _ ih =>
    simp only [List.mem_cons, reduceCtorEq, false_or] at h
    exact ih h
  | case4 c rest _ _ _ more ih =>
    simp only [List.mem_cons, reduceCtorEq, false_or] at h
    exact ih h
  | case5 c rest _ _ _ hw more ih =>
    obtain heq | h := List.mem_cons.mp h
    · rw [Token.word.inj heq, String.toList_ofList]
      simp only [isWord, hw, Bool.true_and]
      exact List.all_takeWhile
    · exact ih h
  | case6 c rest _ _ _ _ ih =>
    simp only [List.mem_cons, reduceCtorEq, false_or] at h
    exact ih h

theorem not_isDigit_head?_of_isWord {t : List Char} (h : isWord t = true) :
    t.head?.any Char.isDigit = false := by
  cases t with
  | nil => rfl
  | cons c t =>
    simp only [isWord, Bool.and_eq_true] at h
    exact (excludes_of_isWordStart h.1).2.2.1

/-- A point between a word and what is no digit is a token. -/
theorem all_dotted {t : List Char} (ht : isWord t = true) {v : List Char}
    (hv : v.head?.any Char.isDigit = false) :
    all (t ++ '.' :: v) = .word (String.ofList t) :: .mark '.' :: all v := by
  have hdot : ∀ c ∈ ('.' :: v).head?, isWordChar c = false := by
    rintro c hc
    obtain rfl := Option.some.inj hc
    decide +kernel
  rw [all_word_append ht hdot, all]
  have hb : Text.isBlank '.' = false := by decide
  have hq : isQuote '.' = false := by decide
  have hd : '.'.isDigit = false := by decide
  have hs : isWordStart '.' = false := by decide +kernel
  simp [hb, hq, hd, hs, hv]

/-! ### Numbers -/

theorem isQuote_eq_false_of_isDigit {c : Char} (h : c.isDigit = true) : isQuote c = false := by
  refine Bool.eq_false_iff.mpr fun hq ↦ ?_
  obtain rfl | rfl | rfl := isQuote_eq_true hq <;> exact absurd h (by decide)

/-- Digits and points after a digit are one token. -/
theorem all_number {c : Char} {t : List Char} (hc : c.isDigit = true)
    (ht : ∀ d ∈ t, d.isDigit = true ∨ d = '.') :
    all (c :: t) = [.number (String.ofList (c :: t))] := by
  have hnumber : ∀ d ∈ t, isNumberChar d = true := by
    intro d hd
    obtain hd | rfl := ht d hd
    · simp [isNumberChar, Char.isAlphanum, hd]
    · rfl
  have hmark : ∀ d ∈ c :: t, d ≠ '_' := by
    rintro d hd rfl
    obtain rfl | hd := List.mem_cons.mp hd
    · exact absurd hc (by decide)
    · exact absurd (ht _ hd) (by decide)
  have htake : t.takeWhile isNumberChar = t := by
    simpa using @List.takeWhile_append_of_pos _ isNumberChar t [] hnumber
  have hfilter : (c :: t).filter (· ≠ '_') = c :: t :=
    List.filter_eq_self.mpr fun d hd ↦ decide_eq_true (hmark d hd)
  rw [all]
  simp only [Text.isBlank_eq_false_of_isDigit hc, isQuote_eq_false_of_isDigit hc, hc, htake,
    hfilter, Bool.true_or, Bool.false_eq_true, ↓reduceIte, List.drop_length]
  simp [all]

/-! ### In front of a separator -/

theorem takeWhile_append_cons {p : Char → Bool} {c : Char} (h : p c = false) (t s : List Char) :
    (t ++ c :: s).takeWhile p = t.takeWhile p := by
  induction t with
  | nil => simp [h]
  | cons d t ih => by_cases hd : p d = true <;> simp [hd, ih]

theorem drop_takeWhile_append (p : Char → Bool) (t s : List Char) :
    (t ++ s).drop (t.takeWhile p).length = t.drop (t.takeWhile p).length ++ s :=
  List.drop_append_of_le_length (List.takeWhile_sublist p).length_le

theorem isQuote_eq_false_of_isNumberChar {c : Char} (h : isNumberChar c = true) :
    isQuote c = false := by
  refine Bool.eq_false_iff.mpr fun hq ↦ ?_
  obtain rfl | rfl | rfl := isQuote_eq_true hq <;> exact absurd h (by decide)

/-- A text whose strings are closed, before a character that no word and no number goes on with, is
cut into tokens on its own. -/
theorem all_append_cons {c : Char} (hw : isWordChar c = false) (hn : isNumberChar c = false)
    {t : List Char} (ht : stringsClose none t = true) (s : List Char) :
    all (t ++ c :: s) = all t ++ all (c :: s) := by
  have hdigit : c.isDigit = false := by
    simp only [isNumberChar, Char.isAlphanum, Bool.or_eq_false_iff] at hn
    exact hn.1.1.2
  induction hk : t.length using Nat.strongRecOn generalizing t with
  | ind k ih =>
    cases t with
    | nil => simp [all]
    | cons d t =>
      have hnext : (t ++ c :: s).head?.any Char.isDigit = t.head?.any Char.isDigit := by
        cases t <;> simp [hdigit]
      rw [List.length_cons] at hk
      rw [List.cons_append, all, all, hnext]
      by_cases hd : isQuote d = true
      · rw [stringsClose, if_pos hd] at ht
        obtain ⟨hread, hclose⟩ := unquote_append hd ht (c :: s)
        have hlength := unquote_snd_length_le d t
        have hrest := ih (unquote d t).2.length (by omega) hclose rfl
        have hb : Text.isBlank d = false := by obtain rfl | rfl | rfl := isQuote_eq_true hd <;> rfl
        simp only [hb, hd, hread, hrest, Bool.false_eq_true, if_true, if_false, List.cons_append]
      · have hd := Bool.eq_false_iff.mpr hd
        rw [stringsClose_none_cons hd] at ht
        -- what is cut off at the front is no quote, so no string is open behind it
        have hrest {p : Char → Bool} (hp : ∀ e, p e = true → isQuote e = false) :
            all (t.drop (t.takeWhile p).length ++ c :: s)
              = all (t.drop (t.takeWhile p).length) ++ all (c :: s) := by
          refine ih _ ?_ (stringsClose_drop ht fun e he ↦ hp e ?_) rfl
          · rw [List.length_drop]
            omega
          · rw [← List.prefix_iff_eq_take.mp (List.takeWhile_prefix p)] at he
            exact List.all_eq_true.mp List.all_takeWhile e he
        have hword := hrest fun e he ↦ (ne_of_isWordChar he).1.2
        have hnumber := hrest fun e he ↦ isQuote_eq_false_of_isNumberChar he
        have hall := ih t.length (by omega) ht rfl
        simp only [hd, Bool.false_eq_true, if_false, takeWhile_append_cons hw,
          takeWhile_append_cons hn, drop_takeWhile_append, hword, hnumber, hall]
        split
        · rfl
        · split
          · rfl
          · split <;> rfl

end Token

/-! ## Pieces of text -/

/-- A piece of text that becomes the same tokens whatever comes after it. -/
def Scans (t : List Char) (ts : List Token) : Prop := ∀ s, scan (t ++ s) = ts ++ scan s

/-- A character that no word and no number goes on with and that starts no comment. -/
def isSeparator (c : Char) : Bool :=
  !Token.isWordChar c && !Token.isNumberChar c && c != '/' && c != '\r'

/-- A character without a meaning to the first two stages. -/
def isPlain (c : Char) : Bool := c != '/' && c != '\r' && !Token.isQuote c

theorem isPlain_of_isWordChar {c : Char} (h : Token.isWordChar c = true) : isPlain c = true := by
  obtain ⟨⟨hs, hq⟩, hr⟩ := Token.ne_of_isWordChar h
  simp [isPlain, hs, hq, hr]

theorem isPlain_of_isDigit {c : Char} (h : c.isDigit = true) : isPlain c = true := by
  have hs : c ≠ '/' := by rintro rfl; exact absurd h (by decide)
  have hr : c ≠ '\r' := by rintro rfl; exact absurd h (by decide)
  simp [isPlain, hs, hr, Token.isQuote_eq_false_of_isDigit h]

/-- Plain characters reach the last stage as they are. -/
theorem scan_append_of_isPlain {t : List Char} (h : ∀ c ∈ t, isPlain c = true) (s : List Char) :
    scan (t ++ s) = Token.all (t ++ Strip.strip .code (plainBreaks s)) := by
  have hr : '\r' ∉ t := fun hmem ↦ absurd (h _ hmem) (by decide)
  have hcode : ∀ c ∈ t, c ≠ '/' ∧ Token.isQuote c = false := by
    intro c hc
    have hp := h c hc
    simp only [isPlain, Bool.and_eq_true, bne_iff_ne, Bool.not_eq_true'] at hp
    exact ⟨hp.1.1, hp.2⟩
  rw [scan, plainBreaks_append hr, strip_code_append hcode]

namespace Scans

variable {t u : List Char} {ts us : List Token} {c : Char}

protected theorem nil : Scans [] [] := fun _ ↦ rfl

protected theorem append (ht : Scans t ts) (hu : Scans u us) : Scans (t ++ u) (ts ++ us) := by
  intro s
  rw [List.append_assoc, ht, hu, List.append_assoc]

/-- A blank is passed over. -/
protected theorem blank (hc : Text.isBlank c = true) (hr : c ≠ '\r') : Scans [c] [] := by
  have hplain : ∀ d ∈ [c], isPlain d = true := by
    intro d hd
    obtain rfl := List.mem_singleton.mp hd
    have hs : d ≠ '/' := by rintro rfl; exact absurd hc (by decide)
    have hq : Token.isQuote d = false := by
      refine Bool.eq_false_iff.mpr fun hq ↦ ?_
      obtain rfl | rfl | rfl := isQuote_eq_true hq <;> exact absurd hc (by decide)
    simp [isPlain, hs, hr, hq]
  intro s
  rw [scan_append_of_isPlain hplain, List.singleton_append, Token.all, if_pos hc]
  rfl

/-- A mark that starts no word, number, string or comment is a token. -/
protected theorem mark (hc : isSeparator c = true) (hb : Text.isBlank c = false)
    (hq : Token.isQuote c = false) : Scans [c] [.mark c] := by
  simp only [isSeparator, Bool.and_eq_true, Bool.not_eq_true', bne_iff_ne] at hc
  obtain ⟨⟨⟨hw, hn⟩, hs⟩, hr⟩ := hc
  have hstart : Token.isWordStart c = false :=
    Bool.eq_false_iff.mpr fun h ↦ by simp [Token.isWordChar_of_isWordStart h] at hw
  have hdigit : c.isDigit = false := by
    simp only [Token.isNumberChar, Char.isAlphanum, Bool.or_eq_false_iff] at hn
    exact hn.1.1.2
  have hdot : c ≠ '.' := by rintro rfl; exact absurd hn (by decide)
  intro s
  rw [scan_append_of_isPlain (by simp [isPlain, hs, hr, hq]), List.singleton_append, Token.all]
  simp [hb, hq, hdigit, hdot, hstart, scan]

/-- A quoted string is one token. -/
protected theorem quoteChars (s : List Char) :
    Scans (quoteChars s) [.string (String.ofList s)] := by
  intro rest
  rw [scan, plainBreaks_append (carriageReturn_notMem_quoteChars s), strip_quoteChars,
    all_quoteChars]
  rfl

/-- A block comment is passed over. -/
protected theorem comment {body : List Char} (h : ¬ ['*', '/'] <:+: body) :
    Scans ('/' :: '*' :: (body ++ ['*', '/'])) [] := by
  intro s
  have hbody : ¬ ['*', '/'] <:+: plainBreaks body := fun hi ↦
    h (infix_of_infix_plainBreaks (by decide) (by decide) hi)
  have hbreaks : plainBreaks ('/' :: '*' :: (body ++ ['*', '/']) ++ s)
      = '/' :: '*' :: (plainBreaks body ++ '*' :: '/' :: plainBreaks s) := by
    rw [List.cons_append, List.cons_append, plainBreaks_cons (by decide),
      plainBreaks_cons (by decide), List.append_assoc, List.cons_append, List.singleton_append,
      plainBreaks_append_cons (by decide), plainBreaks_cons (by decide),
      plainBreaks_cons (by decide)]
  rw [scan, hbreaks, Strip.strip, strip_blockComment hbody, Token.all, if_pos (by decide)]
  rfl

/-- A text of plain characters before a separator is cut into tokens on its own. -/
protected theorem before (ht : ∀ d ∈ t, isPlain d = true) (hc : isSeparator c = true)
    (hu : Scans (c :: u) us) : Scans (t ++ c :: u) (Token.all t ++ us) := by
  simp only [isSeparator, Bool.and_eq_true, Bool.not_eq_true', bne_iff_ne] at hc
  obtain ⟨⟨⟨hw, hn⟩, hs⟩, hr⟩ := hc
  intro s
  have hquote : ∀ d ∈ t, Token.isQuote d = false := by
    intro d hd
    have hp := ht d hd
    simp only [isPlain, Bool.and_eq_true, Bool.not_eq_true'] at hp
    exact hp.2
  obtain ⟨v, hv⟩ : ∃ v, Strip.strip .code (plainBreaks (c :: u ++ s)) = c :: v := by
    rw [List.cons_append, plainBreaks_cons hr, Strip.strip]
    · exact ⟨_, rfl⟩
    · exact fun _ h _ ↦ hs h
    · exact fun _ h _ ↦ hs h
  rw [List.append_assoc, scan_append_of_isPlain ht, hv,
    Token.all_append_cons hw hn (Token.stringsClose_of_forall hquote), ← hv, List.append_assoc,
    ← hu]
  rfl

/-- A word before a separator is a token. -/
protected theorem word (ht : Token.isWord t = true) (hc : isSeparator c = true)
    (hu : Scans (c :: u) us) : Scans (t ++ c :: u) (.word (String.ofList t) :: us) := by
  have h := Scans.before (t := t)
    (fun d hd ↦ isPlain_of_isWordChar (Token.isWordChar_of_mem ht hd)) hc hu
  rwa [Token.all_word ht] at h

/-- Digits and points before a separator are a token. -/
protected theorem number {d : Char} (hd : d.isDigit = true)
    (ht : ∀ e ∈ t, e.isDigit = true ∨ e = '.') (hc : isSeparator c = true)
    (hu : Scans (c :: u) us) :
    Scans (d :: t ++ c :: u) (.number (String.ofList (d :: t)) :: us) := by
  have hplain : ∀ e ∈ d :: t, isPlain e = true := by
    intro e he
    obtain rfl | he := List.mem_cons.mp he
    · exact isPlain_of_isDigit hd
    · obtain he | rfl := ht e he
      · exact isPlain_of_isDigit he
      · rfl
  have h := Scans.before hplain hc hu
  rwa [Token.all_number hd ht] at h

/-- Two words with a point between them, before a separator, are three tokens. -/
protected theorem dotted {v : List Char} (ht : Token.isWord t = true) (hv : Token.isWord v = true)
    (hc : isSeparator c = true) (hu : Scans (c :: u) us) :
    Scans (t ++ '.' :: v ++ c :: u)
      (.word (String.ofList t) :: .mark '.' :: .word (String.ofList v) :: us) := by
  have hplain : ∀ d ∈ t ++ '.' :: v, isPlain d = true := by
    intro d hd
    obtain hd | hd := List.mem_append.mp hd
    · exact isPlain_of_isWordChar (Token.isWordChar_of_mem ht hd)
    · obtain rfl | hd := List.mem_cons.mp hd
      · rfl
      · exact isPlain_of_isWordChar (Token.isWordChar_of_mem hv hd)
  have h := Scans.before hplain hc hu
  rw [Token.all_dotted ht (Token.not_isDigit_head?_of_isWord hv), Token.all_word hv] at h
  exact h

end Scans

end FrontendSync.Module
