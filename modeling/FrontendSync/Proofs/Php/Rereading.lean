import FrontendSync.Proofs.Php.Extent
import FrontendSync.Proofs.Php.Heredoc

/-!
# Reading lexemes again

A source is the text of its lexemes, and each of them is the start of what it is read from.  The
lexemes of an expression are read alike when the text behind them is broken off by a slash, a hash
or a space, except for comments that run to the end of their line.
-/

namespace FrontendSync.Php.Lexeme

open FrontendSync.Text

/-! ## Lexemes -/

theorem startsWith_iff {w s : List Char} : startsWith w s = true ↔ w <+: s := by
  rw [startsWith, Option.isSome_iff_exists]
  constructor
  · rintro ⟨t, ht⟩
    exact ⟨t, (eq_append_of_stripStart? ht).symm⟩
  · rintro ⟨t, ht⟩
    exact ⟨t, stripStart?_eq_some_iff.mpr ht.symm⟩

theorem start_lineCommentTail (s : List Char) : lineCommentTail s <+: s := by
  fun_induction lineCommentTail s with
  | case1 | case2 | case3 => exact List.nil_prefix
  | case4 c s _ _ ih => exact List.cons_prefix_cons.mpr ⟨rfl, ih⟩

theorem start_symbol (c : Char) (s : List Char) : (symbol c s).text <+: c :: s := by
  unfold symbol
  split
  · rename_i p hp
    have hfound := List.find?_some hp
    have hstart : p.spelling.toList <+: c :: s := startsWith_iff.mp hfound
    split
    · rename_i hassign
      obtain ⟨rfl, hhead⟩ := hassign
      obtain ⟨t, rfl⟩ := List.head?_eq_some_iff.mp hhead
      obtain ⟨rfl, -⟩ := List.cons_prefix_cons.mp hstart
      exact ⟨t, rfl⟩
    · exact hstart
  · exact ⟨s, rfl⟩

/-- A lexeme is the start of the text that it is read from. -/
theorem start_first (c : Char) (s : List Char) : (first c s).text <+: c :: s := by
  have hcons {t : List Char} (h : t <+: s) : c :: t <+: c :: s := List.cons_prefix_cons.mpr ⟨rfl, h⟩
  unfold first
  split
  · exact ⟨s, rfl⟩
  split
  · rename_i tag htag
    have hfound := List.find?_some htag
    exact startsWith_iff.mp hfound
  split
  · rename_i hheredoc
    obtain ⟨t, ht⟩ := startsWith_iff.mp hheredoc
    obtain ⟨rfl, rfl⟩ := List.cons.inj ht
    exact (List.prefix_append_right_inj _).mpr (isLocalReader_heredoc.start t)
  split
  · exact hcons (isLocal_commentTail.start s)
  split
  · exact hcons (isLocal_commentTail.start s)
  split
  · exact hcons (start_lineCommentTail s)
  split
  · rename_i hquote
    exact hcons (quotedTail_again (by rcases hquote with rfl | rfl <;> decide) s).1
  split
  · exact hcons (List.takeWhile_prefix _)
  split
  · exact isLocalReader_number.start _
  split
  · exact hcons (isLocal_nameTail.start s)
  · exact start_symbol c s

theorem text_number_ne_nil {c : Char} {s : List Char}
    (h : c.isDigit = true ∨ c = '.' ∧ s.head?.any Char.isDigit = true) :
    (number (c :: s)).text ≠ [] := by
  by_cases hhex : ∃ x t, c :: s = '0' :: x :: t ∧ (x = 'x' ∨ x = 'X')
  · obtain ⟨x, t, heq, hx⟩ := hhex
    rw [heq, number_hexadecimal hx]
    exact List.cons_ne_nil _ _
  · have hdecimal : number (c :: s) = decimal (c :: s) := number_decimal fun x t ht ↦
      not_or.mp fun hx ↦ hhex ⟨x, t, ht, hx⟩
    obtain ⟨w, f, e, rest, hparts, hnumber⟩ := exists_isNumber (c :: s)
    rw [hdecimal, hparts, hnumber.text_decimal]
    intro hnil
    obtain ⟨rfl, rfl, rfl⟩ : w = [] ∧ f = [] ∧ e = [] := by simpa using hnil
    have hwhole := hnumber.whole
    have hfraction := hnumber.fraction
    simp only [List.nil_append] at hparts hwhole hfraction
    subst hparts
    rcases h with h | ⟨rfl, hs⟩
    · simp [isDigitOrMark, h] at hwhole
    · rw [fractionTail_eq_nil_iff] at hfraction
      simp [hfraction s rfl] at hs

/-- A lexeme has at least one character. -/
theorem text_first_ne_nil (c : Char) (s : List Char) : (first c s).text ≠ [] := by
  unfold first
  split
  · exact List.cons_ne_nil _ _
  split
  · rename_i tag htag
    have hmem : tag ∈ tags := List.mem_of_find?_eq_some htag
    have hne : ∀ tag ∈ tags, tag ≠ [] := by decide
    exact hne tag hmem
  split
  · exact List.cons_ne_nil _ _
  split
  · exact List.cons_ne_nil _ _
  split
  · exact List.cons_ne_nil _ _
  split
  · exact List.cons_ne_nil _ _
  split
  · exact List.cons_ne_nil _ _
  split
  · exact List.cons_ne_nil _ _
  split
  · rename_i hnumber
    exact text_number_ne_nil hnumber
  split
  · exact List.cons_ne_nil _ _
  · unfold symbol
    split
    · rename_i p hp
      split
      · exact List.cons_ne_nil _ _
      · exact p.toList_spelling_ne_nil
    · exact List.cons_ne_nil _ _

theorem exists_text_first (c : Char) (s : List Char) :
    ∃ t rest, (first c s).text = c :: t ∧ s = t ++ rest := by
  obtain ⟨rest, hrest⟩ := start_first c s
  obtain ⟨d, t, ht⟩ := List.exists_cons_of_ne_nil (text_first_ne_nil c s)
  rw [ht, List.cons_append] at hrest
  obtain ⟨rfl, rfl⟩ := List.cons.inj hrest
  exact ⟨t, rest, ht, rfl⟩

/-- A source is the text of its lexemes, and each of them is read before the others. -/
theorem areReadBefore_all (s : List Char) :
    textOf (all 0 s) = s ∧ AreReadBefore (all 0 s) [] := by
  induction hn : s.length using Nat.strong_induction_on generalizing s with
  | _ n ih =>
    cases s with
    | nil => exact ⟨rfl, trivial⟩
    | cons c s =>
      obtain ⟨t, rest, htext, rfl⟩ := exists_text_first c s
      have hall : all 0 (c :: (t ++ rest)) = first c (t ++ rest) :: all 0 rest := by
        rw [all, all_eq_all_drop, htext, List.length_cons, Nat.add_sub_cancel, List.drop_left]
      have hlength : rest.length < n := by
        rw [← hn, List.length_cons, List.length_append]
        omega
      obtain ⟨hrest, hread⟩ := ih rest.length hlength rest rfl
      rw [hall, textOf_cons, areReadBefore_cons, hrest, htext]
      refine ⟨rfl, ⟨c, t ++ rest, ?_, ?_, rfl⟩, hread⟩
      · simp [htext]
      · simp [htext]

/-! ## Reading again -/

/-- A comment that runs to the end of its line. -/
def isLineComment (l : Lexeme) : Bool :=
  l.kind.isNone && (l.text.head? == some '#' || ['/', '/'].isPrefixOf l.text)

theorem isReadBefore_tag {tag : List Char} (h : tag ∈ tags) (rest : List Char) :
    IsReadBefore ⟨tag, none⟩ rest := by
  simp only [tags, List.mem_cons, List.not_mem_nil, or_false] at h
  have hblank : isBlank '<' = false ∧ isBlank '?' = false := by decide
  rcases h with rfl | rfl | rfl
  · exact ⟨'<', '?' :: 'p' :: 'h' :: 'p' :: rest, rfl, by simp,
      by simp [first, hblank, tags, startsWith, stripStart?]⟩
  · exact ⟨'<', '?' :: '=' :: rest, rfl, by simp,
      by simp [first, hblank, tags, startsWith, stripStart?]⟩
  · exact ⟨'?', '>' :: rest, rfl, by simp, by simp [first, hblank, tags, startsWith, stripStart?]⟩

theorem first_heredoc (s : List Char) :
    first '<' ('<' :: '<' :: s) = ⟨['<', '<', '<'] ++ (heredoc s).text, (heredoc s).kind⟩ := by
  have hblank : isBlank '<' = false := by decide
  simp [first, hblank, tags, startsWith, stripStart?]

/-- The characters that comments, strings and variables start with. -/
def leads : List Char := ['/', '#', '\'', '"', '$']

/-- What else starts neither a tag nor a heredoc is a number, a name or a mark. -/
theorem first_of_notMem_leads {c : Char} {s : List Char} (hblank : isBlank c = false)
    (htags : tags.find? (startsWith · (c :: s)) = none)
    (hheredoc : startsWith ['<', '<', '<'] (c :: s) = false) (hc : c ∉ leads) :
    first c s =
      if c.isDigit ∨ c = '.' ∧ s.head?.any Char.isDigit then number (c :: s)
      else if isNameStart c ∨ c = '\\' ∧ s.head?.any isNameStart then
        ⟨c :: nameTail s, some (.name (String.ofList (c :: nameTail s)))⟩
      else symbol c s := by
  simp only [leads, List.mem_cons, List.not_mem_nil, or_false, not_or] at hc
  simp [first, hblank, htags, hheredoc, hc]

theorem isDocComment_cons {d : Char} (hd : d ≠ '/') (s : List Char) :
    isDocComment ('*' :: '*' :: d :: s) = true := by
  unfold isDocComment
  split
  · simp_all
  · rfl
  · simp_all

section Again

variable {c : Char} {t rest left : List Char}

theorem isDocComment_again (h : BreaksOff rest left) (ht : commentTail (t ++ rest) = t)
    (hold : isDocComment (t ++ rest) = false) : isDocComment (t ++ left) = false := by
  refine Bool.eq_false_iff.mpr fun hdoc ↦ ?_
  have hstars : ['*', '*'] <+: t ++ left := by
    unfold isDocComment at hdoc
    split at hdoc
    · simp at hdoc
    · rename_i heq
      rw [heq]
      exact ⟨_, rfl⟩
    · simp at hdoc
  obtain ⟨u, hu⟩ := (h.append_left t).isPrefix_of_isPrefix
    (isBreak_eq_false_of_any (by decide)) hstars
  rw [← hu] at hold ht
  cases u with
  | nil => simp [isDocComment] at hold
  | cons d u =>
    by_cases hd : d = '/'
    · subst hd
      obtain rfl : ['*', '*', '/'] = t := by simpa [commentTail] using ht
      simp [isDocComment] at hdoc
    · exact Bool.noConfusion ((isDocComment_cons hd u).symm.trans hold)

/-- Only attributes have a break in their mark. -/
theorem isBreak_eq_false_of_mem {p : Punct} (hp : p ≠ .attributeOpen) :
    ∀ d ∈ p.spelling.toList, isBreak d = false := by
  cases p with
  | attributeOpen => exact absurd rfl hp
  | _ => exact isBreak_eq_false_of_any (by decide)

/-- A mark is read again, if no name starts with it. -/
theorem symbol_again {p : Punct} (h : BreaksOff rest left) (hp : p.spelling.toList = c :: t)
    (hopen : p ≠ .attributeOpen) (hassign : p ≠ .assign)
    (hold : (symbol c (t ++ rest)).kind = some (.punct p)) :
    symbol c (t ++ left) = ofKind (.punct p) := by
  have hfound : Punct.all.find? (fun q ↦ startsWith q.spelling.toList (c :: (t ++ rest)))
      = some p := by
    unfold symbol at hold
    split at hold
    · rename_i q hq
      split at hold
      · simp at hold
      · rw [hq, Token.Kind.punct.inj (Option.some.inj hold)]
    · simp at hold
  have hc : c ≠ '#' := by
    rintro rfl
    cases p <;> simp_all [Punct.spelling]
  obtain ⟨hstart, as, bs, hall, has⟩ := List.find?_eq_some_iff_append.mp hfound
  have hagain : Punct.all.find? (fun q ↦ startsWith q.spelling.toList (c :: (t ++ left)))
      = some p := by
    refine List.find?_eq_some_iff_append.mpr ⟨?_, as, bs, hall, fun q hq ↦ ?_⟩
    · exact startsWith_iff.mpr (hp ▸ ⟨left, rfl⟩)
    · have hnone := has q hq
      rw [Bool.not_eq_true', ← Bool.not_eq_true, startsWith_iff] at hnone ⊢
      refine mt (fun hstart ↦ ?_) hnone
      by_cases hq : q = .attributeOpen
      · subst hq
        exact absurd (List.cons_prefix_cons.mp hstart).1.symm hc
      · exact (h.append_left (c :: t)).isPrefix_of_isPrefix (isBreak_eq_false_of_mem hq) hstart
  rw [symbol, hagain]
  simp [hassign, ofKind, Token.Kind.spelling]

/-- A lexeme of an expression, or one without a token. -/
def IsPlain (l : Lexeme) : Prop := ∀ k ∈ l.kind, k.isConstant = true

theorem not_isPlain_symbol (c : Char) (text : List Char) :
    ¬ IsPlain ⟨text, some (.symbol c)⟩ := fun h ↦ Bool.noConfusion (h (.symbol c) rfl)

theorem isPlain_symbol_iff {c : Char} {s : List Char} (h : (symbol c s).IsPlain) :
    ∃ p ∈ Token.constantMarks, symbol c s = ofKind (.punct p) := by
  unfold symbol at h ⊢
  split at h
  · rename_i p hp
    split at h
    · exact absurd h (not_isPlain_symbol _ _)
    · rename_i hassign
      have hmark : Token.constantMarks.contains p = true := h (.punct p) rfl
      exact ⟨p, List.contains_iff_mem.mp hmark, by rw [if_neg hassign]; rfl⟩
  · exact absurd h (not_isPlain_symbol _ _)

end Again

/-! ## Leading characters -/

theorem first_slash (s : List Char) : first '/' s =
    if isDocComment s then
      ⟨'/' :: commentTail s, some (.docComment (String.ofList ('/' :: commentTail s)))⟩
    else if s.head? = some '*' then ⟨'/' :: commentTail s, none⟩
    else if s.head? = some '/' then ⟨'/' :: lineCommentTail s, none⟩
    else ⟨['/'], some (.symbol '/')⟩ := by
  have hsymbol : symbol '/' s = ⟨['/'], some (.symbol '/')⟩ := by
    simp [symbol, Punct.all, Punct.spelling, startsWith, stripStart?]
  have hstart : isNameStart '/' = false := by decide
  rw [first_eq (by decide) (by decide) (by decide), hsymbol]
  simp [hstart]

theorem first_hash (s : List Char) : first '#' s =
    if s.head? = some '[' then ⟨['#', '['], some (.punct .attributeOpen)⟩
    else ⟨'#' :: lineCommentTail s, none⟩ := by
  have hstart : isNameStart '#' = false := by decide
  rw [first_eq (by decide) (by decide) (by decide)]
  by_cases hs : s.head? = some '['
  · obtain ⟨t, rfl⟩ := List.head?_eq_some_iff.mp hs
    simp [hstart, symbol, Punct.all, Punct.spelling, startsWith, stripStart?]
  · simp [hs]

theorem first_quote {c : Char} (hc : c = '\'' ∨ c = '"') (s : List Char) :
    first c s = quoted c s := by
  rcases hc with rfl | rfl
  · rw [first_eq (by decide) (by decide) (by decide)]
    simp
  · rw [first_eq (by decide) (by decide) (by decide)]
    simp

theorem not_isPlain_first_dollar (s : List Char) : ¬ (first '$' s).IsPlain := by
  have hsymbol : symbol '$' s = ⟨['$'], some (.symbol '$')⟩ := by
    simp [symbol, Punct.all, Punct.spelling, startsWith, stripStart?]
  have hstart : isNameStart '$' = false := by decide
  rw [first_eq (by decide) (by decide) (by decide), hsymbol]
  by_cases hs : s.head?.any isNameStart = true
  · simp [hs, IsPlain, Token.Kind.isConstant]
  · simp [hs, hstart, IsPlain, Token.Kind.isConstant]

theorem not_isPlain_first_hash {s : List Char} (hline : (first '#' s).isLineComment = false) :
    ¬ (first '#' s).IsPlain := by
  rw [first_hash] at hline ⊢
  split
  · exact fun h ↦ Bool.noConfusion (h _ rfl)
  · rename_i hs
    simp [hs, isLineComment] at hline

section Again

variable {c : Char} {t rest left : List Char}

/-- A slash starts a comment, unless it is a symbol. -/
theorem first_slash_again (h : BreaksOff rest left)
    (htext : (first '/' (t ++ rest)).text = '/' :: t) (hplain : (first '/' (t ++ rest)).IsPlain)
    (hline : (first '/' (t ++ rest)).isLineComment = false) :
    first '/' (t ++ left) = first '/' (t ++ rest) := by
  rw [first_slash] at htext hplain hline ⊢
  rw [first_slash]
  by_cases hdoc : isDocComment (t ++ rest) = true
  · rw [if_pos hdoc] at hplain
    exact Bool.noConfusion (hplain _ rfl)
  rw [if_neg hdoc] at htext hplain hline ⊢
  by_cases hstar : (t ++ rest).head? = some '*'
  · rw [if_pos hstar] at htext ⊢
    have hcomment : commentTail (t ++ rest) = t := (List.cons.inj htext).2
    have hagain := isLocal_commentTail.again hcomment h
    have hhead : (t ++ left).head? = some '*' := by
      rw [← head?_commentTail, hagain, ← hstar, ← head?_commentTail (t ++ rest), hcomment]
    rw [isDocComment_again h hcomment (by simpa using hdoc), if_neg Bool.false_ne_true,
      if_pos hhead, hagain, hcomment]
  rw [if_neg hstar] at htext hplain hline
  by_cases hslash : (t ++ rest).head? = some '/'
  · obtain ⟨u, hu⟩ := List.head?_eq_some_iff.mp hslash
    rw [if_pos hslash, hu] at hline
    simp [isLineComment, lineCommentTail] at hline
  · rw [if_neg hslash] at hplain
    exact absurd hplain (not_isPlain_symbol _ _)

theorem first_quote_again (hc : c = '\'' ∨ c = '"') (h : BreaksOff rest left)
    (htext : (first c (t ++ rest)).text = c :: t) :
    first c (t ++ left) = first c (t ++ rest) := by
  rw [first_quote hc] at htext ⊢
  rw [first_quote hc]
  have hslash : c ≠ '\\' := by rcases hc with rfl | rfl <;> decide
  have htail : quotedTail c (t ++ rest) = t := (List.cons.inj htext).2
  obtain ⟨hagain, hvalue⟩ := (quotedTail_again hslash (t ++ rest)).2 rest left
    (by rw [htail]) h.ne_nil
  rw [htail] at hagain hvalue
  simp only [quoted, hagain, htail, hvalue]

/-- Breaking off makes no tag and no heredoc of a text. -/
theorem not_isPrefix_again (h : BreaksOff rest left) {w : List Char}
    (hw : ∀ d ∈ w, isBreak d = false) (hold : startsWith w (c :: (t ++ rest)) = false) :
    startsWith w (c :: (t ++ left)) = false := by
  rw [← Bool.not_eq_true, startsWith_iff] at hold ⊢
  exact mt ((h.append_left (c :: t)).isPrefix_of_isPrefix hw) hold

theorem find?_tags_again (h : BreaksOff rest left)
    (hold : tags.find? (startsWith · (c :: (t ++ rest))) = none) :
    tags.find? (startsWith · (c :: (t ++ left))) = none := by
  have hbreaks : ∀ tag ∈ tags, tag.any isBreak = false := by decide
  rw [List.find?_eq_none] at hold ⊢
  intro tag htag
  rw [Bool.not_eq_true]
  exact not_isPrefix_again h (isBreak_eq_false_of_any (hbreaks tag htag))
    (by simpa using hold tag htag)

/-- A number that starts with its point goes on with a digit. -/
theorem text_number_point {d : Char} (hd : d.isDigit = true) (s : List Char) :
    ∃ v, (number ('.' :: d :: s)).text = '.' :: d :: v := by
  have hmark : isDigitOrMark '.' = false := by decide
  rw [number_decimal (by simp)]
  exact ⟨_, by simp [decimal, hmark, fractionTail, hd]; rfl⟩

theorem number_condition_again
    (htext : (number (c :: (t ++ rest))).text = c :: t)
    (hold : c.isDigit = true ∨ c = '.' ∧ (t ++ rest).head?.any Char.isDigit = true) :
    c.isDigit = true ∨ c = '.' ∧ (t ++ left).head?.any Char.isDigit = true := by
  refine hold.imp_right fun ⟨hdot, hdigit⟩ ↦ ⟨hdot, ?_⟩
  subst hdot
  obtain ⟨d, hd, hdigit⟩ := (Option.any_eq_true _ _).mp hdigit
  obtain ⟨s, hs⟩ := List.head?_eq_some_iff.mp hd
  obtain ⟨v, hv⟩ := text_number_point hdigit s
  rw [hs, hv] at htext
  obtain rfl := (List.cons.inj htext).2
  simpa using hdigit

theorem name_condition_again (htext : nameTail (t ++ rest) = t)
    (hold : isNameStart c = true ∨ c = '\\' ∧ (t ++ rest).head?.any isNameStart = true) :
    isNameStart c = true ∨ c = '\\' ∧ (t ++ left).head?.any isNameStart = true := by
  refine hold.imp_right (And.imp_right fun hstart ↦ ?_)
  obtain ⟨d, hd, hstart⟩ := (Option.any_eq_true _ _).mp hstart
  obtain ⟨s, hs⟩ := List.head?_eq_some_iff.mp hd
  rw [hs, nameTail, if_pos (by simp [isNameChar_of_isNameStart hstart])] at htext
  rw [← htext]
  simpa using hstart

theorem spelling_of_mem_constantMarks : ∀ p ∈ Token.constantMarks,
    p.spelling.toList.head? ≠ some '\\' ∧
      (p.spelling.toList.head? = some '.' → p.spelling.toList.tail = []) ∧
      p ≠ .attributeOpen ∧ p ≠ .assign := by
  decide

/-- A number, a name or a mark is read again. -/
theorem first_again_of_notMem_leads (h : BreaksOff rest left) (hblank : isBlank c = false)
    (htags : tags.find? (startsWith · (c :: (t ++ rest))) = none)
    (hheredoc : startsWith ['<', '<', '<'] (c :: (t ++ rest)) = false) (hc : c ∉ leads)
    (htext : (first c (t ++ rest)).text = c :: t) (hplain : (first c (t ++ rest)).IsPlain) :
    first c (t ++ left) = first c (t ++ rest) := by
  have htags' := find?_tags_again h htags
  have hheredoc' := not_isPrefix_again h
    (isBreak_eq_false_of_any (by decide)) hheredoc
  rw [first_of_notMem_leads hblank htags hheredoc hc] at htext hplain ⊢
  rw [first_of_notMem_leads hblank htags' hheredoc' hc]
  by_cases hnumber : c.isDigit = true ∨ c = '.' ∧ (t ++ rest).head?.any Char.isDigit = true
  · rw [if_pos hnumber] at htext ⊢
    have hagain := isLocalReader_number.again (c :: (t ++ rest)) rest left
      (by rw [htext]; rfl) h
    rw [htext, List.cons_append] at hagain
    rw [if_pos (number_condition_again htext hnumber), hagain]
  rw [if_neg hnumber] at htext hplain ⊢
  obtain ⟨hdigit, hpoint⟩ := not_or.mp hnumber
  by_cases hname : isNameStart c = true ∨ c = '\\' ∧ (t ++ rest).head?.any isNameStart = true
  · rw [if_pos hname] at htext ⊢
    have htail : nameTail (t ++ rest) = t := (List.cons.inj htext).2
    have hdot : c ≠ '.' := by
      rintro rfl
      exact absurd hname (by simp [isNameStart])
    rw [if_neg (by simp [hdigit, hdot]), if_pos (name_condition_again htail hname),
      isLocal_nameTail.again htail h, htail]
  rw [if_neg hname] at htext hplain ⊢
  obtain ⟨hstart, hslash⟩ := not_or.mp hname
  obtain ⟨p, hp, hmark⟩ := isPlain_symbol_iff hplain
  rw [hmark] at htext ⊢
  have hspelling : p.spelling.toList = c :: t := htext
  obtain ⟨hbackslash, hdot, hopen, hassign⟩ := spelling_of_mem_constantMarks p hp
  rw [hspelling] at hbackslash hdot
  have hnone : ¬ (c = '.' ∧ (t ++ left).head?.any Char.isDigit = true) := by
    rintro ⟨rfl, hleft⟩
    obtain rfl : t = [] := hdot rfl
    have hrest := (Option.any_eq_false _ _).mp
      (Bool.eq_false_iff.mpr fun hdigit ↦ hpoint ⟨rfl, hdigit⟩)
    have hnext := h.head?_eq_false (fun _ ↦ isDigit_eq_false_of_isBreak) hrest
    rw [List.nil_append, (Option.any_eq_false _ _).mpr hnext] at hleft
    exact Bool.noConfusion hleft
  have hother : ¬ (c = '\\' ∧ (t ++ left).head?.any isNameStart = true) := fun hs ↦
    hbackslash (congrArg some hs.1)
  rw [if_neg (not_or.mpr ⟨hdigit, hnone⟩), if_neg (not_or.mpr ⟨hstart, hother⟩)]
  exact symbol_again h hspelling hopen hassign (by rw [hmark]; rfl)

/-- A lexeme that is part of an expression is read again where the text behind it breaks off, unless
it is a comment up to the end of its line. -/
theorem isReadBefore_again {l : Lexeme} (hread : l.IsReadBefore rest) (h : BreaksOff rest left)
    (hplain : l.IsPlain) (hline : l.isLineComment = false) : l.IsReadBefore left := by
  obtain ⟨c, s, hcs, hne, rfl⟩ := hread
  obtain ⟨t, more, htext, rfl⟩ := exists_text_first c s
  obtain rfl : rest = more := by simpa [htext] using hcs
  suffices hagain : first c (t ++ left) = first c (t ++ rest) from
    ⟨c, t ++ left, by rw [htext]; rfl, hne, hagain⟩
  by_cases hblank : isBlank c = true
  · simp only [first, hblank, if_true]
  cases htags : tags.find? (startsWith · (c :: (t ++ rest))) with
  | some tag =>
    have hold : first c (t ++ rest) = ⟨tag, none⟩ := by simp [first, hblank, htags]
    obtain ⟨d, u, hdu, -, hnew⟩ := isReadBefore_tag (List.mem_of_find?_eq_some htags) left
    obtain rfl : tag = c :: t := by rw [hold] at htext; exact htext
    obtain ⟨rfl, rfl⟩ := List.cons.inj hdu
    rw [hold]
    exact hnew
  | none =>
    by_cases hheredoc : startsWith ['<', '<', '<'] (c :: (t ++ rest)) = true
    · obtain ⟨u, hu⟩ := startsWith_iff.mp hheredoc
      obtain ⟨rfl, htail⟩ := List.cons.inj hu
      have htail : '<' :: '<' :: u = t ++ rest := htail
      have hold := first_heredoc u
      rw [htail] at hold
      rw [hold] at htext ⊢
      obtain rfl : '<' :: '<' :: (heredoc u).text = t := (List.cons.inj htext).2
      have hsplit : u = (heredoc u).text ++ rest := (List.cons.inj (List.cons.inj htail).2).2
      rw [List.cons_append, List.cons_append, first_heredoc,
        isLocalReader_heredoc.again u rest left hsplit h]
    have hblank : isBlank c = false := by simpa using hblank
    have hheredoc : startsWith ['<', '<', '<'] (c :: (t ++ rest)) = false := by simpa using hheredoc
    by_cases hc : c ∈ leads
    · simp only [leads, List.mem_cons, List.not_mem_nil, or_false] at hc
      rcases hc with rfl | rfl | rfl | rfl | rfl
      · exact first_slash_again h htext hplain hline
      · exact absurd hplain (not_isPlain_first_hash hline)
      · exact first_quote_again (.inl rfl) h htext
      · exact first_quote_again (.inr rfl) h htext
      · exact absurd hplain (not_isPlain_first_dollar _)
    · exact first_again_of_notMem_leads h hblank htags hheredoc hc htext hplain

end Again

/-! ## Line comments -/

section Lines

variable {t rest left : List Char}

theorem lineCommentTail_cons {c : Char} {s : List Char} (hc : c ≠ '\n')
    (hs : c = '?' → s.head? ≠ some '>') : lineCommentTail (c :: s) = c :: lineCommentTail s := by
  rw [lineCommentTail]
  · exact hc
  · rintro u rfl rfl
    exact hs rfl rfl

/-- What a line comment ends before. -/
def EndsLine (s : List Char) : Prop := ['\n'] <+: s ∨ ['?', '>'] <+: s

theorem lineCommentTail_eq_nil_iff {s : List Char} :
    lineCommentTail s = [] ↔ s = [] ∨ EndsLine s := by
  cases s with
  | nil => simp [lineCommentTail]
  | cons c s =>
    by_cases hc : c = '\n'
    · simp [hc, lineCommentTail, EndsLine, List.cons_prefix_cons]
    · by_cases hs : c = '?' ∧ s.head? = some '>'
      · obtain ⟨rfl, hs⟩ := hs
        obtain ⟨u, rfl⟩ := List.head?_eq_some_iff.mp hs
        simp [lineCommentTail, EndsLine, List.cons_prefix_cons]
      · rw [lineCommentTail_cons hc (by simpa using hs)]
        simp only [List.cons_ne_nil, EndsLine, false_or, false_iff, not_or,
          List.cons_prefix_cons]
        refine ⟨fun h ↦ hc h.1.symm, fun ⟨hquestion, u, hu⟩ ↦ hs ⟨hquestion.symm, ?_⟩⟩
        rw [← hu]
        rfl

theorem EndsLine.head? (h : EndsLine rest) : rest.head? = some '\n' ∨ rest.head? = some '?' := by
  rcases h with ⟨u, rfl⟩ | ⟨u, rfl⟩
  · exact .inl rfl
  · exact .inr rfl

/-- A line comment is the same in front of whatever ends it. -/
theorem lineCommentTail_append (ht : lineCommentTail (t ++ rest) = t) :
    (rest = [] ∨ EndsLine rest) ∧ ∀ left, EndsLine left → lineCommentTail (t ++ left) = t := by
  induction t with
  | nil =>
    exact ⟨lineCommentTail_eq_nil_iff.mp ht,
      fun left hleft ↦ lineCommentTail_eq_nil_iff.mpr (.inr hleft)⟩
  | cons c t ih =>
    have hend : ¬ EndsLine (c :: (t ++ rest)) := fun hend ↦ by
      rw [List.cons_append, lineCommentTail_eq_nil_iff.mpr (.inr hend)] at ht
      exact List.cons_ne_nil c t ht.symm
    have hc : c ≠ '\n' := by
      rintro rfl
      exact hend (.inl ⟨_, rfl⟩)
    have hs : c = '?' → (t ++ rest).head? ≠ some '>' := by
      rintro rfl hs
      obtain ⟨u, hu⟩ := List.head?_eq_some_iff.mp hs
      exact hend (.inr (hu ▸ ⟨u, rfl⟩))
    rw [List.cons_append, lineCommentTail_cons hc hs] at ht
    obtain ⟨hrest, hagain⟩ := ih (List.cons.inj ht).2
    refine ⟨hrest, fun left hleft ↦ ?_⟩
    have hnext : c = '?' → (t ++ left).head? ≠ some '>' := by
      intro hquestion
      cases t with
      | nil => rcases hleft.head? with h | h <;> simp [h]
      | cons d t => exact hs hquestion
    rw [List.cons_append, lineCommentTail_cons hc hnext, hagain left hleft]

/-- The characters at the start of a line comment. -/
def OpensLine (c : Char) (s : List Char) : Prop :=
  c = '/' ∧ s.head? = some '/' ∨ c = '#' ∧ s.head? ≠ some '['

theorem first_of_opensLine {c : Char} {s : List Char} (h : OpensLine c s) :
    first c s = ⟨c :: lineCommentTail s, none⟩ := by
  rcases h with ⟨rfl, hs⟩ | ⟨rfl, hs⟩
  · obtain ⟨u, rfl⟩ := List.head?_eq_some_iff.mp hs
    rw [first_slash]
    simp [isDocComment]
  · rw [first_hash, if_neg hs]

theorem OpensLine.again {c : Char} (h : OpensLine c (t ++ rest)) (hrest : rest = [] ∨ EndsLine rest)
    (hleft : EndsLine left) : OpensLine c (t ++ left) := by
  cases t with
  | nil =>
    rcases h with ⟨rfl, hs⟩ | ⟨rfl, -⟩
    · rcases hrest with rfl | hrest
      · simp at hs
      · rcases hrest.head? with hhead | hhead <;> simp [hhead] at hs
    · right
      rcases hleft.head? with hhead | hhead <;> simp [hhead]
  | cons d t => exact h

theorem first_line {c : Char} {s : List Char} (hline : (first c s).isLineComment = true) :
    OpensLine c s ∧ first c s = ⟨c :: lineCommentTail s, none⟩ := by
  obtain ⟨t, rest, htext, -⟩ := exists_text_first c s
  simp only [isLineComment, htext, Bool.and_eq_true, Bool.or_eq_true, beq_iff_eq,
    Option.isNone_iff_eq_none, List.head?_cons, Option.some.injEq, List.isPrefixOf_iff_prefix,
    List.cons_prefix_cons] at hline
  obtain ⟨hkind, rfl | ⟨rfl, hslash⟩⟩ := hline
  · rw [first_hash] at hkind ⊢
    split at hkind
    · simp at hkind
    · rename_i hs
      exact ⟨.inr ⟨rfl, hs⟩, if_neg hs⟩
  · obtain ⟨u, rfl⟩ := hslash
    rw [first_slash] at hkind htext ⊢
    split at hkind
    · simp at hkind
    rename_i hdoc
    rw [if_neg hdoc] at htext ⊢
    by_cases hstar : s.head? = some '*'
    · rw [if_pos hstar] at htext
      have hhead := head?_commentTail s
      rw [(List.cons.inj htext).2, hstar] at hhead
      simp at hhead
    rw [if_neg hstar] at htext ⊢
    by_cases hslash : s.head? = some '/'
    · exact ⟨.inl ⟨rfl, hslash⟩, if_pos hslash⟩
    · rw [if_neg hslash] at htext
      simp at htext

/-- A line comment is read as far as to the end of its line. -/
theorem isReadBefore_line {l : Lexeme} (hread : l.IsReadBefore rest)
    (hline : l.isLineComment = true) :
    (rest = [] ∨ EndsLine rest) ∧ ∀ left, EndsLine left → l.IsReadBefore left := by
  obtain ⟨c, s, hcs, hne, rfl⟩ := hread
  obtain ⟨t, more, htext, rfl⟩ := exists_text_first c s
  obtain rfl : rest = more := by simpa [htext] using hcs
  obtain ⟨hopens, hfirst⟩ := first_line hline
  have htail : lineCommentTail (t ++ rest) = t := by
    rw [hfirst] at htext
    exact (List.cons.inj htext).2
  obtain ⟨hrest, hagain⟩ := lineCommentTail_append htail
  refine ⟨hrest, fun left hleft ↦ ⟨c, t ++ left, by rw [htext]; rfl, hne, ?_⟩⟩
  rw [hfirst, first_of_opensLine (hopens.again hrest hleft), hagain left hleft, htail]

end Lines

/-! ## Texts -/

theorem first_of_endsLine {c : Char} {s : List Char} (h : EndsLine (c :: s)) :
    EndsLine (first c s).text := by
  rcases h with ⟨u, hu⟩ | ⟨u, hu⟩
  · obtain ⟨rfl, rfl⟩ := List.cons.inj hu
    have hblank : isBlank '\n' = true := by decide
    exact .inl (by simp [first, hblank])
  · obtain ⟨rfl, rfl⟩ := List.cons.inj hu
    have htag : ['?', '>'] ∈ tags := by decide
    obtain ⟨d, v, hdv, -, hfirst⟩ := isReadBefore_tag htag u
    obtain ⟨rfl, rfl⟩ := List.cons.inj hdv
    exact .inr (hfirst ▸ List.prefix_rfl)

theorem EndsLine.append {s : List Char} (h : EndsLine s) (t : List Char) : EndsLine (s ++ t) :=
  h.imp (·.trans (List.prefix_append s t)) (·.trans (List.prefix_append s t))

/-- Lexemes of an expression are read again where the text behind them breaks off, unless it does so
inside of a comment up to the end of its line. -/
theorem areReadBefore_again {ls : List Lexeme} {rest left : List Char} (h : BreaksOff rest left)
    (hread : AreReadBefore ls rest) (hplain : ∀ l ∈ ls, l.IsPlain)
    (hlast : ∀ l ∈ ls.getLast?, l.isLineComment = false) : AreReadBefore ls left := by
  induction ls with
  | nil => trivial
  | cons l ls ih =>
    obtain ⟨hl, hls⟩ := hread
    obtain ⟨hfirst, hothers⟩ := List.forall_mem_cons.mp hplain
    cases ls with
    | nil =>
      exact ⟨isReadBefore_again hl (h.append_left _) hfirst (hlast l rfl), trivial⟩
    | cons next ls =>
      refine ⟨?_, ih hls hothers (by simpa using hlast)⟩
      by_cases hline : l.isLineComment = true
      · obtain ⟨hend, hagain⟩ := isReadBefore_line hl hline
        refine hagain _ ?_
        -- the lexeme behind the comment has what ends it
        obtain ⟨c, s, hcs, -, hnext⟩ := hls.1
        rw [textOf_cons, List.append_assoc, hcs] at hend
        have hends := first_of_endsLine (hend.resolve_left (List.cons_ne_nil c s))
        rw [hnext] at hends
        rw [textOf_cons, List.append_assoc]
        exact hends.append _
      · exact isReadBefore_again hl (h.append_left _) hfirst (by simpa using hline)

end FrontendSync.Php.Lexeme
