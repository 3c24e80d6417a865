import FrontendSync.Proofs.Php.Constant
import FrontendSync.Proofs.Php.Rereading

/-!
# Comments in expressions

A comment between two lexemes of an expression leaves its value, unless it is a documentation
comment, which no expression goes on with, or its text starts with a slash: then the comment is
taken to end there, and the rest of it is read as a part of the expression.
-/

namespace FrontendSync.Php

open Lexeme (all textOf AreReadBefore BreaksOff IsPlain isBreak)

variable {ctx : Context} {v : Value} {a b c : List Char}

/-! ## Texts and their tokens -/

/-- A text is an expression of a value as a whole. -/
def Evaluates (ctx : Context) (text : List Char) (v : Value) : Prop :=
  Expression.IsWhole ctx v (tokens (String.ofList text))

theorem Lexeme.map_kind_tokens (line : Nat) (ls : List Lexeme) :
    (tokens line ls).map Token.kind = ls.filterMap Lexeme.kind := by
  induction ls generalizing line with
  | nil => rfl
  | cons l ls ih =>
    rw [tokens]
    cases hl : l.kind with
    | none => simp [hl, ih]
    | some k => simp [hl, ih]

theorem map_kind_tokens (text : List Char) :
    (tokens (String.ofList text)).map Token.kind = (all 0 text).filterMap Lexeme.kind := by
  rw [tokens, String.toList_ofList, Lexeme.map_kind_tokens]

/-- Texts whose lexemes have the same tokens are expressions of the same values. -/
theorem evaluates_congr {text other : List Char}
    (h : (all 0 text).filterMap Lexeme.kind = (all 0 other).filterMap Lexeme.kind) :
    Evaluates ctx text v ↔ Evaluates ctx other v := by
  have hkinds : Token.SameKinds (tokens (String.ofList text)) (tokens (String.ofList other)) := by
    rw [Token.SameKinds, map_kind_tokens, map_kind_tokens, h]
  exact ⟨fun ht ↦ ht.of_sameKinds hkinds.symm, fun ho ↦ ho.of_sameKinds hkinds⟩

/-- The lexemes of an expression. -/
theorem Evaluates.isPlain {text : List Char} (h : Evaluates ctx text v) {l : Lexeme}
    (hl : l ∈ all 0 text) : l.IsPlain := by
  intro k hk
  have hmem : k ∈ (tokens (String.ofList text)).map Token.kind := by
    rw [map_kind_tokens]
    exact List.mem_filterMap.mpr ⟨l, hl, hk⟩
  obtain ⟨t, ht, rfl⟩ := List.mem_map.mp hmem
  exact h.areConstant.kinds t ht

/-! ## Gaps -/

/-- A text is divided between two of its lexemes, and not at the end of a line comment. -/
def IsGap (a b : List Char) : Prop :=
  ∃ ls ms, all 0 (a ++ b) = ls ++ ms ∧ textOf ls = a ∧ ms ≠ [] ∧
    ∀ l ∈ ls.getLast?, l.isLineComment = false

/-- In front of a comment or a blank, the lexemes of an expression up to a gap are what they are. -/
theorem exists_all_of_isGap (h : Evaluates ctx (a ++ b) v) (hgap : IsGap a b) :
    ∃ ls, all 0 (a ++ b) = ls ++ all 0 b ∧
      ∀ d s, isBreak d = true → all 0 (a ++ d :: s) = ls ++ all 0 (d :: s) := by
  obtain ⟨ls, ms, hall, rfl, hms, hlast⟩ := hgap
  obtain ⟨htext, hread⟩ := Lexeme.areReadBefore_all (textOf ls ++ b)
  rw [hall, Lexeme.textOf_append, List.append_cancel_left_eq] at htext
  rw [hall, Lexeme.areReadBefore_append, List.append_nil, htext] at hread
  refine ⟨ls, Lexeme.all_textOf hread.1, fun d s hd ↦ Lexeme.all_textOf ?_⟩
  have hb : b ≠ [] := by
    rintro rfl
    obtain ⟨l, ms, rfl⟩ := List.exists_cons_of_ne_nil hms
    obtain ⟨c, s, -, hne, -⟩ := hread.2.1
    exact hne (List.append_eq_nil_iff.mp htext).1
  have hbreaks : BreaksOff b (d :: s) := ⟨[], b, d, s, rfl, hb, rfl, hd⟩
  exact Lexeme.areReadBefore_again hbreaks hread.1
    (fun l hl ↦ h.isPlain (hall ▸ List.mem_append_left ms hl)) hlast

/-! ## Comments -/

/-- A comment in front of some text: a block up to the first `*/` behind what opens it, or a line
with its line break or in front of it.  A closing tag ends a line comment as well. -/
inductive IsComment (b : List Char) : List Char → Prop
  | block {body : List Char} : ¬ ['*', '/'] <:+: body →
      IsComment b ('/' :: '*' :: (body ++ ['*', '/']))
  | line {opener body stop : List Char} :
      opener = ['/', '/'] ∨ opener = ['#'] ∧ body.head? ≠ some '[' →
      '\n' ∉ body → ¬ ['?', '>'] <:+: body → stop = ['\n'] ∨ stop = [] ∧ b.head? = some '\n' →
      IsComment b (opener ++ body ++ stop)

/-- A block comment that starts with two asterisks and is not empty. -/
def IsDocumentation (c : List Char) : Prop :=
  ['/', '*', '*'] <+: c ∧ c ≠ ['/', '*', '*', '/']

theorem isDocumentation_block_iff {body : List Char} :
    IsDocumentation ('/' :: '*' :: (body ++ ['*', '/'])) ↔ body.head? = some '*' := by
  cases body with
  | nil => simp [IsDocumentation]
  | cons d body =>
    have hlong : ['/'] ≠ body ++ ['*', '/'] := fun h ↦ by simpa using congrArg List.length h
    simp [IsDocumentation, List.cons_prefix_cons, hlong, eq_comm]

namespace Lexeme

variable {body : List Char}

/-- A block comment is a documentation comment if its text starts with an asterisk. -/
theorem isDocComment_iff (hbody : ¬ ['*', '/'] <:+: body) (hslash : body.head? ≠ some '/') :
    isDocComment ('*' :: (body ++ '*' :: '/' :: b)) = true ↔ body.head? = some '*' := by
  cases body with
  | nil => simp [isDocComment]
  | cons d body =>
    by_cases hd : d = '*'
    · subst hd
      cases body with
      | nil => simp [isDocComment_cons (d := '*') (by decide)]
      | cons e body =>
        have he : e ≠ '/' := by
          rintro rfl
          exact hbody ⟨[], body, rfl⟩
        simp [isDocComment_cons he]
    · have hplain : isDocComment ('*' :: d :: (body ++ '*' :: '/' :: b)) = false := by
        unfold isDocComment
        split
        · rfl
        · simp_all
        · rfl
      simp [hplain, hd]

/-- A block comment whose text does not start with a slash is read up to its end. -/
theorem all_block (hbody : ¬ ['*', '/'] <:+: body) (hslash : body.head? ≠ some '/') :
    all 0 ('/' :: '*' :: (body ++ '*' :: '/' :: b)) =
      ⟨'/' :: '*' :: (body ++ ['*', '/']), if body.head? = some '*' then
        some (.docComment (String.ofList ('/' :: '*' :: (body ++ ['*', '/'])))) else none⟩
        :: all 0 b := by
  have hopened : ¬ ['*', '/'] <:+: '*' :: body := by
    rw [List.infix_cons_iff, not_or, List.cons_prefix_cons]
    refine ⟨fun ⟨_, t, ht⟩ ↦ hslash ?_, hbody⟩
    rw [← ht]
    rfl
  have hcomment : commentTail ('*' :: (body ++ '*' :: '/' :: b)) = '*' :: (body ++ ['*', '/']) :=
    commentTail_append hopened b
  rw [← all_append_of_isReadBefore]
  · simp
  · refine ⟨'/', '*' :: (body ++ '*' :: '/' :: b), by simp, by simp, ?_⟩
    rw [first_slash, hcomment]
    simp only [isDocComment_iff hbody hslash]
    split <;> simp

/-- A block comment that starts with a slash is taken to end there. -/
theorem all_slash (s : List Char) :
    all 0 ('/' :: '*' :: '/' :: s) = ⟨['/', '*', '/'], none⟩ :: all 0 s := by
  rw [← all_append_of_isReadBefore]
  · rfl
  · refine ⟨'/', '*' :: '/' :: s, rfl, by simp, ?_⟩
    rw [first_slash]
    simp [isDocComment, commentTail]

theorem all_blank {c : Char} (hc : Text.isBlank c = true) (s : List Char) :
    all 0 (c :: s) = blank c :: all 0 s :=
  all_append_of_isReadBefore (isReadBefore_blank hc s)

theorem lineCommentTail_append_lineBreak (hline : '\n' ∉ body) (htag : ¬ ['?', '>'] <:+: body)
    (s : List Char) : lineCommentTail (body ++ '\n' :: s) = body := by
  induction body with
  | nil => rfl
  | cons d body ih =>
    obtain ⟨hd, hbody⟩ := not_or.mp (mt List.mem_cons.mpr hline)
    have htail : ¬ ['?', '>'] <:+: body := fun h ↦ htag (h.trans (List.suffix_cons d body).isInfix)
    rw [List.cons_append, lineCommentTail_cons (Ne.symm hd), ih hbody htail]
    rintro rfl hclose
    cases body with
    | nil => simp at hclose
    | cons e body =>
      obtain rfl : e = '>' := Option.some.inj hclose
      exact htag ⟨[], body, rfl⟩

/-- A line comment is read up to its line break. -/
theorem all_line {opener : List Char}
    (hopener : opener = ['/', '/'] ∨ opener = ['#'] ∧ body.head? ≠ some '[') (hline : '\n' ∉ body)
    (htag : ¬ ['?', '>'] <:+: body) (s : List Char) :
    all 0 (opener ++ body ++ '\n' :: s) = ⟨opener ++ body, none⟩ :: all 0 ('\n' :: s) := by
  have htail := lineCommentTail_append_lineBreak hline htag s
  rw [← all_append_of_isReadBefore]
  rcases hopener with rfl | ⟨rfl, hopen⟩
  · refine ⟨'/', '/' :: (body ++ '\n' :: s), rfl, by simp, ?_⟩
    rw [first_of_opensLine (.inl ⟨rfl, rfl⟩), lineCommentTail_cons (by decide) (by simp), htail]
    rfl
  · refine ⟨'#', body ++ '\n' :: s, rfl, by simp, ?_⟩
    rw [first_of_opensLine, htail]
    · rfl
    · right
      refine ⟨rfl, ?_⟩
      cases body with
      | nil => simp
      | cons d body => exact hopen

end Lexeme

/-! ## Insertions -/

section Insertions

variable (h : Evaluates ctx (a ++ b) v) (hgap : IsGap a b) {body : List Char}
include h hgap

/-- What is left behind the slash of a comment is read as if a blank were in front of it. -/
theorem evaluates_slash_iff (s : List Char) :
    Evaluates ctx (a ++ '/' :: '*' :: '/' :: s) v ↔ Evaluates ctx (a ++ ' ' :: s) v := by
  obtain ⟨ls, -, hagain⟩ := exists_all_of_isGap h hgap
  refine evaluates_congr ?_
  rw [hagain _ _ (by decide), hagain _ _ (by decide), Lexeme.all_slash,
    Lexeme.all_blank (by decide)]
  simp [Lexeme.blank]

theorem not_evaluates_documentation (hbody : ¬ ['*', '/'] <:+: body)
    (hstar : body.head? = some '*') :
    ¬ Evaluates ctx (a ++ '/' :: '*' :: (body ++ '*' :: '/' :: b)) v := by
  obtain ⟨ls, -, hagain⟩ := exists_all_of_isGap h hgap
  have hall := hagain '/' ('*' :: (body ++ '*' :: '/' :: b)) (by decide)
  rw [Lexeme.all_block hbody (by simp [hstar]), if_pos hstar] at hall
  intro hinsert
  have hplain := hinsert.isPlain (l := ⟨_, _⟩)
    (by rw [hall]; exact List.mem_append_right ls List.mem_cons_self)
  exact Bool.noConfusion (hplain _ rfl)

theorem evaluates_block (hbody : ¬ ['*', '/'] <:+: body) (hslash : body.head? ≠ some '/')
    (hstar : body.head? ≠ some '*') :
    Evaluates ctx (a ++ '/' :: '*' :: (body ++ '*' :: '/' :: b)) v := by
  obtain ⟨ls, hall, hagain⟩ := exists_all_of_isGap h hgap
  refine (evaluates_congr ?_).mpr h
  rw [hagain _ _ (by decide), hall, Lexeme.all_block hbody hslash, if_neg hstar]
  simp

theorem evaluates_line {opener : List Char}
    (hopener : opener = ['/', '/'] ∨ opener = ['#'] ∧ body.head? ≠ some '[') (hline : '\n' ∉ body)
    (htag : ¬ ['?', '>'] <:+: body) {s : List Char}
    (hs : (all 0 ('\n' :: s)).filterMap Lexeme.kind = (all 0 b).filterMap Lexeme.kind) :
    Evaluates ctx (a ++ (opener ++ body ++ '\n' :: s)) v := by
  obtain ⟨ls, hall, hagain⟩ := exists_all_of_isGap h hgap
  have hcomment := Lexeme.all_line hopener hline htag s
  obtain ⟨d, t, hdt, hd⟩ : ∃ d t, opener ++ body ++ '\n' :: s = d :: t ∧ isBreak d = true := by
    rcases hopener with rfl | ⟨rfl, -⟩
    · exact ⟨'/', _, rfl, by decide⟩
    · exact ⟨'#', _, rfl, by decide⟩
  refine (evaluates_congr ?_).mpr h
  rw [hdt, hagain d t hd, ← hdt, hcomment, hall]
  simp [hs]

theorem evaluates_line_comment {opener stop : List Char}
    (hopener : opener = ['/', '/'] ∨ opener = ['#'] ∧ body.head? ≠ some '[') (hline : '\n' ∉ body)
    (htag : ¬ ['?', '>'] <:+: body) (hstop : stop = ['\n'] ∨ stop = [] ∧ b.head? = some '\n') :
    Evaluates ctx (a ++ (opener ++ body ++ stop) ++ b) v := by
  rcases hstop with rfl | ⟨rfl, hhead⟩
  · have heval := evaluates_line h hgap hopener hline htag (s := b)
      (by rw [Lexeme.all_blank (by decide)]; rfl)
    simpa using heval
  · obtain ⟨s, rfl⟩ := List.head?_eq_some_iff.mp hhead
    have heval := evaluates_line h hgap hopener hline htag (s := s) rfl
    simpa using heval

end Insertions

/-- A comment at a gap of an expression leaves its value exactly if it is no documentation comment
and, where its text starts with a slash, what follows this slash leaves the value. -/
theorem evaluates_insert_iff (h : Evaluates ctx (a ++ b) v) (hgap : IsGap a b)
    (hc : IsComment b c) :
    Evaluates ctx (a ++ c ++ b) v ↔ ¬ IsDocumentation c ∧
      ∀ more, c = '/' :: '*' :: '/' :: more → Evaluates ctx (a ++ ' ' :: (more ++ b)) v := by
  cases hc with
  | @block body hbody =>
    have htext : a ++ '/' :: '*' :: (body ++ ['*', '/']) ++ b
        = a ++ '/' :: '*' :: (body ++ '*' :: '/' :: b) := by simp
    rw [htext]
    by_cases hslash : body.head? = some '/'
    · obtain ⟨more, rfl⟩ := List.head?_eq_some_iff.mp hslash
      have hdoc : ¬ IsDocumentation ('/' :: '*' :: ('/' :: more ++ ['*', '/'])) :=
        mt isDocumentation_block_iff.mp (by simp)
      rw [List.cons_append, evaluates_slash_iff h hgap]
      constructor
      · intro hmore
        refine ⟨hdoc, fun rest hrest ↦ ?_⟩
        obtain rfl : more ++ ['*', '/'] = rest := by simpa using hrest
        simpa using hmore
      · rintro ⟨-, hmore⟩
        simpa using hmore _ rfl
    · have hno : ∀ more, '/' :: '*' :: (body ++ ['*', '/']) ≠ '/' :: '*' :: '/' :: more := by
        intro more hmore
        cases body with
        | nil => simp at hmore
        | cons d body => simp_all
      by_cases hstar : body.head? = some '*'
      · exact iff_of_false (not_evaluates_documentation h hgap hbody hstar)
          fun hplain ↦ hplain.1 (isDocumentation_block_iff.mpr hstar)
      · exact iff_of_true (evaluates_block h hgap hbody hslash hstar)
          ⟨mt isDocumentation_block_iff.mp hstar, fun more hmore ↦ absurd hmore (hno more)⟩
  | @line opener body stop hopener hline htag hstop =>
    have hno : ∀ more, opener ++ body ++ stop ≠ '/' :: '*' :: more := by
      rcases hopener with rfl | ⟨rfl, -⟩ <;> simp
    refine iff_of_true (evaluates_line_comment h hgap hopener hline htag hstop)
      ⟨?_, fun more hmore ↦ absurd hmore (hno _)⟩
    rintro ⟨⟨more, hmore⟩, -⟩
    exact hno _ hmore.symm

/-- A list, divided behind its first entry. -/
def listStart : List Char := "[1".toList

def listEnd : List Char := ", 2]".toList

theorem isGap_list : IsGap listStart listEnd :=
  ⟨(all 0 (listStart ++ listEnd)).take 2, (all 0 (listStart ++ listEnd)).drop 2,
    (List.take_append_drop 2 _).symm, by decide +kernel, by decide +kernel, by decide +kernel⟩

theorem exists_evaluates_list : ∃ v, Evaluates bareContext (listStart ++ listEnd) v := by
  have hlist : ∃ v, Expression.IsWhole bareContext v
      (tokens (String.ofList (listStart ++ listEnd))) := by decide +kernel
  exact hlist

theorem evaluates_insert_list :
    ∃ v, Evaluates bareContext (listStart ++ listEnd) v ∧ IsGap listStart listEnd ∧
      IsComment listEnd ('/' :: '*' :: ([' ', 'x', ' '] ++ ['*', '/'])) ∧
      Evaluates bareContext
        (listStart ++ '/' :: '*' :: ([' ', 'x', ' '] ++ ['*', '/']) ++ listEnd) v := by
  obtain ⟨v, hv⟩ := exists_evaluates_list
  have hcomment : IsComment listEnd ('/' :: '*' :: ([' ', 'x', ' '] ++ ['*', '/'])) :=
    .block (by decide)
  exact ⟨v, hv, isGap_list, hcomment, (evaluates_insert_iff hv isGap_list hcomment).mpr
    ⟨by simp [IsDocumentation, List.cons_prefix_cons], by simp⟩⟩

/-- A comment that starts with a slash, and has an entry of a list in its text. -/
def slashComment : List Char := '/' :: '*' :: ("/ , 9 /".toList ++ ['*', '/'])

theorem not_evaluates_slashComment :
    IsGap listStart listEnd ∧ IsComment listEnd slashComment ∧
      ∃ v, Evaluates bareContext (listStart ++ listEnd) v ∧
        ¬ Evaluates bareContext (listStart ++ slashComment ++ listEnd) v := by
  obtain ⟨v, hv⟩ := exists_evaluates_list
  refine ⟨isGap_list, .block (by decide), v, hv, fun hinsert ↦ ?_⟩
  have hlength : (Expression.entriesOf (Expression.read bareContext
      (tokens (String.ofList (listStart ++ listEnd))))).length = 2 := by decide +kernel
  have hlength' : (Expression.entriesOf (Expression.read bareContext
      (tokens (String.ofList (listStart ++ slashComment ++ listEnd))))).length = 3 := by
    decide +kernel
  rw [hv.entriesOf_eq hinsert, hlength'] at hlength
  exact absurd hlength (by decide)

end FrontendSync.Php
