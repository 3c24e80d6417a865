import FrontendSync.Proofs.Php.Breaks
import FrontendSync.Proofs.Text.Pieces
import FrontendSync.Proofs.Text.Trim

/-!
# Where heredocs end

A heredoc whose closing label is found is read alike whatever follows the label.
-/

namespace FrontendSync.Php.Lexeme

open FrontendSync.Text

/-! ## In front of the body -/

/-- Where a reader stops is decided by the character that comes next. -/
structure LooksAhead (take : List Char → List Char) : Prop where
  start : ∀ s, take s <+: s
  again : ∀ {u rest left}, take (u ++ rest) = u → rest.head? = left.head? → take (u ++ left) = u

theorem LooksAhead.split {take : List Char → List Char} (h : LooksAhead take) (s : List Char) :
    ∃ u rest, s = u ++ rest ∧ take (u ++ rest) = u := by
  obtain ⟨rest, hrest⟩ := h.start s
  exact ⟨take s, rest, hrest.symm, by rw [hrest]⟩

theorem looksAhead_takeWhile (P : Char → Bool) : LooksAhead (List.takeWhile P) where
  start _ := List.takeWhile_prefix P
  again hu h := by
    rw [takeWhile_append_eq_left_iff] at hu ⊢
    rwa [← h]

theorem looksAhead_take (n : Nat) : LooksAhead (List.take n) where
  start _ := List.take_prefix n _
  again := by
    intro u rest left hu h
    cases rest with
    | nil =>
      obtain rfl : left = [] := List.head?_eq_none_iff.mp h.symm
      exact hu
    | cons c rest =>
      have hlength : n = u.length := by
        have hlength := congrArg List.length hu
        rw [List.length_take, List.length_append, List.length_cons] at hlength
        omega
      exact List.take_left' hlength.symm

theorem looksAhead_takeWhile_take_one (P : Char → Bool) :
    LooksAhead fun s ↦ (s.takeWhile P).take 1 where
  start s := (List.take_prefix 1 _).trans (List.takeWhile_prefix P)
  again := by
    intro u rest left hu h
    cases u with
    | nil =>
      have hrest : rest.takeWhile P = [] := by simpa using hu
      rw [takeWhile_eq_nil_iff, h] at hrest
      rw [List.nil_append, takeWhile_eq_nil_iff.mpr hrest, List.take_nil]
    | cons c u =>
      by_cases hc : P c = true
      · simp only [List.cons_append, List.takeWhile_cons_of_pos hc, List.take_succ_cons,
          List.take_zero] at hu ⊢
        exact hu
      · simp [hc] at hu

/-- The label of a heredoc, and the text in front of its body. -/
def heredocOpening (s : List Char) : List Char × List Char :=
  let spaces := s.takeWhile (· = ' ')
  let s := s.drop spaces.length
  let opening := (s.takeWhile fun c ↦ c = '\'' || c = '"').take 1
  let s := s.drop opening.length
  let label := s.takeWhile isNameChar
  let s := s.drop label.length
  let closing := s.take opening.length
  let s := s.drop closing.length
  let line := s.takeWhile (· ≠ '\n')
  let line := line ++ (s.drop line.length).take 1
  (label, spaces ++ opening ++ label ++ closing ++ line)

theorem heredoc_eq (s : List Char) :
    heredoc s = ⟨(heredocOpening s).2
        ++ (heredocBody (heredocOpening s).1 (s.drop (heredocOpening s).2.length)).text,
      (heredocBody (heredocOpening s).1 (s.drop (heredocOpening s).2.length)).kind⟩ := by
  simp only [heredoc, heredocOpening, List.length_append, ← List.drop_drop]

/-- The parts of the text in front of the body of a heredoc. -/
structure IsOpening (sp op la cl li nl rest : List Char) : Prop where
  spaces : (sp ++ (op ++ (la ++ (cl ++ (li ++ (nl ++ rest)))))).takeWhile (· = ' ') = sp
  opening : ((op ++ (la ++ (cl ++ (li ++ (nl ++ rest))))).takeWhile
    fun c ↦ c = '\'' || c = '"').take 1 = op
  label : (la ++ (cl ++ (li ++ (nl ++ rest)))).takeWhile isNameChar = la
  closing : (cl ++ (li ++ (nl ++ rest))).take op.length = cl
  line : (li ++ (nl ++ rest)).takeWhile (· ≠ '\n') = li
  lineBreak : (nl ++ rest).take 1 = nl

namespace IsOpening

variable {sp op la cl li nl rest left : List Char}

theorem heredocOpening_eq (h : IsOpening sp op la cl li nl rest) :
    heredocOpening (sp ++ (op ++ (la ++ (cl ++ (li ++ (nl ++ rest))))))
      = (la, sp ++ op ++ la ++ cl ++ (li ++ nl)) := by
  simp only [heredocOpening, h.spaces, List.drop_left, h.opening, h.label, h.closing, h.line,
    h.lineBreak]

theorem again (h : IsOpening sp op la cl li nl rest) (hhead : rest.head? = left.head?) :
    IsOpening sp op la cl li nl left where
  spaces := by
    refine (looksAhead_takeWhile (· = ' ')).again h.spaces ?_
    simp only [List.head?_append, hhead]
  opening := by
    refine (looksAhead_takeWhile_take_one _).again h.opening ?_
    simp only [List.head?_append, hhead]
  label := by
    refine (looksAhead_takeWhile isNameChar).again h.label ?_
    simp only [List.head?_append, hhead]
  closing := by
    refine (looksAhead_take op.length).again h.closing ?_
    simp only [List.head?_append, hhead]
  line := by
    refine (looksAhead_takeWhile (· ≠ '\n')).again h.line ?_
    simp only [List.head?_append, hhead]
  lineBreak := (looksAhead_take 1).again h.lineBreak hhead

end IsOpening

theorem exists_isOpening (s : List Char) : ∃ sp op la cl li nl rest,
    s = sp ++ (op ++ (la ++ (cl ++ (li ++ (nl ++ rest))))) ∧
      IsOpening sp op la cl li nl rest := by
  obtain ⟨sp, s, rfl, hsp⟩ := (looksAhead_takeWhile (· = ' ')).split s
  obtain ⟨op, s, rfl, hop⟩ := (looksAhead_takeWhile_take_one fun c ↦ c = '\'' || c = '"').split s
  obtain ⟨la, s, rfl, hla⟩ := (looksAhead_takeWhile isNameChar).split s
  obtain ⟨cl, s, rfl, hcl⟩ := (looksAhead_take op.length).split s
  obtain ⟨li, s, rfl, hli⟩ := (looksAhead_takeWhile (· ≠ '\n')).split s
  obtain ⟨nl, s, rfl, hnl⟩ := (looksAhead_take 1).split s
  exact ⟨sp, op, la, cl, li, nl, s, rfl, hsp, hop, hla, hcl, hli, hnl⟩

/-- Lines without the label, and the indentation of the first line with it. -/
structure IsClosed (label : List Char) (body : List (List Char)) (indent : List Char) : Prop where
  lines : ∀ line ∈ body, '\n' ∉ line ∧ closesHeredoc label line = false
  blank : ∀ c ∈ indent, isBlank c = true
  start : ∃ c more, label = c :: more ∧ isBlank c = false
  line : '\n' ∉ indent ++ label

theorem pieces_flatMap_append {body : List (List Char)} (h : ∀ line ∈ body, '\n' ∉ line)
    (s : List Char) :
    pieces '\n' (body.flatMap (· ++ ['\n']) ++ s) = body ++ pieces '\n' s := by
  induction body with
  | nil => rfl
  | cons line body ih =>
    obtain ⟨hline, hbody⟩ := List.forall_mem_cons.mp h
    rw [List.flatMap_cons, List.append_assoc, List.append_assoc, List.singleton_append,
      pieces_append_cons, pieces_of_notMem hline, ih hbody, List.singleton_append,
      List.cons_append]

theorem exists_join_append_cons (body : List (List Char)) (line : List Char)
    (more : List (List Char)) :
    ∃ x, join '\n' (body ++ line :: more) = body.flatMap (· ++ ['\n']) ++ (line ++ x) :=
  ⟨_, by rw [join_append_eq_flatMap body (List.cons_ne_nil line more), join_cons_eq_flatMap]⟩

theorem pieces_append_of_notMem {w : List Char} (h : '\n' ∉ w) (s : List Char) :
    ∃ line more, pieces '\n' s = line :: more ∧ pieces '\n' (w ++ s) = (w ++ line) :: more := by
  obtain ⟨line, more, hs⟩ := List.exists_cons_of_ne_nil (pieces_ne_nil '\n' s)
  refine ⟨line, more, hs, ?_⟩
  induction w with
  | nil => exact hs
  | cons c w ih =>
    obtain ⟨hc, hw⟩ := not_or.mp (mt List.mem_cons.mpr h)
    rw [List.cons_append, pieces, ih hw, List.cons_append]
    exact if_neg (Ne.symm hc)

theorem startsWith_append (w s : List Char) : startsWith w (w ++ s) = true := by
  rw [startsWith, stripStart?_append]
  rfl

theorem span_append_cons {α : Type} {p : α → Bool} {xs : List α} {y : α}
    (hxs : ∀ x ∈ xs, p x = true) (hy : p y = false) (ys : List α) :
    (xs ++ y :: ys).span p = (xs, y :: ys) := by
  rw [List.span_eq_takeWhile_dropWhile, List.takeWhile_append_of_pos hxs,
    List.dropWhile_append_of_pos hxs, List.takeWhile_cons_of_neg (by simp [hy]),
    List.dropWhile_cons_of_neg (by simp [hy]), List.append_nil]

/-- A heredoc that has its end is read whatever follows. -/
theorem IsClosed.heredocBody_eq {label : List Char} {body : List (List Char)} {indent : List Char}
    (h : IsClosed label body indent) (s : List Char) :
    heredocBody label (body.flatMap (· ++ ['\n']) ++ (indent ++ label) ++ s) =
      ⟨body.flatMap (· ++ ['\n']) ++ indent ++ label,
        some (.string (String.ofList (join '\n' (body.map (outdent indent.length)))))⟩ := by
  obtain ⟨c, more, hlabel, hc⟩ := h.start
  obtain ⟨line, others, -, hpieces⟩ := pieces_append_of_notMem h.line s
  have hhead (t : List Char) : ∀ d ∈ (label ++ t).head?, isBlank d = false := by
    rw [hlabel]
    rintro d hd
    obtain rfl : c = d := Option.some.inj hd
    exact hc
  have hcloses : closesHeredoc label (indent ++ label ++ line) = true := by
    rw [closesHeredoc, List.append_assoc, trimStart_append h.blank (hhead line),
      startsWith_append]
    simp [hlabel]
  have hindent : (indent ++ label ++ line).takeWhile isBlank = indent := by
    rw [List.append_assoc]
    exact takeWhile_append h.blank (hhead line)
  have hopen : ∀ line ∈ body, (!closesHeredoc label line) = true := fun line hline ↦ by
    simp [(h.lines line hline).2]
  have hclosed : (!closesHeredoc label (indent ++ label ++ line)) = false := by
    rw [hcloses]
    rfl
  have hspan : (body ++ (indent ++ label ++ line) :: others).span
      (fun line ↦ !closesHeredoc label line) = (body, (indent ++ label ++ line) :: others) :=
    span_append_cons hopen hclosed others
  rw [heredocBody, List.append_assoc, pieces_flatMap_append fun line hline ↦ (h.lines line hline).1,
    hpieces, hspan]
  simp only [hindent]

/-- A heredoc without an end has all the lines that follow, and otherwise it has those in front of
its end. -/
theorem exists_isClosed (label s : List Char) :
    heredocBody label s
        = ⟨s, some (.string (String.ofList (join '\n' (dropEmptyEnd (pieces '\n' s)))))⟩ ∨
      ∃ body indent rest, IsClosed label body indent ∧
        s = body.flatMap (· ++ ['\n']) ++ (indent ++ label) ++ rest := by
  have hline {line : List Char} (h : line ∈ pieces '\n' s) : '\n' ∉ line := notMem_of_mem_pieces h
  rw [heredocBody]
  cases hspan : (pieces '\n' s).span (fun line ↦ !closesHeredoc label line) with
  | mk body behind =>
    rw [List.span_eq_takeWhile_dropWhile, Prod.mk.injEq] at hspan
    have hsplit : pieces '\n' s = body ++ behind := by
      rw [← hspan.1, ← hspan.2, List.takeWhile_append_dropWhile]
    cases behind with
    | nil => exact .inl (by rw [hsplit, List.append_nil])
    | cons closing behind =>
      right
      have hcloses : closesHeredoc label closing = true := by
        have hhead := List.head?_dropWhile_not (fun line ↦ !closesHeredoc label line)
          (pieces '\n' s)
        rw [hspan.2] at hhead
        simpa using hhead
      rw [closesHeredoc, Bool.and_eq_true, decide_eq_true_eq] at hcloses
      obtain ⟨z, hz⟩ := Option.isSome_iff_exists.mp hcloses.2
      have hclosing : closing = closing.takeWhile isBlank ++ (label ++ z) := by
        conv_lhs => rw [← List.takeWhile_append_dropWhile (p := isBlank) (l := closing)]
        rw [← trimStart, eq_append_of_stripStart? hz]
      obtain ⟨x, hx⟩ : ∃ x, s = body.flatMap (· ++ ['\n']) ++ (closing ++ x) := by
        obtain ⟨x, hx⟩ := exists_join_append_cons body closing behind
        exact ⟨x, by rw [← hx, ← hsplit, join_pieces]⟩
      refine ⟨body, closing.takeWhile isBlank, z ++ x, ⟨?_, ?_, ?_, ?_⟩, ?_⟩
      · intro line hmem
        refine ⟨hline (by simp [hsplit, hmem]), ?_⟩
        have hopen := List.all_eq_true.mp List.all_takeWhile line (hspan.1.symm ▸ hmem)
        simpa using hopen
      · exact fun c hc ↦ List.all_eq_true.mp List.all_takeWhile c hc
      · obtain ⟨c, more, hlabel⟩ := List.exists_cons_of_ne_nil hcloses.1
        refine ⟨c, more, hlabel, ?_⟩
        have hhead := List.head?_dropWhile_not isBlank closing
        rw [← trimStart, eq_append_of_stripStart? hz, hlabel] at hhead
        simpa using hhead
      · intro hmem
        have hpiece : closing ∈ pieces '\n' s := by simp [hsplit]
        refine hline hpiece ?_
        rw [hclosing, ← List.append_assoc]
        exact List.mem_append_left z hmem
      · rw [hx]
        conv_lhs => rw [hclosing]
        simp

theorem isLocalReader_heredocBody (label : List Char) : IsLocalReader (heredocBody label) where
  start s := by
    obtain hall | ⟨body, indent, rest, hclosed, rfl⟩ := exists_isClosed label s
    · rw [hall]
    · rw [hclosed.heredocBody_eq, List.append_assoc _ indent]
      exact List.prefix_append _ _
  again s rest left hs h := by
    obtain hall | ⟨body, indent, more, hclosed, rfl⟩ := exists_isClosed label s
    · rw [hall, List.self_eq_append_right] at hs
      exact absurd hs h.ne_nil
    · rw [hclosed.heredocBody_eq]
      have hagain := hclosed.heredocBody_eq left
      rwa [← List.append_assoc _ indent] at hagain

/-- A heredoc with an end has the label at it. -/
theorem text_heredocBody_ne_nil {label s rest : List Char}
    (hs : s = (heredocBody label s).text ++ rest) (hrest : rest ≠ []) :
    (heredocBody label s).text ≠ [] := by
  obtain hall | ⟨body, indent, more, hclosed, rfl⟩ := exists_isClosed label s
  · rw [hall, List.self_eq_append_right] at hs
    exact absurd hs hrest
  · obtain ⟨c, tail, rfl, -⟩ := hclosed.start
    rw [hclosed.heredocBody_eq]
    simp

theorem heredoc_append {sp op la cl li nl rest : List Char}
    (h : IsOpening sp op la cl li nl rest) :
    heredoc (sp ++ (op ++ (la ++ (cl ++ (li ++ (nl ++ rest)))))) =
      ⟨sp ++ (op ++ (la ++ (cl ++ (li ++ (nl ++ (heredocBody la rest).text))))),
        (heredocBody la rest).kind⟩ := by
  have hdrop : (sp ++ (op ++ (la ++ (cl ++ (li ++ (nl ++ rest)))))).drop
      (sp ++ op ++ la ++ cl ++ (li ++ nl)).length = rest :=
    drop_length_of_eq_append (by simp)
  rw [heredoc_eq, h.heredocOpening_eq, hdrop]
  simp

theorem isLocalReader_heredoc : IsLocalReader heredoc where
  start s := by
    obtain ⟨sp, op, la, cl, li, nl, rest, rfl, h⟩ := exists_isOpening s
    rw [heredoc_append h]
    simpa only [List.prefix_append_right_inj] using (isLocalReader_heredocBody la).start rest
  again s rest left hs h := by
    obtain ⟨sp, op, la, cl, li, nl, more, rfl, hopening⟩ := exists_isOpening s
    rw [heredoc_append hopening] at hs ⊢
    simp only [List.append_assoc, List.append_cancel_left_eq] at hs ⊢
    have hhead : more.head? = ((heredocBody la more).text ++ left).head? := by
      obtain ⟨c, t, ht⟩ := List.exists_cons_of_ne_nil (text_heredocBody_ne_nil hs h.ne_nil)
      conv_lhs => rw [hs]
      rw [ht]
      rfl
    rw [heredoc_append (hopening.again hhead),
      (isLocalReader_heredocBody la).again more rest left hs h]

end FrontendSync.Php.Lexeme
