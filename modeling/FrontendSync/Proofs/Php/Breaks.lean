import FrontendSync.Proofs.Php.Spelling

/-!
# Where names, numbers and quotes end

What is read of a text as a name, a number, a quoted text or a comment is the start of that text,
and the same is read when the text behind it is broken off by a slash, a hash or a space: none of
them goes on with these.
-/

namespace FrontendSync.Php.Lexeme

open FrontendSync.Text

/-! ## Breaks -/

/-- The characters that a comment or a blank starts with. -/
def isBreak (d : Char) : Bool := d == '/' || d == '#' || d == ' '

/-- The second text goes on as the first one does, up to a break that stands before the end of the
first one. -/
def BreaksOff (rest left : List Char) : Prop :=
  ∃ p b d x, rest = p ++ b ∧ b ≠ [] ∧ left = p ++ d :: x ∧ isBreak d = true

theorem eq_of_isBreak {d : Char} (h : isBreak d = true) : d = '/' ∨ d = '#' ∨ d = ' ' := by
  simpa [isBreak, or_assoc] using h

theorem isBreak_eq_false_of_any {w : List Char} (h : w.any isBreak = false) :
    ∀ d ∈ w, isBreak d = false := by simpa using h

namespace BreaksOff

variable {rest left : List Char}

theorem append_left (h : BreaksOff rest left) (u : List Char) :
    BreaksOff (u ++ rest) (u ++ left) := by
  obtain ⟨p, b, d, x, rfl, hb, rfl, hd⟩ := h
  exact ⟨u ++ p, b, d, x, by simp, hb, by simp, hd⟩

theorem ne_nil (h : BreaksOff rest left) : rest ≠ [] := by
  obtain ⟨p, b, d, x, rfl, hb, -, -⟩ := h
  exact List.append_ne_nil_of_right_ne_nil p hb

/-- Either a text breaks off at once, or both go on with the same character. -/
theorem cases_on_head (h : BreaksOff rest left) :
    (∃ d x, left = d :: x ∧ isBreak d = true) ∨
      ∃ c more less, rest = c :: more ∧ left = c :: less ∧ BreaksOff more less := by
  obtain ⟨p, b, d, x, rfl, hb, rfl, hd⟩ := h
  cases p with
  | nil => exact .inl ⟨d, x, rfl, hd⟩
  | cons c p => exact .inr ⟨c, p ++ b, p ++ d :: x, rfl, rfl, p, b, d, x, rfl, hb, rfl, hd⟩

/-- What is true of no break and not of the first character is not true of what breaks off. -/
theorem head?_eq_false (h : BreaksOff rest left) {P : Char → Bool}
    (hP : ∀ d, isBreak d = true → P d = false) (hrest : ∀ c ∈ rest.head?, P c = false) :
    ∀ c ∈ left.head?, P c = false := by
  obtain ⟨d, x, rfl, hd⟩ | ⟨c, more, less, rfl, rfl, -⟩ := h.cases_on_head
  · rintro c hc
    obtain rfl := Option.some.inj hc
    exact hP d hd
  · exact hrest

/-- Breaking off adds nothing that a text without breaks is found in. -/
theorem isPrefix_of_isPrefix (h : BreaksOff rest left) {w : List Char}
    (hw : ∀ d ∈ w, isBreak d = false) (hleft : w <+: left) : w <+: rest := by
  obtain ⟨p, b, d, x, rfl, -, rfl, hd⟩ := h
  obtain hp | hp := List.prefix_or_prefix_of_prefix hleft (List.prefix_append p (d :: x))
  · exact hp.trans (List.prefix_append p b)
  · obtain ⟨u, rfl⟩ := hp
    cases u with
    | nil => simp
    | cons e u =>
      obtain ⟨rfl, -⟩ := List.cons_prefix_cons.mp ((List.prefix_append_right_inj p).mp hleft)
      simp [hw e (by simp)] at hd

end BreaksOff

/-! ## Parts of lexemes -/

/-- What a reader takes is the start of its text, and it takes the same in front of what breaks
off. -/
structure IsLocal (take : List Char → List Char) : Prop where
  start : ∀ s, take s <+: s
  again : ∀ {u rest left}, take (u ++ rest) = u → BreaksOff rest left → take (u ++ left) = u

theorem drop_length_of_eq_append {s u t : List Char} (h : s = u ++ t) : s.drop u.length = t := by
  rw [h, List.drop_left]

namespace IsLocal

variable {f g : List Char → List Char}

theorem of_split (hstart : ∀ s, f s <+: s) (hagain : ∀ s rest left, s = f s ++ rest →
    BreaksOff rest left → f (f s ++ left) = f s) : IsLocal f where
  start := hstart
  again := by
    intro u rest left hu h
    have hsame := hagain (u ++ rest) rest left (by rw [hu]) h
    rwa [hu] at hsame

theorem split (hf : IsLocal f) (s : List Char) : ∃ u rest, s = u ++ rest ∧ f (u ++ rest) = u := by
  obtain ⟨rest, hrest⟩ := hf.start s
  exact ⟨f s, rest, hrest.symm, by rw [hrest]⟩

/-- Two readers one behind the other. -/
theorem append (hf : IsLocal f) (hg : IsLocal g) :
    IsLocal fun s ↦ f s ++ g (s.drop (f s).length) := by
  refine .of_split (fun s ↦ ?_) fun s rest left hs h ↦ ?_
  · obtain ⟨t, ht⟩ := hf.start s
    have hdrop := drop_length_of_eq_append ht.symm
    obtain ⟨u, hu⟩ := hg.start t
    exact ⟨u, by rw [hdrop, List.append_assoc, hu, ht]⟩
  · rw [List.append_assoc] at hs
    have hdrop := drop_length_of_eq_append hs
    have hfirst := hf.again (congrArg f hs.symm) (h.append_left (g (s.drop (f s).length)))
    have hsecond := hg.again (congrArg g hdrop.symm) h
    simp only [List.append_assoc, hfirst, List.drop_left, hsecond]

end IsLocal

theorem takeWhile_eq_nil_iff {P : Char → Bool} {s : List Char} :
    s.takeWhile P = [] ↔ ∀ c ∈ s.head?, P c = false := by
  cases s with
  | nil => simp
  | cons c s => simp [List.takeWhile_cons]

theorem takeWhile_append_eq_left_iff {P : Char → Bool} {u rest : List Char} :
    (u ++ rest).takeWhile P = u ↔ (∀ c ∈ u, P c = true) ∧ ∀ c ∈ rest.head?, P c = false := by
  refine ⟨fun h ↦ ?_, fun ⟨hu, hrest⟩ ↦ takeWhile_append hu hrest⟩
  have hu : ∀ c ∈ u, P c = true := fun c hc ↦
    List.all_eq_true.mp List.all_takeWhile c (h.symm ▸ hc)
  rw [List.takeWhile_append_of_pos hu] at h
  exact ⟨hu, takeWhile_eq_nil_iff.mp (List.append_right_eq_self.mp h)⟩

theorem isLocal_takeWhile {P : Char → Bool} (hP : ∀ d, isBreak d = true → P d = false) :
    IsLocal (List.takeWhile P) where
  start _ := List.takeWhile_prefix P
  again := by
    intro u rest left hu h
    rw [takeWhile_append_eq_left_iff] at hu ⊢
    exact hu.imp_right (h.head?_eq_false hP)

theorem isLocal_nameTail : IsLocal nameTail := by
  refine .of_split (fun s ↦ ?_) fun s rest left hs h ↦ ?_
  · induction s with
    | nil => exact List.prefix_rfl
    | cons c s ih =>
      rw [nameTail]
      split
      · exact List.cons_prefix_cons.mpr ⟨rfl, ih⟩
      · exact List.nil_prefix
  · have hbreak : ∀ d, isBreak d = true → isNameStart d = false ∧ isNameChar d = false ∧
        d ≠ '\\' := by
      intro d hd
      rcases eq_of_isBreak hd with rfl | rfl | rfl <;> decide
    induction s with
    | nil =>
      rw [nameTail, List.nil_append] at hs
      exact absurd hs.symm h.ne_nil
    | cons c s ih =>
      rw [nameTail] at hs ⊢
      split at hs
      · rename_i hc
        have hs := (List.cons.inj hs).2
        rw [if_pos hc, List.cons_append, nameTail, ih hs, if_pos]
        rw [Bool.or_eq_true] at hc ⊢
        refine hc.imp_right fun hslash ↦ ?_
        rw [Bool.and_eq_true] at hslash ⊢
        refine ⟨hslash.1, ?_⟩
        cases s with
        | nil => simp at hslash
        | cons d s =>
          have hd : isNameStart d = true := hslash.2
          rw [nameTail, if_pos (by simp [isNameChar_of_isNameStart hd])]
          exact hd
      · rename_i hc
        rw [if_neg hc, List.nil_append]
        obtain ⟨d, x, rfl, hd⟩ | ⟨e, more, less, rfl, rfl, hmore⟩ := h.cases_on_head
        · rw [nameTail, if_neg (by simp [hbreak d hd])]
        · obtain ⟨rfl, rfl⟩ := List.cons.inj hs
          rw [nameTail, if_neg]
          simp only [Bool.or_eq_true, not_or, Bool.not_eq_true, Bool.and_eq_true, not_and] at hc ⊢
          refine ⟨hc.1, fun hslash ↦ ?_⟩
          have hnext := (Option.any_eq_false _ _).mp (hc.2 hslash)
          exact (Option.any_eq_false _ _).mpr
            (hmore.head?_eq_false (fun d hd ↦ (hbreak d hd).1) hnext)

/-- A quoted text that has its end is read whatever follows. -/
theorem quotedTail_again {quote : Char} (hquote : quote ≠ '\\') (s : List Char) :
    quotedTail quote s <+: s ∧ ∀ rest x, s = quotedTail quote s ++ rest → rest ≠ [] →
      quotedTail quote (quotedTail quote s ++ x) = quotedTail quote s ∧
        ∀ escape?, unquote quote escape? (quotedTail quote s ++ x) = unquote quote escape? s := by
  fun_induction quotedTail quote s with
  | case1 => exact ⟨List.prefix_rfl, fun rest x hs hrest ↦ absurd hs.symm hrest⟩
  | case2 c s ih =>
    obtain ⟨hstart, hagain⟩ := ih
    refine ⟨by simpa [List.cons_prefix_cons] using hstart, fun rest x hs hrest ↦ ?_⟩
    simp only [List.cons_append, List.cons.injEq, true_and] at hs
    obtain ⟨htail, hvalue⟩ := hagain rest x hs hrest
    refine ⟨by simp [quotedTail, htail], fun escape? ↦ ?_⟩
    simp only [List.cons_append, unquote, hvalue]
  | case3 s hpair =>
    refine ⟨by simp [List.cons_prefix_cons], fun rest x hs hrest ↦ ?_⟩
    rw [List.singleton_append, quotedTail_cons hquote, if_pos rfl]
    refine ⟨rfl, fun escape? ↦ ?_⟩
    rw [unquote_cons hquote, unquote_cons hquote, if_pos rfl, if_pos rfl]
  | case4 c s hpair hc ih =>
    obtain ⟨hstart, hagain⟩ := ih
    refine ⟨by simpa [List.cons_prefix_cons] using hstart, fun rest x hs hrest ↦ ?_⟩
    simp only [List.cons_append, List.cons.injEq, true_and] at hs
    have hslash : c ≠ '\\' := by
      rintro rfl
      cases s with
      | nil =>
        rw [quotedTail, List.nil_append] at hs
        exact hrest hs.symm
      | cons d s => exact hpair d s rfl rfl
    obtain ⟨htail, hvalue⟩ := hagain rest x hs hrest
    rw [List.cons_append, quotedTail_cons hslash, if_neg hc, htail]
    refine ⟨rfl, fun escape? ↦ ?_⟩
    rw [unquote_cons hslash, unquote_cons hslash, if_neg hc, if_neg hc, hvalue]

theorem head?_commentTail (s : List Char) : (commentTail s).head? = s.head? := by
  unfold commentTail
  split <;> rfl

theorem commentTail_cons {c : Char} {s : List Char} (h : c = '*' → s.head? ≠ some '/') :
    commentTail (c :: s) = c :: commentTail s := by
  rw [commentTail]
  rintro t rfl rfl
  exact h rfl rfl

theorem isLocal_commentTail : IsLocal commentTail := by
  refine .of_split (fun s ↦ ?_) fun s rest left hs h ↦ ?_
  · fun_induction commentTail s with
    | case1 => exact List.prefix_rfl
    | case2 s => simp [List.cons_prefix_cons]
    | case3 c s hpair ih => exact List.cons_prefix_cons.mpr ⟨rfl, ih⟩
  · fun_induction commentTail s with
    | case1 => exact absurd hs.symm h.ne_nil
    | case2 s => simp [commentTail]
    | case3 c s hpair ih =>
      have htail := (List.cons.inj hs).2
      rw [List.cons_append, commentTail_cons, ih htail]
      rintro rfl hslash
      cases s with
      | nil => exact h.ne_nil (List.append_eq_nil_iff.mp htail.symm).2
      | cons d s =>
        have hhead := head?_commentTail (d :: s)
        cases hrest : commentTail (d :: s) with
        | nil => simp [hrest] at hhead
        | cons e t =>
          rw [hrest] at hhead hslash
          obtain rfl : e = d := Option.some.inj hhead
          obtain rfl : e = '/' := Option.some.inj hslash
          exact hpair s rfl rfl

theorem fractionTail_eq_nil_iff {s : List Char} :
    fractionTail s = [] ↔ ∀ t, s = '.' :: t → t.head?.any Char.isDigit = false := by
  unfold fractionTail
  split
  · split <;> simp_all
  · rename_i hs
    refine ⟨fun _ t ht ↦ ?_, fun _ ↦ rfl⟩
    cases t with
    | nil => rfl
    | cons d t => exact absurd ht (hs d t)

theorem isLocal_digitsOrMarks : IsLocal (List.takeWhile isDigitOrMark) := by
  refine isLocal_takeWhile fun d hd ↦ ?_
  rcases eq_of_isBreak hd with rfl | rfl | rfl <;> decide

theorem isDigit_eq_false_of_isBreak {d : Char} (hd : isBreak d = true) : d.isDigit = false := by
  rcases eq_of_isBreak hd with rfl | rfl | rfl <;> decide

theorem isLocal_fractionTail : IsLocal fractionTail := by
  refine .of_split (fun s ↦ ?_) fun s rest left hs h ↦ ?_
  · unfold fractionTail
    split
    · split
      · exact List.cons_prefix_cons.mpr ⟨rfl, List.cons_prefix_cons.mpr
          ⟨rfl, List.takeWhile_prefix _⟩⟩
      · exact List.nil_prefix
    · exact List.nil_prefix
  · by_cases hnil : fractionTail s = []
    · obtain rfl : s = rest := by rwa [hnil] at hs
      rw [hnil, List.nil_append]
      rw [fractionTail_eq_nil_iff] at hnil ⊢
      rintro t rfl
      obtain ⟨d, x, heq, hd⟩ | ⟨c, more, less, rfl, heq, hmore⟩ := h.cases_on_head
      · obtain ⟨rfl, -⟩ := List.cons.inj heq
        exact absurd hd (by decide)
      · obtain ⟨rfl, rfl⟩ := List.cons.inj heq
        have hdigit := (Option.any_eq_false _ _).mp (hnil more rfl)
        exact (Option.any_eq_false _ _).mpr
          (hmore.head?_eq_false (fun _ ↦ isDigit_eq_false_of_isBreak) hdigit)
    · unfold fractionTail at hnil hs ⊢
      split at hnil
      · rename_i d s
        split at hnil
        · rename_i hd
          simp only [hd, if_true] at hs ⊢
          simp only [List.cons_append, List.cons.injEq, true_and] at hs
          simp only [List.cons_append, hd, if_true]
          rw [isLocal_digitsOrMarks.again (congrArg _ hs.symm) h]
        · exact absurd rfl hnil
      · exact absurd rfl hnil

/-- The sign of an exponent, if it has one. -/
def signTail (s : List Char) : List Char := (s.takeWhile fun c ↦ c = '+' || c = '-').take 1

theorem exponentTail_cons {e : Char} (he : e = 'e' ∨ e = 'E') (s : List Char) :
    exponentTail (e :: s) =
      if (s.drop (signTail s).length).takeWhile Char.isDigit = [] then []
      else e :: signTail s ++ (s.drop (signTail s).length).takeWhile Char.isDigit := by
  rw [exponentTail, if_pos he]
  rfl

theorem exponentTail_of_head? {s : List Char} (h : ∀ e ∈ s.head?, e ≠ 'e' ∧ e ≠ 'E') :
    exponentTail s = [] := by
  cases s with
  | nil => rfl
  | cons e s => rw [exponentTail, if_neg (by simp [h e rfl])]

theorem isLocal_digits : IsLocal (List.takeWhile Char.isDigit) :=
  isLocal_takeWhile fun _ ↦ isDigit_eq_false_of_isBreak

theorem isLocal_signTail : IsLocal signTail := by
  have hsign : ∀ d, isBreak d = true → (d = '+' || d = '-' : Bool) = false := by
    intro d hd
    rcases eq_of_isBreak hd with rfl | rfl | rfl <;> decide
  refine .of_split (fun s ↦ (List.take_prefix 1 _).trans (List.takeWhile_prefix _))
    fun s rest left hs h ↦ ?_
  cases s with
  | nil => exact absurd (List.append_eq_nil_iff.mp hs.symm).2 h.ne_nil
  | cons c s =>
    by_cases hc : (c = '+' || c = '-' : Bool) = true
    · simp [signTail, hc]
    · have hnil : signTail (c :: s) = [] := by simp [signTail, hc]
      obtain rfl : c :: s = rest := by rwa [hnil] at hs
      have hleft := h.head?_eq_false hsign (by simpa using hc)
      rw [hnil, List.nil_append, signTail, takeWhile_eq_nil_iff.mpr hleft, List.take_nil]

/-- No digit behind a sign, or at once, stays so where a text breaks off. -/
theorem digits_behind_sign {rest left : List Char} (h : BreaksOff rest left)
    (hrest : (rest.drop (signTail rest).length).takeWhile Char.isDigit = []) :
    (left.drop (signTail left).length).takeWhile Char.isDigit = [] := by
  obtain ⟨d, x, rfl, hd⟩ | ⟨c, more, less, rfl, rfl, hmore⟩ := h.cases_on_head
  · rcases eq_of_isBreak hd with rfl | rfl | rfl <;> simp [signTail]
  · by_cases hc : (c = '+' || c = '-' : Bool) = true
    · have hsign (s : List Char) : signTail (c :: s) = [c] := by simp [signTail, hc]
      rw [hsign, List.length_singleton, List.drop_one, List.tail_cons] at hrest ⊢
      exact isLocal_digits.again (u := []) hrest hmore
    · have hsign (s : List Char) : signTail (c :: s) = [] := by simp [signTail, hc]
      rw [hsign, List.length_nil, List.drop_zero] at hrest ⊢
      exact isLocal_digits.again (u := []) hrest h

theorem isLocal_exponentTail : IsLocal exponentTail := by
  refine .of_split (fun s ↦ ?_) fun s rest left hs h ↦ ?_
  · cases s with
    | nil => exact List.prefix_rfl
    | cons e s =>
      by_cases he : e = 'e' ∨ e = 'E'
      · rw [exponentTail_cons he]
        split
        · exact List.nil_prefix
        · exact List.cons_prefix_cons.mpr ⟨rfl, (isLocal_signTail.append isLocal_digits).start s⟩
      · rw [exponentTail_of_head? (by simpa using he)]
        exact List.nil_prefix
  · cases s with
    | nil => exact absurd (List.append_eq_nil_iff.mp hs.symm).2 h.ne_nil
    | cons e s =>
      by_cases he : e = 'e' ∨ e = 'E'
      · rw [exponentTail_cons he] at hs ⊢
        split at hs
        · rename_i hdigits
          rw [if_pos hdigits, List.nil_append]
          obtain ⟨d, x, rfl, hd⟩ | ⟨c, more, less, rfl, rfl, hmore⟩ := h.cases_on_head
          · refine exponentTail_of_head? ?_
            rcases eq_of_isBreak hd with rfl | rfl | rfl <;> simp
          · obtain ⟨rfl, rfl⟩ := List.cons.inj hs
            rw [exponentTail_cons he, if_pos (digits_behind_sign hmore hdigits)]
        · rename_i hdigits
          rw [List.cons_append, List.cons_append, List.append_assoc] at hs
          have htail := (List.cons.inj hs).2
          have hdrop := drop_length_of_eq_append htail
          have hsign := isLocal_signTail.again (congrArg _ htail.symm) (h.append_left _)
          have hsame := isLocal_digits.again (congrArg _ hdrop.symm) h
          rw [if_neg hdigits, List.cons_append, List.cons_append, List.append_assoc,
            exponentTail_cons he, hsign, List.drop_left, hsame, if_neg hdigits, List.cons_append]
      · have hnil := exponentTail_of_head? (s := e :: s) (by simpa using he)
        obtain rfl : e :: s = rest := by rwa [hnil] at hs
        rw [hnil, List.nil_append]
        refine exponentTail_of_head? ?_
        obtain ⟨d, x, rfl, hd⟩ | ⟨c, more, less, hrest, rfl, hmore⟩ := h.cases_on_head
        · rcases eq_of_isBreak hd with rfl | rfl | rfl <;> simp
        · obtain ⟨rfl, rfl⟩ := List.cons.inj hrest
          simpa using he

/-! ## Numbers -/

/-- The whole part, the fraction and the exponent of a number, and what follows it. -/
structure IsNumber (w f e rest : List Char) : Prop where
  whole : (w ++ (f ++ (e ++ rest))).takeWhile isDigitOrMark = w
  fraction : fractionTail (f ++ (e ++ rest)) = f
  exponent : exponentTail (e ++ rest) = e

namespace IsNumber

variable {w f e rest left : List Char}

/-- What follows a number is not looked at. -/
theorem decimal_eq (h : IsNumber w f e rest) (h' : IsNumber w f e left) :
    decimal (w ++ (f ++ (e ++ left))) = decimal (w ++ (f ++ (e ++ rest))) := by
  have hdrop (x : List Char) : (w ++ (f ++ (e ++ x))).drop (w.length + f.length) = e ++ x := by
    rw [← List.append_assoc, ← List.length_append, List.drop_left]
  simp only [decimal, h.whole, h'.whole, List.drop_left, h.fraction, h'.fraction, hdrop,
    h.exponent, h'.exponent]

theorem text_decimal (h : IsNumber w f e rest) :
    (decimal (w ++ (f ++ (e ++ rest)))).text = w ++ (f ++ e) := by
  have hdrop : (w ++ (f ++ (e ++ rest))).drop (w.length + f.length) = e ++ rest := by
    rw [← List.append_assoc, ← List.length_append, List.drop_left]
  simp only [decimal, h.whole, List.drop_left, h.fraction, hdrop, h.exponent, List.append_assoc]

theorem again (h : IsNumber w f e rest) (hleft : BreaksOff rest left) : IsNumber w f e left where
  whole := isLocal_digitsOrMarks.again h.whole ((hleft.append_left e).append_left f)
  fraction := isLocal_fractionTail.again h.fraction (hleft.append_left e)
  exponent := isLocal_exponentTail.again h.exponent hleft

end IsNumber

theorem exists_isNumber (s : List Char) :
    ∃ w f e rest, s = w ++ (f ++ (e ++ rest)) ∧ IsNumber w f e rest := by
  obtain ⟨w, s, rfl, hw⟩ := isLocal_digitsOrMarks.split s
  obtain ⟨f, s, rfl, hf⟩ := isLocal_fractionTail.split s
  obtain ⟨e, s, rfl, he⟩ := isLocal_exponentTail.split s
  exact ⟨w, f, e, s, rfl, hw, hf, he⟩

/-- A reader of lexemes takes the start of its text, and it reads the same in front of what breaks
off. -/
structure IsLocalReader (read : List Char → Lexeme) : Prop where
  start : ∀ s, (read s).text <+: s
  again : ∀ s rest left, s = (read s).text ++ rest → BreaksOff rest left →
    read ((read s).text ++ left) = read s

theorem isLocalReader_decimal : IsLocalReader decimal where
  start s := by
    obtain ⟨w, f, e, rest, rfl, h⟩ := exists_isNumber s
    exact ⟨rest, by rw [h.text_decimal]; simp⟩
  again s rest left hs h := by
    obtain ⟨w, f, e, more, rfl, hnumber⟩ := exists_isNumber s
    rw [hnumber.text_decimal] at hs ⊢
    obtain rfl : more = rest := by simpa using hs
    have hagain := hnumber.decimal_eq (hnumber.again h)
    simpa using hagain

theorem isLocal_hexDigits : IsLocal (List.takeWhile isHexOrMark) := by
  refine isLocal_takeWhile fun d hd ↦ ?_
  rcases eq_of_isBreak hd with rfl | rfl | rfl <;> decide

theorem number_hexadecimal {x : Char} (hx : x = 'x' ∨ x = 'X') (s : List Char) :
    number ('0' :: x :: s) = hexadecimal ('0' :: x :: s.takeWhile isHexOrMark)
      (s.takeWhile isHexOrMark) := by
  rw [number, if_pos hx]

theorem number_decimal {s : List Char} (h : ∀ x t, s = '0' :: x :: t → x ≠ 'x' ∧ x ≠ 'X') :
    number s = decimal s := by
  unfold number
  split
  · rename_i x t
    rw [if_neg (by simpa using h x t rfl)]
  · rfl

theorem isLocalReader_number : IsLocalReader number where
  start s := by
    unfold number
    split
    · split
      · exact List.cons_prefix_cons.mpr ⟨rfl, List.cons_prefix_cons.mpr
          ⟨rfl, isLocal_hexDigits.start _⟩⟩
      · exact isLocalReader_decimal.start _
    · exact isLocalReader_decimal.start _
  again s rest left hs h := by
    by_cases hhex : ∃ x t, s = '0' :: x :: t ∧ (x = 'x' ∨ x = 'X')
    · obtain ⟨x, t, rfl, hx⟩ := hhex
      rw [number_hexadecimal hx] at hs ⊢
      have htext : ∀ ds, (hexadecimal ('0' :: x :: ds) ds).text = '0' :: x :: ds := fun _ ↦ rfl
      simp only [htext, List.cons_append, List.cons.injEq, true_and] at hs ⊢
      rw [number_hexadecimal hx, isLocal_hexDigits.again (congrArg _ hs.symm) h]
    · have hdecimal : number s = decimal s := number_decimal fun x t ht ↦
        not_or.mp fun hx ↦ hhex ⟨x, t, ht, hx⟩
      rw [hdecimal] at hs ⊢
      rw [number_decimal, isLocalReader_decimal.again s rest left hs h]
      intro x t ht
      rw [← not_or]
      intro hx
      have hzero : ['0', x] <+: s := by
        rw [hs]
        refine (h.append_left _).isPrefix_of_isPrefix ?_ ⟨t, ht.symm⟩
        rcases hx with rfl | rfl <;> exact isBreak_eq_false_of_any (by decide)
      obtain ⟨u, rfl⟩ := hzero
      exact hhex ⟨x, u, rfl, hx⟩

end FrontendSync.Php.Lexeme
