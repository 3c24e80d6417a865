import FrontendSync.Proofs.Enum.Record

/-!
# Modules of arbitrary names

A name of the source may be no word of a module, and then the reader takes it to pieces.  What it
makes of a group is stated here for every name: under which word the group is exported, if it is
exported at all, and as what its entries are read.
-/

namespace FrontendSync.Module

open EnumRecord Drift Php

/-! ## Characters of names -/

/-- A character that is none of names is not among them. -/
theorem ne_of_hasNameChars {t : List Char} (h : HasNameChars t) {c d : Char} (hc : c ∈ t)
    (hd : (Lexeme.isNameChar d || d == '\\') = false) : c ≠ d := by
  rintro rfl
  rcases h c hc with hc | rfl
  · simp [hc] at hd
  · simp at hd

theorem isPlain_of_hasNameChars {t : List Char} (h : HasNameChars t) {c : Char} (hc : c ∈ t) :
    isPlain c = true := by
  have hquote : Token.isQuote c = false := by
    refine Bool.eq_false_iff.mpr fun hq ↦ ?_
    rcases isQuote_eq_true hq with rfl | rfl | rfl
    · exact ne_of_hasNameChars h hc (by decide) rfl
    · exact ne_of_hasNameChars h hc (by decide) rfl
    · exact ne_of_hasNameChars h hc (by decide) rfl
  simp [isPlain, hquote, ne_of_hasNameChars h hc (d := '/') (by decide),
    ne_of_hasNameChars h hc (d := '\r') (by decide)]

namespace Token

/-- What follows a string is a part of what follows its opening quote. -/
theorem unquote_snd_subset (q : Char) (s : List Char) : (unquote q s).2 ⊆ s := by
  intro c hc
  fun_induction unquote q s <;> simp_all [push]

/-- A mark is a character of the text. -/
theorem mem_of_mark_mem_all {s : List Char} {c : Char} (h : .mark c ∈ all s) : c ∈ s := by
  fun_induction all s with
  | case1 => simp at h
  | case2 d rest _ ih => exact List.mem_cons_of_mem d (ih h)
  | case3 d rest _ _ _ ih =>
    simp only [List.mem_cons, reduceCtorEq, false_or] at h
    exact List.mem_cons_of_mem d (unquote_snd_subset d rest (ih h))
  | case4 d rest _ _ _ more ih =>
    simp only [List.mem_cons, reduceCtorEq, false_or] at h
    exact List.mem_cons_of_mem d (List.mem_of_mem_drop (ih h))
  | case5 d rest _ _ _ _ more ih =>
    simp only [List.mem_cons, reduceCtorEq, false_or] at h
    exact List.mem_cons_of_mem d (List.mem_of_mem_drop (ih h))
  | case6 d rest _ _ _ _ ih =>
    rcases List.mem_cons.mp h with heq | h
    · obtain rfl := Token.mark.inj heq
      exact List.mem_cons_self
    · exact List.mem_cons_of_mem d (ih h)

end Token

/-- Tokens in which no mark is other than a character of names. -/
def HasNameMarks (ts : List Token) : Prop :=
  ∀ c, .mark c ∈ ts → Lexeme.isNameChar c = true ∨ c = '\\'

theorem hasNameMarks_all {t : List Char} (h : HasNameChars t) : HasNameMarks (Token.all t) :=
  fun c hc ↦ h c (Token.mem_of_mark_mem_all hc)

theorem HasNameMarks.ne {ts : List Token} (h : HasNameMarks ts) {c d : Char}
    (hc : .mark c ∈ ts) (hd : (Lexeme.isNameChar d || d == '\\') = false) : c ≠ d := by
  rintro rfl
  rcases h c hc with hc | rfl
  · simp [hc] at hd
  · simp at hd

/-! ## Literals -/

/-- The integer part of a number below the limit of plain integers fits a signed word. -/
theorem fits_truncate {s : Bool} {m : Nat} {e : Int}
    (h : Binary64.isBelowPlainLimit (.finite s m e) = true) :
    Decimal.fits (Binary64.truncate s m e) = true := by
  simp only [Binary64.isBelowPlainLimit, Binary64.truncate, decide_eq_true_eq] at h ⊢
  cases hratio : Binary64.ratio m e with
  | mk n d =>
    rw [hratio] at h
    have hdiv : n / d < 1000000000000000 := Nat.div_lt_of_lt_mul h
    generalize n / d = q at hdiv
    rw [Decimal.fits_iff, Decimal.minInt, Decimal.maxInt]
    split <;> omega

/-- Zero is integral and below every limit. -/
theorem isBelowPlainLimit_zero (s : Bool) (e : Int) :
    Binary64.isIntegral (.finite s 0 e) && Binary64.isBelowPlainLimit (.finite s 0 e) := by
  have hpos := Binary64.ratio_snd_pos 0 e
  have hzero : (Binary64.ratio 0 e).1 = 0 := by
    unfold Binary64.ratio
    split <;> simp
  simp only [Binary64.isIntegral, Binary64.isBelowPlainLimit, hzero, Nat.zero_mod]
  simpa using hpos

/-- The literal of a finite number is read as that number. -/
theorem ofNumber_literal {x : Binary64} (hx : x.IsCanonical) (hfinite : x.isFinite = true) :
    Value.ofNumber x.literal = .number x.literal := by
  cases x with
  | nan => simp [Binary64.isFinite] at hfinite
  | infinite s => simp [Binary64.isFinite] at hfinite
  | finite s m e =>
    by_cases hplain : Binary64.isIntegral (.finite s m e)
        && Binary64.isBelowPlainLimit (.finite s m e)
    · have hliteral : Binary64.literal (.finite s m e)
          = Decimal.ofInt (Binary64.truncate s m e) := by simp [Binary64.literal, hplain]
      have hbelow := (Bool.and_eq_true_iff.mp hplain).2
      rw [hliteral, Value.ofNumber, Decimal.ofInt, String.toList_ofList,
        Decimal.int?_intDigits (fits_truncate hbelow)]
      rfl
    · have hliteral : Binary64.literal (.finite s m e)
          = String.ofList (Binary64.plain (.finite s m e)) := by
        simp [Binary64.literal, hplain, Binary64.text]
      have hm : 0 < m := Nat.pos_of_ne_zero fun hm ↦ hplain (hm ▸ isBelowPlainLimit_zero s e)
      rw [hliteral, Value.ofNumber, String.toList_ofList]
      split
      · rename_i n hn
        rw [Binary64.plain_of_pos hm] at hn ⊢
        rw [Decimal.ofInt,
          Binary64.intDigits_of_int?_positional (Binary64.digits_shortest_pos hx hm .up) hn]
      · rw [Binary64.ofText?_plain hx]
        exact congrArg Value.number hliteral

theorem isExact_of_wellFormed {s : Scalar} (h : s.WellFormed)
    (hfinite : ∀ x, s = .float x → x.isFinite = true) : Export.IsExact s := by
  cases s with
  | int n => exact h
  | float x => exact ⟨hfinite x rfl, ofNumber_literal h (hfinite x rfl)⟩
  | null | bool _ | string _ => trivial

/-! ## Entries -/

/-- What the literal of a scalar is read as: a number without a literal is written as `null`. -/
def readScalar : Scalar → Value
  | .float x => if x.isFinite then scalarValue (.float x) else .null
  | s => scalarValue s

/-- What the value of a group is read as.  A case whose name is taken to pieces reads as the word
in it if there is nothing but one, and otherwise the entry does not read. -/
def readValue? (enumName : String) : Entry → Option Value
  | .ofScalar s => some (readScalar s)
  | .ofCase name =>
    if enumName ∈ Export.literalWords then none
    else match Token.all name.toList with
    | [.word w] => some (.reference (enumName ++ "." ++ w))
    | _ => none

namespace Export

theorem readsAs_readScalar {s : Scalar} (h : s.WellFormed) :
    ReadsAs (literalTokens s) (readScalar s) := by
  by_cases hfinite : ∀ x, s = .float x → x.isFinite = true
  · have hread : readScalar s = scalarValue s := by
      cases s with
      | float x => simp [readScalar, hfinite x rfl]
      | null | bool _ | int _ | string _ => rfl
    rw [hread]
    exact readsAs_literal (isExact_of_wellFormed h hfinite)
  · obtain ⟨x, rfl, hx⟩ : ∃ x, s = .float x ∧ x.isFinite ≠ true := by
      simpa only [not_forall, exists_prop] using hfinite
    rw [literalTokens, readScalar, if_neg hx, if_neg hx]
    exact readsAs_null

/-- An entry does not end before a token other than a comma and the closing bracket. -/
theorem afterEntry?_eq_none {closing : Char} {t : Token}
    (ht : ∀ c, t = .mark c → c ≠ ',' ∧ c ≠ closing) (ts : List Token) :
    afterEntry? closing (t :: ts) = none := by
  cases t with
  | mark c => simp [ afterEntry?, ht c rfl]
  | word | string | number => rfl

/-- Behind a row comes a mark that no reference goes on with. -/
theorem exists_afterRow_eq (trailing : Bool) (closing : Char) (more : List (List Token))
    (rest : List Token) : ∃ c us, afterRow trailing closing more rest = .mark c :: us := by
  cases more with
  | nil => cases trailing <;> simp [afterRow]
  | cons _ _ => simp [afterRow]

section Reference

variable {enumName name : String} (he : Token.isWord enumName.toList = true)
  (hn : IsNameText name) {closing : Char} (hc : closing = ']' ∨ closing = '\x7d')
include he hn hc

/-- A case is read up to the end of its name if that is one word, and otherwise the entry goes on
behind what was read. -/
theorem rowReads_reference :
    RowReads closing (entryTokens enumName (.ofCase name))
      (readValue? enumName (.ofCase name)) := by
  have hdot : '.' ≠ ',' ∧ '.' ≠ closing := by rcases hc with rfl | rfl <;> decide
  have hclosing : closing ≠ ',' ∧ closing ≠ '.' := by rcases hc with rfl | rfl <;> decide
  have hmarks := hasNameMarks_all hn.chars
  intro trailing more rest
  have hstop (us : List Token) : afterEntry? closing (.mark '.' :: us) = none := by
    refine afterEntry?_eq_none ?_ us
    rintro c hc
    obtain rfl := Token.mark.inj hc
    exact hdot
  rw [entryTokens, Token.all_dotted he hn.head, String.ofList_toList, readValue?]
  generalize Token.all name.toList = ts at hmarks
  rw [rowValue?, List.cons_append, List.cons_append, value?]
  split
  · rename_i hliteral
    simp only [literalWords, List.mem_cons, List.not_mem_nil, or_false] at hliteral
    rcases hliteral with rfl | rfl | rfl <;> simp [wordValue, hstop]
  · rename_i hliteral
    rw [wordValue_of_notMem hliteral]
    -- a point is passed only together with the word behind it
    have hpoint {us : List Token} (hus : ∀ w, us.head? ≠ some (.word w)) (path : String) :
        dotted path (.mark '.' :: us) = (path, .mark '.' :: us) := by
      rw [dotted]
      rintro w vs heq
      exact hus w (by rw [(List.cons.inj heq).2]; rfl)
    cases ts with
    | nil =>
      obtain ⟨c, us, hrow⟩ := exists_afterRow_eq trailing closing more rest
      rw [List.nil_append, hrow, hpoint (by simp)]
      simp [hstop]
    | cons t us =>
      cases t with
      | word w =>
        cases us with
        | nil =>
          rw [List.singleton_append, dotted,
            dotted_of_noPoint _ (noPoint_afterRow trailing hclosing.2 more rest)]
          simp [afterEntry?_afterRow trailing hclosing.1]
        | cons u us =>
          have hmark {c d : Char} (hu : u = .mark c)
              (hd : (Lexeme.isNameChar d || d == '\\') = false) : c ≠ d :=
            hmarks.ne (by simp [hu]) hd
          have hu : ∀ c, u = .mark c → c ≠ ',' ∧ c ≠ closing := by
            intro c hu
            rcases hc with rfl | rfl <;> exact ⟨hmark hu (by decide), hmark hu (by decide)⟩
          have hnopoint : NoPoint (u :: us ++ afterRow trailing closing more rest) := by
            intro hhead
            exact hmark (Option.some.inj hhead) (d := '.') (by decide) rfl
          rw [List.cons_append, dotted, dotted_of_noPoint _ hnopoint]
          simp [afterEntry?_eq_none hu]
      | string | number | mark =>
        rw [List.cons_append, hpoint (by simp)]
        simp [hstop]

end Reference

theorem rowReads_entry {enumName : String} (he : Token.isWord enumName.toList = true) {e : Entry}
    (h : e.WellFormed) {closing : Char} (hc : closing = ']' ∨ closing = '\x7d') :
    RowReads closing (entryTokens enumName e) (readValue? enumName e) := by
  cases e with
  | ofCase name => exact rowReads_reference he h hc
  | ofScalar s =>
    have hclosing : closing ≠ ',' ∧ closing ≠ '.' := by rcases hc with rfl | rfl <;> decide
    exact (readsAs_readScalar h).rowReads hclosing.1 hclosing.2

/-- No entry starts like the end of an array. -/
theorem head?_entryTokens_ne {enumName : String} (he : Token.isWord enumName.toList = true)
    {e : Entry} (h : e.WellFormed) (rest : List Token) :
    (entryTokens enumName e ++ rest).head? ≠ some (.mark ']') := by
  cases e with
  | ofScalar s => exact (readsAs_readScalar h).head?_ne rest
  | ofCase name =>
    rw [entryTokens, Token.all_dotted he (IsNameText.head h)]
    simp

end Export

/-! ## Definitions -/

/-- Tokens without brackets. -/
def HasNoBrackets (ts : List Token) : Prop :=
  ∀ c, .mark c ∈ ts → Export.opens c = false ∧ Export.closes c = false

namespace HasNoBrackets

variable {t : Token} {ts us : List Token}

protected theorem nil : HasNoBrackets [] := by simp [HasNoBrackets]

protected theorem cons (ht : ∀ c, t = .mark c → Export.opens c = false ∧ Export.closes c = false)
    (h : HasNoBrackets ts) : HasNoBrackets (t :: ts) := by
  intro c hc
  rcases List.mem_cons.mp hc with heq | hc
  · exact ht c heq.symm
  · exact h c hc

protected theorem append (h : HasNoBrackets ts) (h' : HasNoBrackets us) :
    HasNoBrackets (ts ++ us) := by
  intro c hc
  rcases List.mem_append.mp hc with hc | hc
  · exact h c hc
  · exact h' c hc

theorem of_hasNameMarks (h : HasNameMarks ts) : HasNoBrackets ts := by
  intro c hc
  have hne {d : Char} (hd : (Lexeme.isNameChar d || d == '\\') = false) : c ≠ d := h.ne hc hd
  simp [Export.opens, Export.closes, hne (d := '\x7b') (by decide), hne (d := '[') (by decide),
    hne (d := '(') (by decide), hne (d := '\x7d') (by decide), hne (d := ']') (by decide),
    hne (d := ')') (by decide)]

theorem separatedTokens (trailing : Bool) {rows : List (List Token)}
    (h : ∀ row ∈ rows, HasNoBrackets row) :
    HasNoBrackets (Module.separatedTokens trailing rows) := by
  have hcomma (us : List Token) (hus : HasNoBrackets us) : HasNoBrackets (.mark ',' :: us) := by
    refine .cons ?_ hus
    rintro c hc
    obtain rfl := Token.mark.inj hc
    decide
  induction rows with
  | nil => exact .nil
  | cons row rows ih =>
    obtain ⟨hrow, hrows⟩ := List.forall_mem_cons.mp h
    cases rows with
    | nil =>
      refine hrow.append ?_
      split
      · exact hcomma [] .nil
      · exact .nil
    | cons row' rows => exact hrow.append (hcomma _ (ih hrows))

/-- Brackets are closed in the order in which they are opened, and inside of them a statement does
not end. -/
theorem afterStatement_append (h : HasNoBrackets ts) (depth : Nat) (rest : List Token) :
    Export.afterStatement (depth + 1) (ts ++ rest) = Export.afterStatement (depth + 1) rest := by
  induction ts with
  | nil => rfl
  | cons t ts ih =>
    have ih := ih fun c hc ↦ h c (List.mem_cons_of_mem t hc)
    rw [List.cons_append]
    cases t with
    | mark c =>
      obtain ⟨hopens, hcloses⟩ := h c List.mem_cons_self
      simp [Export.afterStatement, hopens, hcloses, ih]
    | word w => simp [Export.afterStatement, ih]
    | string | number => simp [Export.afterStatement, ih]

end HasNoBrackets

theorem hasNoBrackets_literalTokens (s : Scalar) : HasNoBrackets (literalTokens s) := by
  have hword (w : String) : HasNoBrackets [.word w] := .cons (by simp) .nil
  have hnumeral (t : List Char) : HasNoBrackets (numeralTokens t) := by
    unfold numeralTokens
    split
    · refine .cons ?_ (.cons (by simp) .nil)
      rintro c hc
      obtain rfl := Token.mark.inj hc
      decide
    · exact .cons (by simp) .nil
  cases s with
  | null => exact hword _
  | bool b => cases b <;> exact hword _
  | int n => exact hnumeral _
  | float x =>
    rw [literalTokens]
    split
    · exact hnumeral _
    · exact hword _
  | string text => exact .cons (by simp) .nil

theorem hasNoBrackets_groupRowTokens {enumName : String}
    (he : Token.isWord enumName.toList = true) (shape : Shape) {e : String × Entry}
    (h : e.2.WellFormed) : HasNoBrackets (groupRowTokens enumName shape e) := by
  have hmark {d : Char} (hd : Export.opens d = false ∧ Export.closes d = false) :
      ∀ c, Token.mark d = .mark c → Export.opens c = false ∧ Export.closes c = false := by
    rintro c hc
    rwa [← Token.mark.inj hc]
  have hentry : HasNoBrackets (entryTokens enumName e.2) := by
    obtain ⟨k, v⟩ := e
    cases v with
    | ofScalar s => exact hasNoBrackets_literalTokens s
    | ofCase name =>
      rw [entryTokens, Token.all_dotted he (IsNameText.head h)]
      exact .cons (by simp) (.cons (hmark (by decide))
        (.of_hasNameMarks (hasNameMarks_all (IsNameText.chars h))))
  cases shape with
  | array => exact hentry
  | record =>
    refine .cons ?_ (.cons (hmark (by decide)) hentry)
    unfold keyToken
    split <;> simp

/-- The tokens of a constant behind its name. -/
def definitionTokens (style : Style) (shape : Shape) (rows : List (List Token)) : List Token :=
  .mark '=' :: .mark (openingMark shape) :: (separatedTokens style.trailingComma rows ++
    .mark (closingMark shape) :: (assertionTokens style ++ [.mark ';']))

namespace Export

/-- What follows the name of a constant: it reads as the given entries, or not at all, and without
the name it is passed over as a whole. -/
structure Defines (ts : List Token) (shape : Shape) (entries : Option (List (String × Value))) :
    Prop where
  head : ts.head? = some (.mark '=')
  constant : ∀ w rest, constant? (.word w :: (ts ++ rest))
    = entries.map fun es ↦ (⟨w, shape, es⟩, rest)
  skipped : ∀ rest, afterStatement 0 (ts ++ rest) = rest

theorem afterStatement_definitionTokens (style : Style) (shape : Shape)
    {rows : List (List Token)} (h : ∀ row ∈ rows, HasNoBrackets row) (rest : List Token) :
    afterStatement 0 (definitionTokens style shape rows ++ rest) = rest := by
  have hrows := (HasNoBrackets.separatedTokens style.trailingComma h).afterStatement_append 0
  have hassertion (us : List Token) :
      afterStatement 0 (assertionTokens style ++ .mark ';' :: us) = us := by
    unfold assertionTokens
    split <;> simp [afterStatement, opens, closes]
  cases shape <;>
    simp [definitionTokens, afterStatement, opens, closes, openingMark, closingMark, hrows,
      hassertion]

/-- What the entries of a group are read as, if all of them read. -/
def readEntries? (enumName : String) (entries : List (String × Entry)) :
    Option (List (String × Value)) :=
  entries.mapM fun e ↦ (readValue? enumName e.2).map fun v ↦ (e.1, v)

/-- Positions are the keys of entries that are numbered on. -/
theorem mapM_zipIdx_eq (enumName : String) {entries : List (String × Entry)} {n : Nat}
    (h : entries.map Prod.fst = (List.range' n entries.length).map Decimal.ofNat) :
    ((entries.zipIdx n).mapM fun p ↦ (readValue? enumName p.1.2).map fun v ↦ (Decimal.ofNat p.2, v))
      = readEntries? enumName entries := by
  induction entries generalizing n with
  | nil => rfl
  | cons e entries ih =>
    rw [List.map_cons, List.length_cons, List.range'_succ, List.map_cons] at h
    obtain ⟨hkey, hkeys⟩ := List.cons.inj h
    rw [List.zipIdx_cons, List.mapM_cons, ih hkeys, readEntries?, readEntries?, List.mapM_cons,
      hkey]

/-- The definition of a group reads if its entries do. -/
theorem defines_group (style : Style) {enumName : String}
    (he : Token.isWord enumName.toList = true) {g : Group} (h : g.WellFormed) :
    Defines (definitionTokens style g.shape (g.entries.map (groupRowTokens enumName g.shape)))
      g.shape (readEntries? enumName g.entries) := by
  refine ⟨rfl, fun w rest ↦ ?_, afterStatement_definitionTokens style g.shape ?_⟩
  · have hpositions := h.positions
    have hentries := h.entries
    obtain ⟨name, shape, entries⟩ := g
    cases shape with
    | record =>
      have hmembers := members?_rows style.trailingComma
        (assertionTokens style ++ .mark ';' :: rest) (fun e ↦ keyToken e.1)
        (fun e ↦ entryTokens enumName e.2) Prod.fst (fun e ↦ readValue? enumName e.2) entries
        fun e hmem ↦ ⟨keyText?_keyToken _, rowReads_entry he (hentries e hmem) (.inr rfl)⟩
      have hrows : groupRowTokens enumName .record
          = fun e ↦ keyToken e.1 :: .mark ':' :: entryTokens enumName e.2 := rfl
      simp only [definitionTokens, openingMark, closingMark, List.cons_append, List.append_assoc,
        List.nil_append, constant?, hrows, hmembers, Option.map_map]
      simp only [Function.comp_def, afterConstant_assertionTokens]
      rfl
    | array =>
      have hitems := items?_rows style.trailingComma
        (assertionTokens style ++ .mark ';' :: rest) (fun e ↦ entryTokens enumName e.2)
        (fun e ↦ readValue? enumName e.2) entries 0
        fun e hmem ↦ ⟨rowReads_entry he (hentries e hmem) (.inl rfl),
          head?_entryTokens_ne he (hentries e hmem)⟩
      have hkeys := hpositions rfl
      rw [List.range_eq_range'] at hkeys
      rw [mapM_zipIdx_eq enumName hkeys] at hitems
      have hrows : groupRowTokens enumName .array = fun e ↦ entryTokens enumName e.2 := rfl
      simp only [definitionTokens, openingMark, closingMark, List.cons_append, List.append_assoc,
        List.nil_append, constant?, hrows, hitems, Option.map_map]
      simp only [Function.comp_def, afterConstant_assertionTokens]
  · intro row hrow
    obtain ⟨e, hmem, rfl⟩ := List.mem_map.mp hrow
    exact hasNoBrackets_groupRowTokens he g.shape (h.entries e hmem)

end Export

/-! ## Statements -/

/-- The word under which a constant is exported when these tokens stand before its definition. -/
def lastConstant? (ts : List Token) : Option String :=
  match ts.reverse with
  | .word w :: .word "const" :: .word "export" :: _ => some w
  | _ => none

theorem lastConstant?_eq_some_iff {ts : List Token} {w : String} :
    lastConstant? ts = some w ↔ [.word "export", .word "const", .word w] <:+ ts := by
  rw [← List.reverse_prefix]
  unfold lastConstant?
  constructor
  · intro h
    split at h
    · rename_i us hreverse
      obtain rfl := Option.some.inj h
      rw [hreverse]
      exact ⟨us, rfl⟩
    · simp at h
  · rintro ⟨us, hus⟩
    rw [← hus]
    rfl

/-- Only the part from its last `export` on decides about the name of a constant. -/
theorem lastConstant?_append {ts us : List Token} (hts : .word "export" ∉ ts.drop 1)
    (hne : us = [] → ts ≠ [.word "export", .word "const"]) :
    lastConstant? (ts ++ .word "export" :: us) = lastConstant? (.word "export" :: us) := by
  refine Option.ext fun w ↦ ?_
  rw [lastConstant?_eq_some_iff, lastConstant?_eq_some_iff]
  constructor
  · intro h
    rcases List.suffix_or_suffix_of_suffix h (List.suffix_append ts _) with hsuffix | ⟨q, hq⟩
    · exact hsuffix
    · -- the last `export` is the name itself only right behind `export const`
      match q, hq with
      | [], hq => exact ⟨[], hq.symm⟩
      | [_], hq => simp at hq
      | [_, _], hq =>
        obtain ⟨rfl, rfl⟩ : w = "export" ∧ us = [] := by simp_all
        obtain ⟨p, hp⟩ := h
        have hp : (p ++ [.word "export", .word "const"]) ++ [.word "export"]
            = ts ++ [.word "export"] := by simpa using hp
        have hp := List.append_cancel_right hp
        cases p with
        | nil => exact absurd hp.symm (hne rfl)
        | cons _ p =>
          rw [← hp] at hts
          simp at hts
      | _ :: _ :: _ :: _, hq => simp at hq
  · intro h
    exact h.trans (List.suffix_append _ _)

/-- Without a further `export` there is no name but the one behind `export const`. -/
theorem lastConstant?_eq_none {ts : List Token} (h : .word "export" ∉ ts)
    (hne : ∀ w, ts ≠ [.word "const", .word w]) : lastConstant? (.word "export" :: ts) = none := by
  refine Option.eq_none_iff_forall_ne_some.mpr fun w hw ↦ ?_
  obtain ⟨q, hq⟩ := lastConstant?_eq_some_iff.mp hw
  cases q with
  | nil => exact hne w (List.cons.inj hq).2.symm
  | cons _ q =>
    rw [← (List.cons.inj hq).2] at h
    simp at h

theorem dropWhile_ne_export (ts : List Token) : ts.dropWhile (· ≠ .word "export") = [] ∨
    ∃ us, ts.dropWhile (· ≠ .word "export") = .word "export" :: us := by
  cases hdrop : ts.dropWhile (· ≠ .word "export") with
  | nil => exact .inl rfl
  | cons t us =>
    have ht := List.head?_dropWhile_not (· ≠ .word "export") ts
    rw [hdrop] at ht
    exact .inr ⟨us, by simpa using ht⟩

/-- A statement that names no constant itself is named by what stands from the next `export` on. -/
theorem lastConstant?_eq_dropWhile {ts us : List Token}
    (hus : ts = us ∨ ts = .word "const" :: us) (hne : ∀ w, ts ≠ [.word "const", .word w]) :
    lastConstant? (.word "export" :: ts) = match us.dropWhile (· ≠ .word "export") with
      | [] => none
      | vs => lastConstant? vs := by
  have hsplit := @List.takeWhile_append_dropWhile _ (· ≠ .word "export") us
  have htake : .word "export" ∉ us.takeWhile (· ≠ .word "export") := fun hmem ↦ by
    simpa using List.all_eq_true.mp List.all_takeWhile _ hmem
  rcases dropWhile_ne_export us with hdrop | ⟨vs, hdrop⟩
  · rw [hdrop, List.append_nil] at hsplit
    rw [hsplit] at htake
    rw [hdrop]
    refine lastConstant?_eq_none ?_ hne
    rcases hus with rfl | rfl
    · exact htake
    · simpa using htake
  · rw [hdrop] at hsplit ⊢
    generalize us.takeWhile (· ≠ .word "export") = before at hsplit htake
    subst hsplit
    rcases hus with rfl | rfl
    · refine @lastConstant?_append (.word "export" :: before) vs htake ?_
      rintro rfl heq
      obtain rfl := (List.cons.inj heq).2
      exact hne "export" rfl
    · refine @lastConstant?_append (.word "export" :: .word "const" :: before) vs ?_ ?_
      · simpa using htake
      · rintro rfl heq
        have hbefore : before = [] := by simpa using heq
        exact hne "export" (by rw [hbefore]; rfl)

namespace Export

theorem all_const (ts : List Token) : all (.word "export" :: .word "const" :: ts)
    = match constant? ts with
      | some r => r.1 :: all r.2
      | none => all (afterStatement 0 ts) := by
  rw [all]
  split <;> rename_i h <;> simp [h]

section Statements

variable {ds : List Token} {shape : Shape} {entries : Option (List (String × Value))}
  (hd : Defines ds shape entries)
include hd

/-- A statement that is passed over ends behind its definition, or at the next `export` in front
of it. -/
theorem afterStatement_append_definition {ts : List Token} (h : HasNameMarks ts)
    (rest : List Token) : afterStatement 0 (ts ++ (ds ++ rest))
      = match ts.dropWhile (· ≠ .word "export") with
        | [] => rest
        | us => us ++ (ds ++ rest) := by
  induction ts with
  | nil => exact hd.skipped rest
  | cons t ts ih =>
    have ih := ih fun c hc ↦ h c (List.mem_cons_of_mem t hc)
    rw [List.cons_append]
    by_cases ht : t = .word "export"
    · subst ht
      simp [afterStatement]
    · rw [List.dropWhile_cons_of_pos (by simpa using ht), ← ih]
      cases t with
      | mark c =>
        have hne {d : Char} (hd : (Lexeme.isNameChar d || d == '\\') = false) : c ≠ d :=
          h.ne List.mem_cons_self hd
        have hbrackets := HasNoBrackets.of_hasNameMarks h c List.mem_cons_self
        simp [afterStatement, hbrackets, hne (d := ';') (by decide)]
      | word w =>
        have hw : w ≠ "export" := fun hw ↦ ht (by rw [hw])
        simp [afterStatement, hw]
      | string | number => rfl

theorem all_export_definition (rest : List Token) :
    all (.word "export" :: (ds ++ rest)) = all rest := by
  rw [all_export, hd.skipped]
  rw [List.head?_append, hd.head]
  simp

/-- A constant has one word for its name. -/
theorem constant?_append_definition {ts : List Token} (h : HasNameMarks ts)
    (hne : ∀ w, ts ≠ [.word w]) (rest : List Token) : constant? (ts ++ (ds ++ rest)) = none := by
  obtain ⟨ds', rfl⟩ := List.head?_eq_some_iff.mp hd.head
  match ts with
  | [] => rfl
  | [t] =>
    cases t with
    | word w => exact absurd rfl (hne w)
    | string | number | mark => rfl
  | t :: u :: ts =>
    have hu : u ≠ .mark '=' := by
      rintro rfl
      exact h.ne (d := '=') (List.mem_cons_of_mem t List.mem_cons_self) (by decide) rfl
    unfold constant?
    split
    · simp_all
    · simp_all
    · rfl

/-- A constant named right before the definition is found if its entries are legible. -/
theorem all_const_definition (w : String) (rest : List Token) :
    all (.word "export" :: .word "const" :: .word w :: (ds ++ rest))
      = (entries.map fun es ↦ (⟨w, shape, es⟩ : Export)).toList ++ all rest := by
  rw [all_const, hd.constant]
  cases entries with
  | some es => rfl
  | none =>
    have hmarks : HasNameMarks [.word w] := by simp [HasNameMarks]
    have hword := afterStatement_append_definition hd hmarks rest
    rw [List.singleton_append] at hword
    by_cases hw : w = "export"
    · subst hw
      simp [hword, all_export_definition hd]
    · simp [hword, hw]

/-- Whatever stands between `export` and a definition, the reader finds at most the constant that
is named right before the definition. -/
theorem all_append_definition {ts : List Token} (h : HasNameMarks ts) (rest : List Token) :
    all (.word "export" :: (ts ++ (ds ++ rest)))
      = ((lastConstant? (.word "export" :: ts)).bind fun w ↦
          entries.map fun es ↦ (⟨w, shape, es⟩ : Export)).toList ++ all rest := by
  induction hk : ts.length using Nat.strongRecOn generalizing ts with
  | ind k ih =>
    subst hk
    by_cases hconstant : ∃ w, ts = [.word "const", .word w]
    · obtain ⟨w, rfl⟩ := hconstant
      have hlast : lastConstant? [.word "export", .word "const", .word w] = some w := rfl
      rw [hlast]
      exact all_const_definition hd w rest
    · have hne : ∀ w, ts ≠ [.word "const", .word w] := fun w hw ↦ hconstant ⟨w, hw⟩
      -- the statement is passed over, up to the next `export` if there is one
      have hpass {us : List Token} (hus : ts = us ∨ ts = .word "const" :: us) :
          all (afterStatement 0 (us ++ (ds ++ rest)))
            = ((lastConstant? (.word "export" :: ts)).bind fun w ↦
              entries.map fun es ↦ (⟨w, shape, es⟩ : Export)).toList ++ all rest := by
        have hsub : us ⊆ ts := by
          rcases hus with rfl | rfl
          · exact List.Subset.refl _
          · exact List.subset_cons_self _ _
        have hmarks : HasNameMarks us := fun c hc ↦ h c (hsub hc)
        rw [afterStatement_append_definition hd hmarks, lastConstant?_eq_dropWhile hus hne]
        rcases dropWhile_ne_export us with hdrop | ⟨vs, hdrop⟩
        · rw [hdrop]
          rfl
        · have hvs : .word "export" :: vs <:+ us := hdrop ▸ List.dropWhile_suffix _
          have hlength : vs.length < ts.length := by
            have hle := hvs.length_le
            rcases hus with rfl | rfl
            · exact hle
            · simp only [List.length_cons] at hle ⊢
              omega
          rw [hdrop]
          refine ih vs.length hlength (fun c hc ↦ hmarks c (hvs.subset ?_)) rfl
          exact List.mem_cons_of_mem _ hc
      cases ts with
      | nil => exact all_export_definition hd rest
      | cons t us =>
        by_cases ht : t = .word "const"
        · subst ht
          rw [List.cons_append, all_const, constant?_append_definition hd]
          · exact hpass (.inr rfl)
          · exact fun c hc ↦ h c (List.mem_cons_of_mem _ hc)
          · rintro w rfl
            exact hne w rfl
        · rw [all_export]
          · exact hpass (.inl rfl)
          · simpa using ht

end Statements

end Export

/-! ## Exports -/

/-- The word under which a group of this name is exported. -/
def constantName? (name : String) : Option String :=
  lastConstant? (.word "export" :: .word "const" :: Token.all name.toList)

/-- The export that the reader finds for a group. -/
def groupExport? (enumName : String) (g : Group) : Option Export :=
  (constantName? g.name).bind fun w ↦
    (Export.readEntries? enumName g.entries).map fun es ↦ ⟨w, g.shape, es⟩

namespace Export

theorem all_groupTokens_append (style : Style) {enumName : String}
    (he : Token.isWord enumName.toList = true) {g : Group} (h : g.WellFormed) (rest : List Token) :
    all (groupTokens style enumName g ++ rest)
      = (groupExport? enumName g).toList ++ all rest := by
  have hmarks : HasNameMarks (.word "const" :: Token.all g.name.toList) := fun c hc ↦
    hasNameMarks_all h.name c (by simpa using hc)
  have hall := all_append_definition (defines_group style he h) hmarks rest
  rw [groupExport?, constantName?, ← hall]
  simp [groupTokens, constantTokens, definitionTokens]

/-- The reader finds the enum, whatever its cases are, and as much of each group as it can. -/
theorem all_recordTokens_of_wellFormed (style : Style) {r : EnumRecord} (h : r.WellFormed)
    (hname : Token.isWord r.name.toList = true) :
    all (recordTokens style r)
      = ⟨r.name, .record, caseEntries r⟩ :: r.groups.filterMap (groupExport? r.name) := by
  have hall : ∀ gs : List Group, (∀ g ∈ gs, g.WellFormed) →
      all (gs.flatMap (groupTokens style r.name)) = gs.filterMap (groupExport? r.name) := by
    intro gs hgs
    induction gs with
    | nil => simp [all]
    | cons g gs ih =>
      obtain ⟨hg, hgs⟩ := List.forall_mem_cons.mp hgs
      rw [List.flatMap_cons, all_groupTokens_append style hname hg, ih hgs, List.filterMap_cons]
      cases groupExport? r.name g <;> rfl
  have hcase := all_constantTokens_record style hname Case.name (fun c ↦ literalTokens c.value)
    (fun c ↦ scalarValue c.value) r.cases
    fun c hc ↦ readsAs_literal (isExact_of_isSimple (h.cases c hc))
  rw [recordTokens, ← hall r.groups h.groups]
  exact (hcase _).trans (by rw [all_typeTokens style hname]; rfl)

/-- Exports are named by words. -/
theorem isWord_of_mem_ofSource {source : String} {e : Export} (h : e ∈ ofSource source) :
    Token.isWord e.name.toList = true :=
  Token.isWord_toList_of_mem_all (word_mem_of_mem_all h)

end Export

end FrontendSync.Module
