import FrontendSync.Module.EnumModule
import FrontendSync.Proofs.Module.Reading
import FrontendSync.Proofs.Module.Scan
import FrontendSync.Proofs.Number.Numeral

/-!
# Tokens of enum modules

What the text of an enum module is scanned to, row by row: documentation leaves nothing, a row
leaves the tokens of its key and its value, and a constant leaves its rows between its brackets.
-/

namespace FrontendSync.Module

open EnumRecord

/-- Lines as they stand in a text, each with a line feed. -/
def written (ls : List String) : List Char := ls.flatMap fun l ↦ l.toList ++ ['\n']

theorem written_append (ks ls : List String) : written (ks ++ ls) = written ks ++ written ls :=
  List.flatMap_append

theorem written_cons (l : String) (ls : List String) :
    written (l :: ls) = l.toList ++ '\n' :: written ls := by simp [written]

theorem unlines_toList {ls : List String} (h : ls ≠ []) :
    (Text.unlines ls).toList ++ ['\n'] = written ls := by
  induction ls with
  | nil => exact absurd rfl h
  | cons l ls ih =>
    cases ls with
    | nil => simp [Text.unlines, written]
    | cons m ls =>
      have ih := ih (by simp)
      simp only [Text.unlines] at ih ⊢
      rw [String.intercalate_cons_cons, written_cons, ← ih]
      simp

/-! ## Documentation

A comment is passed over as a whole because no line of it ends the comment early. -/

/-- A text that does not end a comment. -/
def KeepsOpen (t : List Char) : Prop := ¬ ['*', '/'] <:+: t

namespace KeepsOpen

theorem of_asterisk_notMem {t : List Char} (h : '*' ∉ t) : KeepsOpen t := fun hi ↦
  h (hi.subset (by simp))

theorem of_slash_notMem {t : List Char} (h : '/' ∉ t) : KeepsOpen t := fun hi ↦
  h (hi.subset (by simp))

theorem tail {c : Char} {t : List Char} (h : KeepsOpen (c :: t)) : KeepsOpen t := fun hi ↦
  h (hi.trans (List.suffix_cons _ _).isInfix)

theorem cons {c : Char} {t : List Char} (ht : KeepsOpen t) (h : c ≠ '*' ∨ t.head? ≠ some '/') :
    KeepsOpen (c :: t) := by
  intro hi
  obtain hp | hi := List.infix_cons_iff.mp hi
  · obtain ⟨hc, u, hu⟩ := List.cons_prefix_cons.mp hp
    obtain h | h := h
    · exact h hc.symm
    · exact h (by rw [← hu]; rfl)
  · exact ht hi

/-- Two texts together may only end a comment where they meet. -/
theorem append {t u : List Char} (ht : KeepsOpen t) (hu : KeepsOpen u)
    (h : t.getLast? ≠ some '*' ∨ u.head? ≠ some '/') : KeepsOpen (t ++ u) := by
  induction t with
  | nil => exact hu
  | cons c t ih =>
    cases t with
    | nil =>
      refine hu.cons (h.imp_left fun h hc ↦ ?_)
      exact h (by rw [hc]; rfl)
    | cons d t =>
      refine (ih ht.tail (h.imp_left fun h ↦ ?_)).cons ?_
      · rwa [List.getLast?_cons_cons] at h
      · by_cases hc : c = '*'
        · refine .inr fun hd ↦ ?_
          obtain rfl : d = '/' := Option.some.inj hd
          exact ht ⟨[], t, by rw [hc]; rfl⟩
        · exact .inl hc

end KeepsOpen

/-- Replacement writes no slash in front that was not there. -/
theorem head?_of_head?_replace {s : List Char}
    (h : (Text.replace ['*', '/'] ['*', '\\', '/'] s).head? = some '/') :
    s.head? = some '/' := by
  cases s with
  | nil => simp [Text.replace] at h
  | cons c s =>
    rw [Text.replace] at h
    split at h
    · simp at h
    · simpa using h

/-- A line of a comment ends no comment. -/
theorem keepsOpen_replace (s : List Char) :
    KeepsOpen (Text.replace ['*', '/'] ['*', '\\', '/'] s) := by
  induction hk : s.length using Nat.strongRecOn generalizing s with
  | ind k ih =>
    cases s with
    | nil => simp [Text.replace, KeepsOpen]
    | cons c s =>
      rw [Text.replace]
      split
      · rename_i rest hrest
        have hlen := congrArg List.length (Text.eq_append_of_stripStart? hrest)
        simp only [List.length_append, List.length_cons] at hlen hk
        refine KeepsOpen.append ?_ (ih rest.length (by simp at hlen; omega) rest rfl) ?_
        · intro hi
          simp [List.infix_cons_iff] at hi
        · exact .inl (by simp)
      · rename_i hnone
        refine (ih s.length (by simp at hk; omega) s rfl).cons ?_
        by_cases hc : c = '*'
        · refine .inr fun hh ↦ ?_
          obtain ⟨u, rfl⟩ := List.head?_eq_some_iff.mp (head?_of_head?_replace hh)
          simp [hc, Text.stripStart?] at hnone
        · exact .inl hc

theorem keepsOpen_commentLine (line : List Char) : KeepsOpen (commentLine line).toList := by
  rw [commentLine, String.toList_ofList]
  exact keepsOpen_replace line

/-- What stands before each line of a comment: spaces only. -/
def IsMargin (before : String) : Prop := ∀ c ∈ before.toList, c = ' '

theorem isMargin_empty : IsMargin "" := by simp [IsMargin]

theorem isMargin_indent : IsMargin indent := by simp [IsMargin, indent]

theorem scans_spaces {t : List Char} (h : ∀ c ∈ t, c = ' ') : Scans t [] := by
  induction t with
  | nil => exact .nil
  | cons c t ih =>
    obtain ⟨rfl, ht⟩ := List.forall_mem_cons.mp h
    exact (Scans.blank (c := ' ') (by decide) (by decide)).append (ih ht)

theorem scans_lineFeed : Scans ['\n'] [] := .blank (by decide) (by decide)

namespace IsMargin

variable {before : String} (h : IsMargin before)
include h

protected theorem scans : Scans before.toList [] := scans_spaces h

theorem keepsOpen : KeepsOpen before.toList := .of_asterisk_notMem fun hmem ↦
  absurd (h _ hmem) (by decide)

/-- Each line of a comment keeps it open up to the next line. -/
theorem keepsOpen_blockLine (line : List Char) :
    KeepsOpen ((blockLine before (commentLine line)).toList ++ ['\n']) := by
  have hbefore := h.keepsOpen
  unfold blockLine
  split
  · rw [String.toList_append, List.append_assoc]
    exact hbefore.append (by unfold KeepsOpen; decide) (.inr (by decide))
  · rw [String.toList_append, String.toList_append, List.append_assoc]
    refine (hbefore.append (by unfold KeepsOpen; decide) (.inr (by decide))).append ?_ (.inl ?_)
    · exact (keepsOpen_commentLine line).append (.of_asterisk_notMem (by decide))
        (.inr (by decide))
    · simp

theorem keepsOpen_blockLines (ls : List (List Char)) :
    KeepsOpen (written ((ls.map commentLine).map (blockLine before))) := by
  induction ls with
  | nil => exact .of_asterisk_notMem (by simp [written])
  | cons l ls ih =>
    have hl := (h.keepsOpen_blockLine l).append ih (.inl (by simp))
    simpa [written] using hl

/-- A documentation comment leaves no token. -/
theorem scans_docComment (doc : String) : Scans (written (docComment before doc)) [] := by
  unfold docComment
  split
  · rename_i line hline
    obtain ⟨l, -, rfl⟩ : ∃ l ∈ Text.lines doc.toList, commentLine l = line := by
      have hmem : line ∈ (Text.lines doc.toList).map commentLine := by rw [hline]; simp
      exact List.mem_map.mp hmem
    have hbody : KeepsOpen ('*' :: ' ' :: ((commentLine l).toList ++ [' '])) := by
      refine KeepsOpen.cons (KeepsOpen.cons ?_ (.inl (by decide))) (.inr (by simp))
      exact (keepsOpen_commentLine l).append (.of_asterisk_notMem (by decide)) (.inr (by decide))
    have hscan := (h.scans.append (Scans.comment hbody)).append scans_lineFeed
    simpa [written] using hscan
  · have hbody : KeepsOpen ('*' :: '\n' :: (written (((Text.lines doc.toList).map
        commentLine).map (blockLine before)) ++ (before.toList ++ [' ']))) := by
      refine KeepsOpen.cons (KeepsOpen.cons ?_ (.inl (by decide))) (.inr (by simp))
      refine (h.keepsOpen_blockLines _).append ?_ ?_
      · exact h.keepsOpen.append (.of_asterisk_notMem (by decide)) (.inr (by decide))
      · refine .inr fun hs ↦ ?_
        have hmem := List.mem_of_mem_head? hs
        obtain hb | hb := List.mem_append.mp hmem
        · exact absurd (h _ hb) (by decide)
        · exact absurd hb (by decide)
    have hscan := (h.scans.append (Scans.comment hbody)).append scans_lineFeed
    simpa [written] using hscan

theorem scans_docLines (doc : Option String) : Scans (written (docLines before doc)) [] := by
  cases doc with
  | none => exact .nil
  | some doc => exact h.scans_docComment doc

end IsMargin

/-! ## Rows -/

/-- A piece of text that becomes the same tokens before every separator. -/
def ScansBefore (t : List Char) (ts : List Token) : Prop :=
  ∀ (c : Char) (u : List Char) (us : List Token), isSeparator c = true → Scans (c :: u) us →
    Scans (t ++ c :: u) (ts ++ us)

theorem Scans.scansBefore {t : List Char} {ts : List Token} (h : Scans t ts) : ScansBefore t ts :=
  fun _ _ _ _ hu ↦ h.append hu

/-- The tokens of a number: its sign is one of its own. -/
def numeralTokens : List Char → List Token
  | '-' :: ds => [.mark '-', .number (String.ofList ds)]
  | ds => [.number (String.ofList ds)]

theorem numeralTokens_of_isMagnitude {t : List Char} (h : IsMagnitude t) :
    numeralTokens t = [.number (String.ofList t)] := by
  obtain ⟨d, u, rfl, hd, -⟩ := h.exists_cons
  rw [numeralTokens]
  rintro ds heq
  obtain rfl := (List.cons.inj heq).1
  exact absurd hd (by decide)

theorem scansBefore_numeral {t : List Char} (h : IsNumeral t) :
    ScansBefore t (numeralTokens t) := by
  have hmagnitude {v : List Char} (hv : IsMagnitude v) :
      ScansBefore v [.number (String.ofList v)] := by
    obtain ⟨d, w, rfl, hd, hw⟩ := hv.exists_cons
    exact fun _ _ _ hc hu ↦ Scans.number hd hw hc hu
  cases h with
  | unsigned ht =>
    rw [numeralTokens_of_isMagnitude ht]
    exact hmagnitude ht
  | negative ht =>
    have hminus : Scans ['-'] [.mark '-'] := .mark (by decide +kernel) (by decide) (by decide)
    exact fun c u us hc hu ↦ hminus.append (hmagnitude ht c u us hc hu)

/-- The tokens of a literal. -/
def literalTokens : Scalar → List Token
  | .null => [.word "null"]
  | .bool true => [.word "true"]
  | .bool false => [.word "false"]
  | .int n => numeralTokens (Decimal.intDigits n)
  | .float x => if x.isFinite then numeralTokens x.literal.toList else [.word "null"]
  | .string text => [.string text]

theorem scansBefore_word {w : String} (h : Token.isWord w.toList = true) :
    ScansBefore w.toList [.word w] := by
  intro c u us hc hu
  have hscan := Scans.word h hc hu
  rwa [String.ofList_toList] at hscan

theorem scansBefore_quote (s : String) : ScansBefore (quote s).toList [.string s] := by
  have hscan := Scans.quoteChars s.toList
  rw [String.ofList_toList] at hscan
  rw [quote, String.toList_ofList]
  exact hscan.scansBefore

theorem literal_of_not_isFinite {x : Binary64} (h : x.isFinite = false) : x.literal = "null" := by
  cases x <;> simp_all [Binary64.isFinite, Binary64.literal]

theorem scansBefore_literal (s : Scalar) : ScansBefore s.literal.toList (literalTokens s) := by
  cases s with
  | null => exact scansBefore_word (by decide +kernel)
  | bool b => cases b <;> exact scansBefore_word (by decide +kernel)
  | int n =>
    simp only [Scalar.literal, Decimal.ofInt, String.toList_ofList, literalTokens]
    exact scansBefore_numeral (Decimal.isNumeral_intDigits n)
  | float x =>
    simp only [Scalar.literal, literalTokens]
    split
    · rename_i hx
      exact scansBefore_numeral (Binary64.isNumeral_literal hx)
    · rename_i hx
      rw [literal_of_not_isFinite (Bool.eq_false_iff.mpr hx)]
      exact scansBefore_word (by decide +kernel)
  | string s => exact scansBefore_quote s

/-- The token of a key. -/
def keyToken (k : String) : Token := if isIdentifier k then .word k else .string k

/-- An identifier is a word. -/
theorem isWord_of_isIdentifier {k : String} (h : isIdentifier k = true) :
    Token.isWord k.toList = true := by
  unfold isIdentifier at h
  split at h
  · simp at h
  · rename_i c cs hk
    simp only [Bool.and_eq_true, isIdentifierStart, Bool.or_eq_true, List.all_eq_true,
      isIdentifierChar] at h
    rw [hk]
    simp only [Token.isWord, Token.isWordStart, Token.isWordChar, Bool.and_eq_true,
      Bool.or_eq_true, List.all_eq_true]
    exact ⟨h.1.imp_left (.imp_left Text.isLetter_of_isAlpha),
      fun d hd ↦ (h.2 d hd).imp_left (.imp_left Text.isLetterOrNumeral_of_isAlphanum)⟩

theorem scansBefore_key (k : String) : ScansBefore (key k).toList [keyToken k] := by
  unfold key keyToken
  split
  · rename_i h
    exact scansBefore_word (isWord_of_isIdentifier h)
  · exact scansBefore_quote k

theorem scansBefore_append {t u : List Char} {ts us : List Token} (ht : Scans t ts)
    (hu : ScansBefore u us) : ScansBefore (t ++ u) (ts ++ us) := by
  intro c v vs hc hv
  rw [List.append_assoc, List.append_assoc]
  exact ht.append (hu c v vs hc hv)

/-- A separator other than a blank ends a row and is a token. -/
theorem ScansBefore.append_mark {t : List Char} {ts : List Token} (h : ScansBefore t ts) {c : Char}
    (hc : isSeparator c = true) (hb : Text.isBlank c = false) (hq : Token.isQuote c = false) :
    Scans (t ++ [c]) (ts ++ [.mark c]) := h c [] _ hc (.mark hc hb hq)

theorem ScansBefore.append_blank {t : List Char} {ts : List Token} (h : ScansBefore t ts)
    {c : Char} (hc : isSeparator c = true) (hb : Text.isBlank c = true) (hr : c ≠ '\r') :
    Scans (t ++ [c]) ts := by
  have hscan := h c [] [] hc (.blank hb hr)
  rwa [List.append_nil] at hscan

theorem ScansBefore.append_lineFeed {t : List Char} {ts : List Token} (h : ScansBefore t ts) :
    Scans (t ++ ['\n']) ts := h.append_blank (by decide +kernel) (by decide) (by decide)

section Rows

variable {α : Type} (style : Style) (row : α → List String × String) (tokens : α → List Token)

/-- The lines of rows between the brackets of a constant. -/
def rowLines (rows : List (List String × String)) : List String :=
  (rows.zip (style.separated (rows.map Prod.snd))).flatMap fun (row, text) ↦ row.1 ++ [text]

theorem rowLines_singleton (r : List String × String) :
    rowLines style [r] = r.1 ++ [if style.trailingComma then r.2 ++ "," else r.2] := by
  simp [rowLines, Style.separated]

theorem rowLines_cons_cons (r r' : List String × String) (rows : List (List String × String)) :
    rowLines style (r :: r' :: rows) = r.1 ++ (r.2 ++ ",") :: rowLines style (r' :: rows) := by
  simp [rowLines, Style.separated]

/-- Rows leave their tokens with a comma between them. -/
theorem scans_rowLines (xs : List α) (hdoc : ∀ x ∈ xs, Scans (written (row x).1) [])
    (hrow : ∀ x ∈ xs, ScansBefore (row x).2.toList (tokens x)) :
    Scans (written (rowLines style (xs.map row)))
      (separatedTokens style.trailingComma (xs.map tokens)) := by
  have hcomma {x : α} (hx : ScansBefore (row x).2.toList (tokens x)) :
      Scans (((row x).2 ++ ",").toList ++ ['\n']) (tokens x ++ [.mark ',']) := by
    have hmark : ScansBefore (row x).2.toList (tokens x) := hx
    have hscan := (hmark.append_mark (c := ',') (by decide +kernel) (by decide) (by decide)).append
      scans_lineFeed
    simpa using hscan
  induction xs with
  | nil => exact .nil
  | cons x xs ih =>
    obtain ⟨hx, hxs⟩ := List.forall_mem_cons.mp hdoc
    obtain ⟨hrx, hrxs⟩ := List.forall_mem_cons.mp hrow
    cases xs with
    | nil =>
      have hlast : Scans (written [if style.trailingComma then (row x).2 ++ "," else (row x).2])
          (separatedTokens style.trailingComma [tokens x]) := by
        rw [written_cons, separatedTokens]
        split
        · exact hcomma hrx
        · rw [List.append_nil]
          exact hrx.append_lineFeed
      rw [List.map_cons, List.map_nil, rowLines_singleton, written_append]
      exact hx.append hlast
    | cons y ys =>
      have ih := ih hxs hrxs
      rw [List.map_cons, List.map_cons, rowLines_cons_cons, written_append]
      have hscan := hx.append ((hcomma hrx).append ih)
      rw [written_cons]
      simpa [separatedTokens] using hscan

end Rows

/-! ## Constants -/

def openingMark : Shape → Char
  | .array => '['
  | .record => '\x7b'

def closingMark : Shape → Char
  | .array => ']'
  | .record => '\x7d'

/-- A name in which nothing has a meaning to the stages before the tokens. -/
def IsPlainName (name : String) : Prop := ∀ c ∈ name.toList, isPlain c = true

theorem IsPlainName.scansBefore {name : String} (h : IsPlainName name) :
    ScansBefore name.toList (Token.all name.toList) := fun _ _ _ hc hu ↦ Scans.before h hc hu

theorem isPlainName_of_isWord {name : String} (h : Token.isWord name.toList = true) :
    IsPlainName name := fun _ hc ↦ isPlain_of_isWordChar (Token.isWordChar_of_mem h hc)

/-- The tokens of an exported constant. -/
def constantTokens (style : Style) (name : String) (shape : Shape) (rows : List (List Token)) :
    List Token :=
  .word "export" :: .word "const" :: (Token.all name.toList ++ .mark '=' ::
    .mark (openingMark shape) :: (separatedTokens style.trailingComma rows ++
      .mark (closingMark shape) :: (assertionTokens style ++ [.mark ';'])))

theorem scans_word_space (w : String) (h : Token.isWord w.toList = true) :
    Scans (w.toList ++ [' ']) [.word w] :=
  (scansBefore_word h).append_blank (by decide +kernel) (by decide) (by decide)

theorem scans_openingMark (shape : Shape) :
    Scans (EnumModule.opening shape).toList [.mark (openingMark shape)] := by
  cases shape <;> exact .mark (by decide +kernel) (by decide) (by decide)

theorem scans_closingMark (shape : Shape) :
    Scans (EnumModule.closing shape).toList [.mark (closingMark shape)] := by
  cases shape <;> exact .mark (by decide +kernel) (by decide) (by decide)

theorem scans_space : Scans [' '] [] := .blank (by decide) (by decide)

theorem scans_semicolon : Scans [';'] [.mark ';'] :=
  .mark (by decide +kernel) (by decide) (by decide)

theorem scans_assertion (style : Style) :
    Scans (style.asConst.toList ++ [';']) (assertionTokens style ++ [.mark ';']) := by
  unfold Style.asConst assertionTokens
  split
  · exact scans_space.append ((scans_word_space "as" (by decide +kernel)).append
      ((scansBefore_word (w := "const") (by decide +kernel)).append_mark (by decide +kernel)
        (by decide) (by decide)))
  · exact scans_semicolon

theorem scans_equals : Scans "= ".toList [.mark '='] :=
  (Scans.mark (c := '=') (by decide +kernel) (by decide) (by decide)).append scans_space

/-- The first line of a constant up to its opening bracket. -/
theorem scans_head {name : String} (h : IsPlainName name) (shape : Shape) :
    Scans ("export const " ++ name ++ " = " ++ EnumModule.opening shape).toList
      (.word "export" :: .word "const" ::
        (Token.all name.toList ++ [.mark '=', .mark (openingMark shape)])) := by
  have hname : Scans (name.toList ++ [' ']) (Token.all name.toList) :=
    h.scansBefore.append_blank (by decide +kernel) (by decide) (by decide)
  have hscan := (scans_word_space "export" (by decide +kernel)).append
    ((scans_word_space "const" (by decide +kernel)).append
      (hname.append (scans_equals.append (scans_openingMark shape))))
  simpa using hscan

/-- The end of a constant from its closing bracket on. -/
theorem scans_tail (style : Style) (shape : Shape) :
    Scans (EnumModule.closing shape ++ style.asConst ++ ";").toList
      (.mark (closingMark shape) :: (assertionTokens style ++ [.mark ';'])) := by
  have hscan := (scans_closingMark shape).append (scans_assertion style)
  simpa using hscan

/-- A constant leaves its rows between its brackets. -/
theorem scans_constant {α : Type} (style : Style) {name : String} (h : IsPlainName name)
    (shape : Shape) (row : α → List String × String) (tokens : α → List Token) (xs : List α)
    (hdoc : ∀ x ∈ xs, Scans (written (row x).1) [])
    (hrow : ∀ x ∈ xs, ScansBefore (row x).2.toList (tokens x)) :
    Scans (written (EnumModule.constant style name (EnumModule.opening shape)
      (EnumModule.closing shape) (xs.map row)))
      (constantTokens style name shape (xs.map tokens)) := by
  have hhead := scans_head h shape
  have htail := scans_tail style shape
  have hrows := scans_rowLines style row tokens xs hdoc hrow
  cases xs with
  | nil =>
    have hscan := hhead.append (htail.append scans_lineFeed)
    simpa [EnumModule.constant, constantTokens, separatedTokens, written] using hscan
  | cons x xs =>
    have hscan := hhead.append (scans_lineFeed.append (hrows.append (htail.append scans_lineFeed)))
    have hlines : EnumModule.constant style name (EnumModule.opening shape)
        (EnumModule.closing shape) ((x :: xs).map row)
          = ("export const " ++ name ++ " = " ++ EnumModule.opening shape) ::
            (rowLines style ((x :: xs).map row)
              ++ [EnumModule.closing shape ++ style.asConst ++ ";"]) := rfl
    rw [hlines, written_cons, written_append, written_cons]
    simpa [constantTokens, written] using hscan

/-! ## Records -/

def caseTokens (c : Case) : List Token := keyToken c.name :: .mark ':' :: literalTokens c.value

/-- The tokens of a value of a group. -/
def entryTokens (enumName : String) : Entry → List Token
  | .ofCase name => Token.all (enumName.toList ++ '.' :: name.toList)
  | .ofScalar s => literalTokens s

def groupRowTokens (enumName : String) (shape : Shape) (e : String × Entry) : List Token :=
  match shape with
  | .array => entryTokens enumName e.2
  | .record => keyToken e.1 :: .mark ':' :: entryTokens enumName e.2

def groupTokens (style : Style) (enumName : String) (g : Group) : List Token :=
  constantTokens style g.name g.shape (g.entries.map (groupRowTokens enumName g.shape))

/-- The tokens of the type of an enum. -/
def typeTokens (style : Style) (name : String) : List Token :=
  if style.isTs then
    .word "export" :: .word "type" :: (Token.all name.toList ++ .mark '=' :: .word "typeof" ::
      (Token.all name.toList ++ .mark '[' :: .word "keyof" :: .word "typeof" ::
        (Token.all name.toList ++ [.mark ']', .mark ';'])))
  else []

/-- The tokens of an enum module. -/
def recordTokens (style : Style) (r : EnumRecord) : List Token :=
  constantTokens style r.name .record (r.cases.map caseTokens) ++ (typeTokens style r.name
    ++ r.groups.flatMap (groupTokens style r.name))

/-- The names of a record that stand in its text without quotes. -/
structure HasPlainNames (r : EnumRecord) : Prop where
  name : IsPlainName r.name
  groups : ∀ g ∈ r.groups, IsPlainName g.name
  references : ∀ g ∈ r.groups, ∀ e ∈ g.entries, ∀ n, e.2 = .ofCase n → IsPlainName n

theorem scansBefore_keyed {k v : String} {ts : List Token} (h : ScansBefore v.toList ts) :
    ScansBefore (indent ++ key k ++ ": " ++ v).toList (keyToken k :: .mark ':' :: ts) := by
  have hkey : Scans ((key k).toList ++ [':']) ([keyToken k] ++ [.mark ':']) :=
    (scansBefore_key k).append_mark (by decide +kernel) (by decide) (by decide)
  have hscan := scansBefore_append (isMargin_indent.scans.append (hkey.append scans_space)) h
  simpa using hscan

theorem scansBefore_indented {v : String} {ts : List Token} (h : ScansBefore v.toList ts) :
    ScansBefore (indent ++ v).toList ts := by
  have hscan := scansBefore_append isMargin_indent.scans h
  simpa using hscan

theorem scansBefore_caseRow (c : Case) :
    ScansBefore (EnumModule.caseRow c).2.toList (caseTokens c) :=
  scansBefore_keyed (scansBefore_literal c.value)

theorem scansBefore_entry {enumName : String} (h : IsPlainName enumName) {e : Entry}
    (he : ∀ n, e = .ofCase n → IsPlainName n) :
    ScansBefore (EnumModule.entryText enumName e).toList (entryTokens enumName e) := by
  cases e with
  | ofScalar s => exact scansBefore_literal s
  | ofCase n =>
    intro c u us hc hu
    have hplain : ∀ d ∈ enumName.toList ++ '.' :: n.toList, isPlain d = true := by
      intro d hd
      obtain hd | hd := List.mem_append.mp hd
      · exact h d hd
      · obtain rfl | hd := List.mem_cons.mp hd
        · rfl
        · exact he n rfl d hd
    have hscan := Scans.before hplain hc hu
    simpa [EnumModule.entryText, entryTokens] using hscan

theorem scansBefore_groupRow {enumName : String} (h : IsPlainName enumName) (shape : Shape)
    {e : String × Entry} (he : ∀ n, e.2 = .ofCase n → IsPlainName n) :
    ScansBefore (EnumModule.groupRow enumName shape e).2.toList
      (groupRowTokens enumName shape e) := by
  cases shape with
  | array => exact scansBefore_indented (scansBefore_entry h he)
  | record => exact scansBefore_keyed (scansBefore_entry h he)

theorem scans_groupLines (style : Style) {enumName : String} (h : IsPlainName enumName)
    {g : Group} (hg : IsPlainName g.name)
    (he : ∀ e ∈ g.entries, ∀ n, e.2 = .ofCase n → IsPlainName n) :
    Scans (written (EnumModule.groupLines style enumName g)) (groupTokens style enumName g) := by
  refine scans_constant style hg g.shape _ _ g.entries (fun e _ ↦ ?_)
    fun e hmem ↦ scansBefore_groupRow h g.shape (he e hmem)
  cases g.shape <;> exact Scans.nil

theorem scans_typeLines (style : Style) {name : String} (h : IsPlainName name) :
    Scans (written (EnumModule.typeLines style name)) (typeTokens style name) := by
  unfold EnumModule.typeLines typeTokens
  split
  · have hname : Scans (name.toList ++ [' ']) (Token.all name.toList) :=
      h.scansBefore.append_blank (by decide +kernel) (by decide) (by decide)
    have hopen : Scans (name.toList ++ ['[']) (Token.all name.toList ++ [.mark '[']) :=
      h.scansBefore.append_mark (by decide +kernel) (by decide) (by decide)
    have hclose : Scans (name.toList ++ [']']) (Token.all name.toList ++ [.mark ']']) :=
      h.scansBefore.append_mark (by decide +kernel) (by decide) (by decide)
    have htypeof := scans_word_space "typeof" (by decide +kernel)
    have hscan := scans_lineFeed.append ((scans_word_space "export" (by decide +kernel)).append
      ((scans_word_space "type" (by decide +kernel)).append (hname.append (scans_equals.append
        (htypeof.append (hopen.append ((scans_word_space "keyof" (by decide +kernel)).append
          (htypeof.append (hclose.append (scans_semicolon.append scans_lineFeed))))))))))
    simpa [written] using hscan
  · exact .nil

theorem scans_groups (style : Style) {enumName : String} (h : IsPlainName enumName)
    (gs : List Group) (hname : ∀ g ∈ gs, IsPlainName g.name)
    (href : ∀ g ∈ gs, ∀ e ∈ g.entries, ∀ n, e.2 = .ofCase n → IsPlainName n) :
    Scans (written (gs.flatMap fun g ↦ "" :: EnumModule.groupLines style enumName g))
      (gs.flatMap (groupTokens style enumName)) := by
  induction gs with
  | nil => exact .nil
  | cons g gs ih =>
    obtain ⟨hg, hgs⟩ := List.forall_mem_cons.mp hname
    obtain ⟨hr, hrs⟩ := List.forall_mem_cons.mp href
    have hscan := scans_lineFeed.append ((scans_groupLines style h hg hr).append (ih hgs hrs))
    rw [List.flatMap_cons, List.cons_append, written_cons, written_append]
    simpa using hscan

/-- The text of a record leaves its tokens. -/
theorem scans_lines (style : Style) {r : EnumRecord} (h : HasPlainNames r) :
    Scans (written (EnumModule.lines style r)) (recordTokens style r) := by
  have hcases : Scans (written (EnumModule.constant style r.name "\x7b" "\x7d"
      (r.cases.map EnumModule.caseRow)))
      (constantTokens style r.name .record (r.cases.map caseTokens)) :=
    scans_constant style h.name .record _ _ r.cases
      (fun c _ ↦ isMargin_indent.scans_docLines c.doc) fun c _ ↦ scansBefore_caseRow c
  have hscan := (isMargin_empty.scans_docLines r.doc).append (hcases.append
    ((scans_typeLines style h.name).append
      (scans_groups style h.name r.groups h.groups h.references)))
  simpa [EnumModule.lines, written_append, recordTokens] using hscan

end FrontendSync.Module
