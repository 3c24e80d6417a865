import FrontendSync.Proofs.Php.IntegerLiteral

/-!
# String literals

The text between double quotes is a sequence of pieces: characters, escapes, and character codes in
base eight and sixteen; in front of a name or a brace a dollar sign interpolates.  What is read
of a piece is never shorter than what it stands for.  So a literal is read as the bytes it stands
for only if every piece of it is.
-/

namespace FrontendSync.Php

open Lexeme (all quotedTail unquote)

variable {ctx : Context}

/-! ## Bytes -/

theorem utf8_append (s t : List Char) : utf8 (s ++ t) = utf8 s ++ utf8 t := List.flatMap_append

theorem length_le_length_utf8 (s : List Char) : s.length ≤ (utf8 s).length := by
  induction s with
  | nil => exact le_rfl
  | cons c s ih =>
    have hc : 0 < (String.utf8EncodeChar c).length := by
      rw [String.length_utf8EncodeChar]
      exact Char.utf8Size_pos c
    rw [utf8, List.flatMap_cons, List.length_append, List.length_cons]
    have hs : s.length ≤ (s.flatMap String.utf8EncodeChar).length := ih
    omega

/-! ## Pieces -/

/-- The character that a backslash and `c` stand for. -/
def simpleEscape? : Char → Option Char
  | 'n' => some '\n'
  | 't' => some '\t'
  | 'r' => some '\r'
  | 'v' => some '\x0b'
  | 'e' => some '\x1b'
  | 'f' => some '\x0c'
  | '$' => some '$'
  | '"' => some '"'
  | '\\' => some '\\'
  | _ => none

inductive Piece where
  | char (c : Char)
  /-- A backslash and `c`, which stand for `d`. -/
  | escape (c d : Char)
  /-- A byte by its code in base eight, which begins with `d`. -/
  | octal (d : Char) (ds : List Char)
  /-- A byte by its code in base sixteen, behind the letter `x`. -/
  | hexadecimal (x : Char) (ds : List Char)
  /-- A character by its code in braces. -/
  | unicode (ds : List Char)
  /-- A backslash that escapes nothing, and the character behind it. -/
  | backslash (c : Char)
deriving DecidableEq

namespace Piece

def text : Piece → List Char
  | char c => [c]
  | escape c _ | backslash c => ['\\', c]
  | octal d ds => '\\' :: d :: ds
  | hexadecimal x ds => '\\' :: x :: ds
  | unicode ds => '\\' :: 'u' :: '\x7b' :: (ds ++ ['\x7d'])

/-- The piece behind a backslash, and what follows it. -/
def escaped? : List Char → Option (Piece × List Char)
  | [] => none
  | c :: s =>
    match simpleEscape? c with
    | some d => some (escape c d, s)
    | none =>
      if isOctalDigit c then
        let ds := (s.takeWhile isOctalDigit).take 2
        some (octal c ds, s.drop ds.length)
      else if (c = 'x' ∨ c = 'X') ∧ s.head?.any Decimal.isHexDigit then
        let ds := (s.takeWhile Decimal.isHexDigit).take 2
        some (hexadecimal c ds, s.drop ds.length)
      else if c = 'u' ∧ s.head? = some '\x7b' then
        let ds := s.tail.takeWhile Decimal.isHexDigit
        let rest := s.tail.drop ds.length
        if ds ≠ [] ∧ Decimal.value 16 ds ≤ 0x10FFFF ∧ rest.head? = some '\x7d' then
          some (unicode ds, rest.tail)
        else none
      else some (backslash c, s)

/-- The first piece of a text, and what follows it.  A quote and a broken code of a character are
none. -/
def next? : List Char → Option (Piece × List Char)
  | [] => none
  | c :: s => if c = '\\' then escaped? s else if c = '"' then none else some (char c, s)

/-- The bytes of the character with a code. -/
def utf8OfCode (n : Nat) : List UInt8 :=
  if n < 0x80 then [.ofNat n]
  else if n < 0x800 then [.ofNat (0xC0 + n / 0x40), .ofNat (0x80 + n % 0x40)]
  else if n < 0x10000 then
    [.ofNat (0xE0 + n / 0x1000), .ofNat (0x80 + n / 0x40 % 0x40), .ofNat (0x80 + n % 0x40)]
  else [.ofNat (0xF0 + n / 0x40000), .ofNat (0x80 + n / 0x1000 % 0x40),
    .ofNat (0x80 + n / 0x40 % 0x40), .ofNat (0x80 + n % 0x40)]

/-- What a piece stands for; of a code above those of bytes the lowest eight bits. -/
def bytes : Piece → List UInt8
  | char c | escape _ c => utf8 [c]
  | octal d ds => [.ofNat (Decimal.value 8 (d :: ds))]
  | hexadecimal _ ds => [.ofNat (Decimal.value 16 ds)]
  | unicode ds => utf8OfCode (Decimal.value 16 ds)
  | backslash c => utf8 ['\\', c]

/-- What is read of a piece. -/
def decoded : Piece → List Char
  | char c | escape _ c => [c]
  | octal d ds => if d = '0' then '\x00' :: ds else '\\' :: d :: ds
  | p => p.text

/-- The characters of a piece are of its kind. -/
def IsSound : Piece → Prop
  | char c => c ≠ '"' ∧ c ≠ '\\'
  | escape c d => simpleEscape? c = some d
  | octal d ds => isOctalDigit d = true ∧ ∀ e ∈ ds, isOctalDigit e = true
  | hexadecimal x ds => (x = 'x' ∨ x = 'X') ∧ ∀ d ∈ ds, Decimal.isHexDigit d = true
  | unicode ds => ds ≠ [] ∧ ∀ d ∈ ds, Decimal.isHexDigit d = true
  | backslash c => simpleEscape? c = none ∧ isOctalDigit c = false

/-- Single characters, escapes, and the code zero in one digit are read as what they stand for. -/
def IsKept : Piece → Prop
  | char _ | escape _ _ | backslash _ => True
  | octal d ds => d = '0' ∧ ds = []
  | hexadecimal .. | unicode .. => False

/-- The first digits of a text, and what follows them. -/
theorem takeDigits_append (P : Char → Bool) (n : Nat) (s : List Char) :
    (s.takeWhile P).take n ++ s.drop ((s.takeWhile P).take n).length = s :=
  List.prefix_iff_eq_append.mp ((List.take_prefix n _).trans (List.takeWhile_prefix P))

theorem of_mem_takeDigits {P : Char → Bool} {n : Nat} {s : List Char} :
    ∀ c ∈ (s.takeWhile P).take n, P c = true := fun _ hc ↦
  List.all_eq_true.mp List.all_takeWhile _ (List.mem_of_mem_take hc)

theorem escaped?_eq {s rest : List Char} {p : Piece} (h : escaped? s = some (p, rest)) :
    '\\' :: s = p.text ++ rest ∧ p.IsSound := by
  unfold escaped? at h
  split at h
  · simp at h
  · rename_i c s
    split at h
    · rename_i d hd
      obtain ⟨rfl, rfl⟩ := Prod.mk.inj (Option.some.inj h)
      exact ⟨rfl, hd⟩
    · rename_i hnone
      dsimp only at h
      split_ifs at h with hoctal hhex hunicode hcode
      · obtain ⟨rfl, rfl⟩ := Prod.mk.inj (Option.some.inj h)
        refine ⟨?_, hoctal, of_mem_takeDigits⟩
        rw [text, List.cons_append, List.cons_append, takeDigits_append]
      · obtain ⟨rfl, rfl⟩ := Prod.mk.inj (Option.some.inj h)
        refine ⟨?_, hhex.1, of_mem_takeDigits⟩
        rw [text, List.cons_append, List.cons_append, takeDigits_append]
      · obtain ⟨rfl, rfl⟩ := Prod.mk.inj (Option.some.inj h)
        obtain ⟨rfl, hopen⟩ := hunicode
        obtain ⟨hne, -, hclose⟩ := hcode
        obtain ⟨s, rfl⟩ := List.head?_eq_some_iff.mp hopen
        simp only [List.tail_cons] at hne hclose ⊢
        obtain ⟨rest, hrest⟩ := List.head?_eq_some_iff.mp hclose
        refine ⟨?_, hne, List.all_eq_true.mp List.all_takeWhile⟩
        have hs : s.takeWhile Decimal.isHexDigit ++ '\x7d' :: rest = s := by
          rw [← hrest]
          exact List.prefix_iff_eq_append.mp (List.takeWhile_prefix _)
        rw [text, hrest, List.tail_cons, List.cons_append, List.cons_append, List.cons_append,
          List.append_assoc, List.singleton_append, hs]
      · obtain ⟨rfl, rfl⟩ := Prod.mk.inj (Option.some.inj h)
        exact ⟨rfl, hnone, by simpa using hoctal⟩

/-- A text begins with its first piece. -/
theorem next?_eq {s rest : List Char} {p : Piece} (h : next? s = some (p, rest)) :
    s = p.text ++ rest ∧ p.IsSound := by
  unfold next? at h
  split at h
  · simp at h
  · split_ifs at h with hslash hquote
    · subst hslash
      exact escaped?_eq h
    · obtain ⟨rfl, rfl⟩ := Prod.mk.inj (Option.some.inj h)
      exact ⟨rfl, hquote, hslash⟩

/-! ### Reading one piece -/

theorem escape?_eq (c : Char) :
    Lexeme.escape? c = if c = '0' then some '\x00' else simpleEscape? c := by
  unfold Lexeme.escape? simpleEscape?
  split <;> simp_all

theorem simpleEscape?_of_isOctalDigit {c : Char} (h : isOctalDigit c = true) :
    simpleEscape? c = none := by
  unfold simpleEscape?
  split <;> first | rfl | exact absurd h (by decide)

/-- Neither quote nor backslash. -/
def IsPlain (s : List Char) : Prop := ∀ c ∈ s, c ≠ '"' ∧ c ≠ '\\'

theorem isPlain_of_forall {P : Char → Bool} (hquote : P '"' = false) (hslash : P '\\' = false)
    {s : List Char} (h : ∀ c ∈ s, P c = true) : IsPlain s := by
  intro c hc
  constructor
  · rintro rfl
    simp [h _ hc] at hquote
  · rintro rfl
    simp [h _ hc] at hslash

theorem quotedTail_append {t : List Char} (h : IsPlain t) (s : List Char) :
    quotedTail '"' (t ++ s) = t ++ quotedTail '"' s := by
  induction t with
  | nil => rfl
  | cons c t ih =>
    obtain ⟨⟨hquote, hslash⟩, ht⟩ := List.forall_mem_cons.mp h
    rw [List.cons_append, Lexeme.quotedTail_cons hslash, if_neg hquote, ih ht, List.cons_append]

theorem unquote_append {t : List Char} (h : IsPlain t) (s : List Char) :
    unquote '"' Lexeme.escape? (t ++ s) = t ++ unquote '"' Lexeme.escape? s := by
  induction t with
  | nil => rfl
  | cons c t ih =>
    obtain ⟨⟨hquote, hslash⟩, ht⟩ := List.forall_mem_cons.mp h
    rw [List.cons_append, Lexeme.unquote_cons hslash, if_neg hquote, ih ht, List.cons_append]

/-- A backslash that escapes nothing. -/
theorem unquote_backslash {c : Char} (hc : Lexeme.escape? c = none) {t : List Char}
    (ht : IsPlain t) (s : List Char) : unquote '"' Lexeme.escape? ('\\' :: c :: (t ++ s))
      = '\\' :: c :: (t ++ unquote '"' Lexeme.escape? s) := by
  rw [unquote, hc]
  simp only [unquote_append ht]

theorem isPlain_of_isOctalDigit {ds : List Char} (h : ∀ d ∈ ds, isOctalDigit d = true) :
    IsPlain ds := isPlain_of_forall rfl rfl h

theorem isPlain_of_isHexDigit {ds : List Char} (h : ∀ d ∈ ds, Decimal.isHexDigit d = true) :
    IsPlain ds := isPlain_of_forall rfl rfl h

theorem isPlain_of_braces {ds : List Char} (h : ∀ d ∈ ds, Decimal.isHexDigit d = true) :
    IsPlain ('\x7b' :: (ds ++ ['\x7d'])) := by
  simpa [IsPlain, or_imp, forall_and] using isPlain_of_isHexDigit h

theorem quotedTail_text {p : Piece} (h : p.IsSound) (s : List Char) :
    quotedTail '"' (p.text ++ s) = p.text ++ quotedTail '"' s := by
  cases p with
  | char c => exact quotedTail_append (List.forall_mem_singleton.mpr h) s
  | escape c d => simp [text, quotedTail]
  | backslash c => simp [text, quotedTail]
  | octal d ds => simp [text, quotedTail, quotedTail_append (isPlain_of_isOctalDigit h.2)]
  | hexadecimal x ds => simp [text, quotedTail, quotedTail_append (isPlain_of_isHexDigit h.2)]
  | unicode ds =>
    have htail := quotedTail_append (isPlain_of_braces h.2) s
    simp only [text, List.cons_append, List.append_assoc, quotedTail] at htail ⊢
    rw [htail]

theorem unquote_text {p : Piece} (h : p.IsSound) (s : List Char) :
    unquote '"' Lexeme.escape? (p.text ++ s) = p.decoded ++ unquote '"' Lexeme.escape? s := by
  cases p with
  | char c => exact unquote_append (List.forall_mem_singleton.mpr h) s
  | escape c d =>
    have hsimple : simpleEscape? c = some d := h
    have hzero : c ≠ '0' := by
      rintro rfl
      simp [simpleEscape?] at hsimple
    have hc : Lexeme.escape? c = some d := by rw [escape?_eq, if_neg hzero, hsimple]
    simp [text, decoded, unquote, hc]
  | backslash c =>
    have hzero : c ≠ '0' := by
      rintro rfl
      exact absurd h.2 (by decide)
    have hc : Lexeme.escape? c = none := by rw [escape?_eq, if_neg hzero, h.1]
    exact unquote_backslash hc (List.forall_mem_nil _) s
  | octal d ds =>
    have hds := isPlain_of_isOctalDigit h.2
    by_cases hzero : d = '0'
    · subst hzero
      simp [text, decoded, unquote, Lexeme.escape?, unquote_append hds]
    · have hc : Lexeme.escape? d = none := by
        rw [escape?_eq, if_neg hzero, simpleEscape?_of_isOctalDigit h.1]
      rw [decoded, if_neg hzero]
      exact unquote_backslash hc hds s
  | hexadecimal x ds =>
    have hc : Lexeme.escape? x = none := by rcases h.1 with rfl | rfl <;> rfl
    exact unquote_backslash hc (isPlain_of_isHexDigit h.2) s
  | unicode ds => exact unquote_backslash rfl (isPlain_of_braces h.2) s

/-! ### What is read of one piece -/

theorem length_utf8OfCode_le (n : Nat) : (utf8OfCode n).length ≤ 4 := by
  unfold utf8OfCode
  split_ifs <;> simp

theorem IsKept.bytes_eq {p : Piece} (h : p.IsKept) : p.bytes = utf8 p.decoded := by
  cases p with
  | char c | escape c d | backslash c => rfl
  | octal d ds =>
    obtain ⟨rfl, rfl⟩ := h
    decide
  | hexadecimal x ds | unicode ds => exact h.elim

theorem IsSound.length_bytes_lt {p : Piece} (h : p.IsSound) (hkept : ¬ p.IsKept) :
    p.bytes.length < (utf8 p.decoded).length := by
  refine lt_of_lt_of_le ?_ (length_le_length_utf8 p.decoded)
  cases p with
  | char c | escape c d | backslash c => exact absurd trivial hkept
  | octal d ds =>
    by_cases hzero : d = '0'
    · have hds : ds ≠ [] := fun hds ↦ hkept ⟨hzero, hds⟩
      simpa [bytes, decoded, hzero] using List.length_pos_iff.mpr hds
    · simp [bytes, decoded, hzero]
  | hexadecimal x ds => simp [bytes, decoded, text]
  | unicode ds =>
    have hbytes := length_utf8OfCode_le (Decimal.value 16 ds)
    have hds := List.length_pos_iff.mpr h.1
    simp only [bytes, decoded, text, List.length_cons, List.length_append, List.length_nil]
    omega

theorem IsSound.length_bytes_le {p : Piece} (h : p.IsSound) :
    p.bytes.length ≤ (utf8 p.decoded).length := by
  by_cases hkept : p.IsKept
  · rw [hkept.bytes_eq]
  · exact (h.length_bytes_lt hkept).le

end Piece

/-! ## Literals -/

/-- A text is cut into pieces from left to right. -/
inductive AreCut : List Char → List Piece → Prop
  | nil : AreCut [] []
  | cons {s rest : List Char} {p : Piece} {ps : List Piece} :
      Piece.next? s = some (p, rest) → AreCut rest ps → AreCut s (p :: ps)

/-- A text without quotes but for escaped ones. -/
structure StringLiteral where
  pieces : List Piece
  cut : AreCut (pieces.flatMap Piece.text) pieces

theorem AreCut.isSound {s : List Char} {ps : List Piece} (h : AreCut s ps) :
    ∀ p ∈ ps, p.IsSound := by
  induction h with
  | nil => exact List.forall_mem_nil _
  | cons hnext _ ih => exact List.forall_mem_cons.mpr ⟨(Piece.next?_eq hnext).2, ih⟩

/-- A dollar sign in front of a name or a brace, or a brace in front of a dollar sign. -/
def Piece.opensCode : Piece → Piece → Bool
  | char '$', char c => Lexeme.isNameStart c || c = '\x7b'
  | char '\x7b', char '$' => true
  | _, _ => false

namespace StringLiteral

def text (l : StringLiteral) : List Char := '"' :: (l.pieces.flatMap Piece.text ++ ['"'])

def interpolates (l : StringLiteral) : Bool :=
  (l.pieces.zip l.pieces.tail).any fun pair ↦ pair.1.opensCode pair.2

/-- What a literal stands for; one that interpolates stands for no constant. -/
def constant? (l : StringLiteral) : Option Constant :=
  if l.interpolates then none else some (.bytes (l.pieces.flatMap Piece.bytes))

/-- Every piece is read as what it stands for. -/
def IsFaithful (l : StringLiteral) : Prop :=
  l.interpolates = false ∧ ∀ p ∈ l.pieces, p.IsKept

theorem quotedTail_pieces {ps : List Piece} (h : ∀ p ∈ ps, p.IsSound) :
    quotedTail '"' (ps.flatMap Piece.text ++ ['"']) = ps.flatMap Piece.text ++ ['"'] := by
  induction ps with
  | nil => rfl
  | cons p ps ih =>
    obtain ⟨hp, hps⟩ := List.forall_mem_cons.mp h
    rw [List.flatMap_cons, List.append_assoc, Piece.quotedTail_text hp, ih hps]

theorem unquote_pieces {ps : List Piece} (h : ∀ p ∈ ps, p.IsSound) :
    unquote '"' Lexeme.escape? (ps.flatMap Piece.text ++ ['"']) = ps.flatMap Piece.decoded := by
  induction ps with
  | nil => rfl
  | cons p ps ih =>
    obtain ⟨hp, hps⟩ := List.forall_mem_cons.mp h
    rw [List.flatMap_cons, List.append_assoc, Piece.unquote_text hp, ih hps, List.flatMap_cons]

/-- Whatever its pieces are, a literal is read. -/
theorem evaluates_text (l : StringLiteral) :
    Evaluates ctx l.text (.string (String.ofList (l.pieces.flatMap Piece.decoded))) := by
  have hsound := l.cut.isSound
  have hfirst : Lexeme.first '"' (l.pieces.flatMap Piece.text ++ ['"'])
      = ⟨l.text, some (.string (String.ofList (l.pieces.flatMap Piece.decoded)))⟩ := by
    rw [Lexeme.first_quote (.inr rfl), Lexeme.quoted, quotedTail_pieces hsound, if_pos rfl,
      unquote_pieces hsound, text]
  have hall : (all 0 l.text).filterMap Lexeme.kind
      = [.string (String.ofList (l.pieces.flatMap Piece.decoded))] := by
    rw [text, Lexeme.all_of_text_first (by rw [hfirst]; rfl), hfirst]
    rfl
  exact evaluates_of_unaryReads hall (Expression.unaryReads_string _)

theorem length_flatMap_bytes_le {ps : List Piece} (h : ∀ p ∈ ps, p.IsSound) :
    (ps.flatMap Piece.bytes).length ≤ (utf8 (ps.flatMap Piece.decoded)).length := by
  induction ps with
  | nil => exact le_rfl
  | cons p ps ih =>
    obtain ⟨hp, hps⟩ := List.forall_mem_cons.mp h
    rw [List.flatMap_cons, List.flatMap_cons, utf8_append, List.length_append, List.length_append]
    exact Nat.add_le_add hp.length_bytes_le (ih hps)

/-- No other piece makes up for one that is read as something longer. -/
theorem flatMap_bytes_eq_iff {ps : List Piece} (h : ∀ p ∈ ps, p.IsSound) :
    ps.flatMap Piece.bytes = utf8 (ps.flatMap Piece.decoded) ↔ ∀ p ∈ ps, p.IsKept := by
  induction ps with
  | nil => exact iff_of_true rfl (List.forall_mem_nil _)
  | cons p ps ih =>
    obtain ⟨hp, hps⟩ := List.forall_mem_cons.mp h
    rw [List.flatMap_cons, List.flatMap_cons, utf8_append, List.forall_mem_cons, ← ih hps]
    constructor
    · intro heq
      have hlength := congrArg List.length heq
      have hrest := length_flatMap_bytes_le hps
      have hkept : p.IsKept := by
        by_contra hkept
        have hlt := hp.length_bytes_lt hkept
        rw [List.length_append, List.length_append] at hlength
        omega
      rw [hkept.bytes_eq] at heq
      exact ⟨hkept, List.append_cancel_left heq⟩
    · rintro ⟨hkept, heq⟩
      rw [hkept.bytes_eq, heq]

/-- A string literal is read as what it stands for if every piece of it is. -/
theorem decodes_text_iff (l : StringLiteral) : Decodes ctx l.text l.constant? ↔ l.IsFaithful := by
  have hvalue : (Value.string (String.ofList (l.pieces.flatMap Piece.decoded))).constant?
      = some (.bytes (utf8 (l.pieces.flatMap Piece.decoded))) := by
    rw [Value.constant?, String.toList_ofList]
  rw [decodes_iff_of_evaluates l.evaluates_text hvalue, constant?, IsFaithful,
    ← flatMap_bytes_eq_iff l.cut.isSound]
  cases l.interpolates <;> simp

end StringLiteral

/-! ## Integers and strings -/

inductive Literal where
  | integer (l : IntegerLiteral)
  | string (l : StringLiteral)

namespace Literal

def text : Literal → List Char
  | integer l => l.text
  | string l => l.text

variable (wide : Nat → List Char → Binary64)

def constant? : Literal → Option Constant
  | integer l => some (l.constant wide)
  | string l => l.constant?

def IsFaithful : Literal → Prop
  | integer l => l.IsFaithful wide
  | string l => l.IsFaithful

/-- A literal is no expression of another value than it stands for, except digits behind a zero,
codes of characters and interpolations. -/
theorem decodes_iff (l : Literal) :
    Decodes ctx l.text (l.constant? wide) ↔ l.IsFaithful wide := by
  cases l with
  | integer l => exact l.decodes_text_iff
  | string l => exact l.decodes_text_iff

/-- Digits in base eight, the first of which is a zero. -/
def zeroTen : Literal :=
  .integer (.leadingZero ['1', '0'] (.digit rfl (.digit rfl (.one rfl))) (List.cons_ne_nil _ _))

theorem evaluates_zeroTen :
    zeroTen.text = ['0', '1', '0'] ∧ zeroTen.constant? (fun _ _ ↦ .zero) = some (.int 8) ∧
      Evaluates bareContext zeroTen.text (.int 10) := by
  have htext : (all 0 zeroTen.text).filterMap Lexeme.kind = [.int 10] := by decide +kernel
  exact ⟨rfl, by decide +kernel, evaluates_of_unaryReads htext (Expression.unaryReads_nat 10)⟩

end Literal

end FrontendSync.Php
