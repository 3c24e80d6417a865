import FrontendSync.Proofs.Number.ReadText
import FrontendSync.Proofs.Php.Comments

/-!
# Integer literals

Integer literals in base ten, eight, sixteen and two, with marks between their digits.  As an
expression one is read in base ten or sixteen or not at all, and what is read is what it stands for
unless it begins with a zero that makes it octal.
-/

namespace FrontendSync.Php

open Lexeme (all ofKind isDigitOrMark isHexOrMark dropMarks)

variable {ctx : Context} {v : Value}

/-! ## Constants -/

/-- What a literal stands for; a text is a sequence of bytes. -/
inductive Constant where
  | int (n : Int)
  | float (x : Binary64)
  | bytes (bs : List UInt8)
deriving DecidableEq

def utf8 (s : List Char) : List UInt8 := s.flatMap String.utf8EncodeChar

def Value.constant? : Value → Option Constant
  | int n => some (.int n)
  | float x => some (.float x)
  | string text => some (.bytes (utf8 text.toList))
  | _ => none

/-- A text is an expression of no constant but the given one, and of none if there is none. -/
def Decodes (ctx : Context) (text : List Char) (constant : Option Constant) : Prop :=
  ∀ v, Evaluates ctx text v → constant.isSome = true ∧ v.constant? = constant

/-! ## Texts of one lexeme -/

theorem evaluates_unique {w : Value} {text : List Char} (hv : Evaluates ctx text v)
    (hw : Evaluates ctx text w) : v = w := hv.unique hw

/-- A text with one token, which is an operand. -/
theorem evaluates_of_unaryReads {text : List Char} {k : Token.Kind}
    (htext : (all 0 text).filterMap Lexeme.kind = [k])
    (h : Expression.UnaryReads ctx [ofKind k] v) : Evaluates ctx text v := by
  have hkinds : Token.SameKinds (tokens (String.ofList text)) [⟨k, 1⟩] := by
    rw [Token.SameKinds, map_kind_tokens, htext]
    rfl
  have hread := h.reads 1 [] Expression.ends_nil
  rw [List.append_nil] at hread
  exact (Expression.isWhole_of_is_read hread).of_sameKinds hkinds

theorem decodes_iff_of_evaluates {text : List Char} {c : Option Constant} {d : Constant}
    (h : Evaluates ctx text v) (hv : v.constant? = some d) :
    Decodes ctx text c ↔ c = some d := by
  constructor
  · intro hc
    exact (hc v h).2.symm.trans hv
  · rintro rfl w hw
    rw [evaluates_unique hw h]
    exact ⟨rfl, hv⟩

theorem Lexeme.all_of_text_first {c : Char} {s : List Char} (h : (first c s).text = c :: s) :
    all 0 (c :: s) = [first c s] := by
  have hall : all 0 ((first c s).text ++ []) = first c s :: all 0 [] :=
    all_append_of_isReadBefore ⟨c, s, by simp [h], by simp [h], rfl⟩
  rwa [List.append_nil, h] at hall

/-- No expression goes on with a name behind an operand. -/
theorem not_evaluates_of_name {text : List Char} {k : Token.Kind} {name : String} {w : Value}
    (htext : (all 0 text).filterMap Lexeme.kind = [k, .name name])
    (h : Expression.UnaryReads ctx [ofKind k] w) : ¬ Evaluates ctx text v := by
  intro hv
  have hkinds : Token.SameKinds [⟨k, 1⟩, ⟨.name name, 1⟩] (tokens (String.ofList text)) := by
    rw [Token.SameKinds, map_kind_tokens, htext]
    rfl
  have hends : Expression.Ends [⟨.name name, 1⟩] := by
    simp [Expression.Ends, Token.isPunct]
  have hone := h.reads 1 [⟨.name name, 1⟩] hends
  rw [Lexeme.tokens_ofKind, Lexeme.tokens_nil, List.singleton_append] at hone
  obtain ⟨_, hone⟩ := hone
  obtain ⟨_, hwhole⟩ := (hv.of_sameKinds hkinds).read
  exact absurd (Reading.value.inj (hone.symm.trans hwhole)).2 (by simp)

/-! ## Digits -/

theorem int?_of_isDigit {ds : List Char} (hne : ds ≠ []) (h : ∀ c ∈ ds, c.isDigit = true) :
    Decimal.int? ds
      = if Decimal.fits (Decimal.value 10 ds) then some (Decimal.value 10 ds : Int) else none := by
  have hread := Binary64.int?_sign_append false (IsMagnitude.of_digits hne h)
  have hall : ds.all Char.isDigit = true := List.all_eq_true.mpr h
  simpa [Binary64.sign, Decimal.unsigned?, hne, hall, Option.filter] using hread

theorem value_significant (ds : List Char) :
    Decimal.value 10 (Binary64.significant ds) = Decimal.value 10 ds := by
  induction ds with
  | nil => rfl
  | cons d ds ih =>
    by_cases hd : d = '0'
    · subst hd
      simpa [Binary64.significant, Decimal.value, Decimal.digitValue] using ih
    · simp [Binary64.significant, hd]

/-- Digits above the range of integers are read as the nearest number. -/
theorem ofText?_of_isDigit {ds : List Char} (hne : ds ≠ []) (h : ∀ c ∈ ds, c.isDigit = true)
    (hvalue : Decimal.value 10 ds ≠ 0) :
    Binary64.ofText? ds = some (.ofNat (Decimal.value 10 ds)) := by
  have hread := Binary64.ofText?_sign_append false (IsMagnitude.of_digits hne h)
  have hsmall : ¬ ((0 : Int) + (Binary64.significant ds).length < -400) := by omega
  rw [Binary64.unsigned?_digits false h hne, value_significant, Binary64.ofDigits, if_neg hvalue,
    if_neg (by decide), if_neg hsmall] at hread
  simpa [Binary64.sign, Binary64.ofScientific, Binary64.ofNat] using hread

/-! ## Numbers in base ten -/

/-- What digits stand for: an integer of 64 bits, or the number nearest to it. -/
def decimalKind (ds : List Char) : Token.Kind :=
  let n := Decimal.value 10 ds
  if Decimal.fits n then .int n else .float (.ofNat n)

theorem decimal_eq_of_isDigitOrMark {s : List Char} (h : ∀ c ∈ s, isDigitOrMark c = true)
    (hne : dropMarks s ≠ []) : Lexeme.decimal s = ⟨s, some (decimalKind (dropMarks s))⟩ := by
  have hwhole : s.takeWhile isDigitOrMark = s := by
    simpa using @List.takeWhile_append_of_pos _ isDigitOrMark s [] h
  have hdigits : ∀ c ∈ dropMarks s, c.isDigit = true := by
    intro c hc
    obtain ⟨hc, hmark⟩ := List.mem_filter.mp hc
    simpa [isDigitOrMark, of_decide_eq_true hmark] using h c hc
  have hint := int?_of_isDigit hne hdigits
  by_cases hfits : Decimal.fits (Decimal.value 10 (dropMarks s)) = true
  · rw [if_pos hfits] at hint
    simp [Lexeme.decimal, hwhole, Lexeme.fractionTail, Lexeme.exponentTail, hint, decimalKind,
      hfits]
  · rw [if_neg hfits] at hint
    have hvalue : Decimal.value 10 (dropMarks s) ≠ 0 := by
      intro hzero
      rw [hzero] at hfits
      exact hfits (by decide)
    simp [Lexeme.decimal, hwhole, Lexeme.fractionTail, Lexeme.exponentTail, hint, decimalKind,
      hfits, ofText?_of_isDigit hne hdigits hvalue]

/-! ## Literals -/

/-- Digits with single marks between some of them. -/
inductive Grouped (P : Char → Bool) : List Char → Prop
  | one {c : Char} : P c = true → Grouped P [c]
  | digit {c : Char} {s : List Char} : P c = true → Grouped P s → Grouped P (c :: s)
  | mark {c : Char} {s : List Char} : P c = true → Grouped P s → Grouped P (c :: '_' :: s)

namespace Grouped

variable {P Q : Char → Bool} {s : List Char}

theorem mono (h : ∀ c, P c = true → Q c = true) (hs : Grouped P s) : Grouped Q s := by
  induction hs with
  | one hc => exact .one (h _ hc)
  | digit hc _ ih => exact .digit (h _ hc) ih
  | mark hc _ ih => exact .mark (h _ hc) ih

theorem eq_or_of_mem (hs : Grouped P s) : ∀ c ∈ s, P c = true ∨ c = '_' := by
  induction hs with
  | one hc => simpa using .inl hc
  | digit hc _ ih => exact List.forall_mem_cons.mpr ⟨.inl hc, ih⟩
  | mark hc _ ih =>
    exact List.forall_mem_cons.mpr ⟨.inl hc, List.forall_mem_cons.mpr ⟨.inr rfl, ih⟩⟩

theorem exists_cons (hs : Grouped P s) : ∃ c t, s = c :: t ∧ P c = true := by
  cases hs with
  | one hc => exact ⟨_, _, rfl, hc⟩
  | digit hc _ => exact ⟨_, _, rfl, hc⟩
  | mark hc _ => exact ⟨_, _, rfl, hc⟩

theorem dropMarks_ne_nil (hs : Grouped P s) (hmark : P '_' = false) : dropMarks s ≠ [] := by
  obtain ⟨c, t, rfl, hc⟩ := hs.exists_cons
  have hne : c ≠ '_' := by
    rintro rfl
    simp [hmark] at hc
  simp [dropMarks, hne]

end Grouped

def isOctalDigit (c : Char) : Bool := '0' ≤ c && c ≤ '7'

def isBinaryDigit (c : Char) : Bool := c == '0' || c == '1'

inductive IntegerLiteral where
  | decimal (s : List Char) (h : Grouped Char.isDigit s) (hzero : s.head? = some '0' → s = ['0'])
  | leadingZero (s : List Char) (h : Grouped isOctalDigit ('0' :: s)) (hs : s ≠ [])
  | octal (o : Char) (ho : o = 'o' ∨ o = 'O') (s : List Char) (h : Grouped isOctalDigit s)
  | hexadecimal (x : Char) (hx : x = 'x' ∨ x = 'X') (s : List Char)
      (h : Grouped Decimal.isHexDigit s)
  | binary (b : Char) (hb : b = 'b' ∨ b = 'B') (s : List Char) (h : Grouped isBinaryDigit s)

namespace IntegerLiteral

def text : IntegerLiteral → List Char
  | decimal s _ _ => s
  | leadingZero s _ _ => '0' :: s
  | octal c _ s _ | hexadecimal c _ s _ | binary c _ s _ => '0' :: c :: s

def base : IntegerLiteral → Nat
  | decimal .. => 10
  | leadingZero .. | octal .. => 8
  | hexadecimal .. => 16
  | binary .. => 2

def digits : IntegerLiteral → List Char
  | leadingZero s _ _ => dropMarks ('0' :: s)
  | decimal s _ _ | octal _ _ s _ | hexadecimal _ _ s _ | binary _ _ s _ => dropMarks s

variable (wide : Nat → List Char → Binary64)

/-- What digits stand for.  Above the range of integers that is the nearest number in base ten, and
a number `wide base digits` in any other base. -/
def constantOf (base : Nat) (ds : List Char) : Constant :=
  let n := Decimal.value base ds
  if Decimal.fits n then .int n else .float (if base = 10 then .ofNat n else wide base ds)

def constant (l : IntegerLiteral) : Constant := constantOf wide l.base l.digits

/-- Digits behind a zero are read in base ten. -/
def IsFaithful : IntegerLiteral → Prop
  | leadingZero s _ _ =>
    constantOf wide 10 (dropMarks ('0' :: s)) = constantOf wide 8 (dropMarks ('0' :: s))
  | _ => True

end IntegerLiteral

theorem isDigit_of_isOctalDigit {c : Char} (h : isOctalDigit c = true) : c.isDigit = true := by
  simp only [isOctalDigit, Bool.and_eq_true, decide_eq_true_eq] at h
  simp only [Char.isDigit, Bool.and_eq_true, decide_eq_true_eq]
  exact ⟨h.1, UInt32.le_trans h.2 (by decide)⟩

theorem isDigit_of_isBinaryDigit {c : Char} (h : isBinaryDigit c = true) : c.isDigit = true := by
  simp only [isBinaryDigit, Bool.or_eq_true, beq_iff_eq] at h
  rcases h with rfl | rfl <;> decide

namespace IntegerLiteral

variable {wide : Nat → List Char → Binary64}

/-- Digits are read in base ten, also behind a zero. -/
theorem evaluates_digits {s : List Char} (h : Grouped Char.isDigit s) :
    ∃ v, Evaluates ctx s v ∧ v.constant? = some (constantOf wide 10 (dropMarks s)) := by
  obtain ⟨c, t, rfl, hc⟩ := h.exists_cons
  have hmarks : ∀ d ∈ c :: t, isDigitOrMark d = true := fun d hd ↦ by
    simpa [isDigitOrMark] using h.eq_or_of_mem d hd
  have hx : ∀ x u, c :: t = '0' :: x :: u → x ≠ 'x' ∧ x ≠ 'X' := by
    rintro x u heq
    have hmark := hmarks x (by simp [heq])
    constructor <;> (rintro rfl; exact absurd hmark (by decide))
  have hfirst : Lexeme.first c t = ⟨c :: t, some (decimalKind (dropMarks (c :: t)))⟩ := by
    rw [Lexeme.first_of_isDigit hc, Lexeme.number_decimal hx,
      decimal_eq_of_isDigitOrMark hmarks (h.dropMarks_ne_nil (by decide))]
  have hall : (all 0 (c :: t)).filterMap Lexeme.kind = [decimalKind (dropMarks (c :: t))] := by
    rw [Lexeme.all_of_text_first (by rw [hfirst]), hfirst]
    rfl
  by_cases hfits : Decimal.fits (Decimal.value 10 (dropMarks (c :: t))) = true
  · simp only [decimalKind, if_pos hfits] at hall
    exact ⟨_, evaluates_of_unaryReads hall (Expression.unaryReads_nat _),
      by simp [constantOf, hfits, Value.constant?]⟩
  · simp only [decimalKind, if_neg hfits] at hall
    have hreads (x : Binary64) : Expression.UnaryReads ctx [ofKind (.float x)] (.float x) :=
      fun _ rest _ ↦ Expression.is_unary_float rfl rest
    exact ⟨_, evaluates_of_unaryReads hall (hreads _),
      by simp [constantOf, hfits, Value.constant?]⟩

/-- Hexadecimal digits are read if they are in the range of integers. -/
theorem evaluates_hexadecimal {x : Char} (hx : x = 'x' ∨ x = 'X') {s : List Char}
    (h : Grouped Decimal.isHexDigit s) (hv : Evaluates ctx ('0' :: x :: s) v) :
    Decimal.fits (Decimal.value 16 (dropMarks s)) = true ∧
      v = .int (Decimal.value 16 (dropMarks s)) := by
  have hmarks : ∀ d ∈ s, isHexOrMark d = true := fun d hd ↦ by
    simpa [isHexOrMark] using h.eq_or_of_mem d hd
  have htake : s.takeWhile isHexOrMark = s := by
    simpa using @List.takeWhile_append_of_pos _ isHexOrMark s [] hmarks
  have hne := h.dropMarks_ne_nil (by decide)
  have hfirst : Lexeme.first '0' (x :: s) = Lexeme.hexadecimal ('0' :: x :: s) s := by
    rw [Lexeme.first_of_isDigit (by decide), Lexeme.number_hexadecimal hx, htake]
  have hall : all 0 ('0' :: x :: s) = [Lexeme.hexadecimal ('0' :: x :: s) s] := by
    rw [Lexeme.all_of_text_first (by rw [hfirst]; rfl), hfirst]
  by_cases hfits : Decimal.fits (Decimal.value 16 (dropMarks s)) = true
  · have hkinds : (all 0 ('0' :: x :: s)).filterMap Lexeme.kind
        = [.int (Decimal.value 16 (dropMarks s))] := by
      rw [hall]
      simp [Lexeme.hexadecimal, hne, hfits]
    exact ⟨hfits, evaluates_unique hv
      (evaluates_of_unaryReads hkinds (Expression.unaryReads_nat _))⟩
  · have hplain : (Lexeme.hexadecimal ('0' :: x :: s) s).IsPlain :=
      hv.isPlain (by rw [hall]; exact List.mem_singleton_self _)
    rw [Lexeme.hexadecimal, if_neg (by simp [hfits])] at hplain
    exact absurd hplain (Lexeme.not_isPlain_symbol _ _)

/-- The zero in front of a letter is a number of its own. -/
theorem isReadBefore_zero {c : Char} (hc : c ∈ ['o', 'O', 'b', 'B']) (s : List Char) :
    Lexeme.IsReadBefore ⟨['0'], some (.int 0)⟩ (c :: s) := by
  refine ⟨'0', c :: s, rfl, by simp, ?_⟩
  have hint : Decimal.int? ['0'] = some 0 := by decide
  have hx : ∀ x t, '0' :: c :: s = '0' :: x :: t → x ≠ 'x' ∧ x ≠ 'X' := by
    rintro x t heq
    obtain ⟨rfl, -⟩ := List.cons.inj (List.cons.inj heq).2
    constructor <;> (rintro rfl; exact absurd hc (by decide))
  rw [Lexeme.first_of_isDigit (by decide), Lexeme.number_decimal hx]
  simp only [List.mem_cons, List.not_mem_nil, or_false] at hc
  rcases hc with rfl | rfl | rfl | rfl <;>
    simp [Lexeme.decimal, isDigitOrMark, Lexeme.fractionTail, Lexeme.exponentTail, dropMarks, hint]

/-- Behind a zero, a letter and the digits after it are a name. -/
theorem not_evaluates_letter {c : Char} (hc : c ∈ ['o', 'O', 'b', 'B']) {s : List Char}
    (h : Grouped Char.isDigit s) : ¬ Evaluates ctx ('0' :: c :: s) v := by
  have htail : ∀ d ∈ s, (d.isAlphanum || d == '_') = true := fun d hd ↦ by
    rcases h.eq_or_of_mem d hd with hd | rfl
    · simp [Char.isAlphanum, hd]
    · rfl
  have hidentifier : isIdentifier (c :: s) = true := by
    rw [isIdentifier, List.all_eq_true.mpr htail, Bool.and_true]
    simp only [List.mem_cons, List.not_mem_nil, or_false] at hc
    rcases hc with rfl | rfl | rfl | rfl <;> rfl
  have hname : (ofKind (.name (String.ofList (c :: s)))).IsReadBefore [] := by
    refine Lexeme.isReadBefore_name ?_ (by simp [Token.Kind.Stops])
    rw [String.toList_ofList]
    exact isName_of_isIdentifier hidentifier
  have hkinds : (all 0 ('0' :: c :: s)).filterMap Lexeme.kind
      = [.int 0, .name (String.ofList (c :: s))] := by
    have hzero := Lexeme.all_append_of_isReadBefore (isReadBefore_zero hc s)
    have hrest := Lexeme.all_append_of_isReadBefore hname
    simp only [ofKind, Token.Kind.spelling, String.toList_ofList, List.append_nil] at hrest
    rw [List.singleton_append, hrest] at hzero
    rw [hzero]
    rfl
  exact not_evaluates_of_name hkinds (Expression.unaryReads_nat 0)

/-- An integer literal is read as what it stands for, or not at all, except behind a zero where
base eight and base ten make a difference. -/
theorem decodes_text_iff (l : IntegerLiteral) :
    Decodes ctx l.text (some (l.constant wide)) ↔ l.IsFaithful wide := by
  cases l with
  | decimal s h =>
    obtain ⟨v, heval, hv⟩ := @evaluates_digits ctx wide s h
    exact (decodes_iff_of_evaluates heval hv).trans (iff_of_true rfl trivial)
  | leadingZero s h =>
    obtain ⟨v, heval, hv⟩ :=
      @evaluates_digits ctx wide ('0' :: s) (h.mono fun _ ↦ isDigit_of_isOctalDigit)
    refine (decodes_iff_of_evaluates heval hv).trans ?_
    rw [Option.some.injEq, eq_comm]
    rfl
  | hexadecimal x hx s h =>
    refine iff_of_true (fun v hv ↦ ⟨rfl, ?_⟩) trivial
    obtain ⟨hfits, rfl⟩ := evaluates_hexadecimal hx h hv
    simp [constant, constantOf, base, digits, hfits, Value.constant?]
  | octal o ho s h =>
    have hletter : o ∈ ['o', 'O', 'b', 'B'] := by rcases ho with rfl | rfl <;> decide
    exact iff_of_true (fun v hv ↦ absurd hv
      (not_evaluates_letter hletter (h.mono fun _ ↦ isDigit_of_isOctalDigit))) trivial
  | binary b hb s h =>
    have hletter : b ∈ ['o', 'O', 'b', 'B'] := by rcases hb with rfl | rfl <;> decide
    exact iff_of_true (fun v hv ↦ absurd hv
      (not_evaluates_letter hletter (h.mono fun _ ↦ isDigit_of_isBinaryDigit))) trivial

/-! ## Digits behind a zero -/

theorem digitValue_lt_eight {c : Char} (h : isOctalDigit c = true) : Decimal.digitValue c < 8 := by
  simp only [isOctalDigit, Bool.and_eq_true, decide_eq_true_eq] at h
  obtain ⟨hlow, hhigh⟩ := h
  have hnine : c ≤ '9' := Char.le_trans hhigh (by decide)
  have hle : c.toNat ≤ 55 := hhigh
  have hzero : '0'.toNat = 48 := rfl
  simp only [Decimal.digitValue, hlow, hnine, and_self, if_true]
  omega

theorem value_eight_le (ds : List Char) : Decimal.value 8 ds ≤ Decimal.value 10 ds := by
  induction ds using List.reverseRecOn with
  | nil => exact le_rfl
  | append_singleton ds d ih =>
    rw [Decimal.value_append_singleton, Decimal.value_append_singleton]
    omega

/-- Only for one digit base eight and base ten are the same. -/
theorem value_eight_eq_iff {ds : List Char} (h : ∀ d ∈ ds, isOctalDigit d = true) :
    Decimal.value 8 ds = Decimal.value 10 ds ↔ Decimal.value 10 ds < 8 := by
  cases ds using List.reverseRecOn with
  | nil => simp [Decimal.value]
  | append_singleton ds d =>
    have hle := value_eight_le ds
    have hd := digitValue_lt_eight (h d (by simp))
    rw [Decimal.value_append_singleton, Decimal.value_append_singleton]
    omega

theorem isFaithful_leadingZero_iff {s : List Char} (h : Grouped isOctalDigit ('0' :: s))
    (hs : s ≠ []) (hfits : Decimal.fits (Decimal.value 8 (dropMarks ('0' :: s))) = true) :
    (leadingZero s h hs).IsFaithful wide ↔ Decimal.value 10 (dropMarks ('0' :: s)) < 8 := by
  have hdigits : ∀ d ∈ dropMarks ('0' :: s), isOctalDigit d = true := by
    intro d hd
    obtain ⟨hd, hmark⟩ := List.mem_filter.mp hd
    exact (h.eq_or_of_mem d hd).resolve_right (by simpa using hmark)
  rw [← value_eight_eq_iff hdigits, IsFaithful, constantOf, constantOf, if_pos hfits]
  constructor
  · intro heq
    split at heq
    · rw [Constant.int.injEq, Int.natCast_inj] at heq
      exact heq.symm
    · simp at heq
  · intro heq
    rw [← heq, if_pos hfits]

end IntegerLiteral

end FrontendSync.Php
