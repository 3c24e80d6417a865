import Mathlib.Order.Bounds.Defs
import FrontendSync.Proofs.Php.Steps
import FrontendSync.Proofs.Php.WellFormed

/-!
# The grammar of constant expressions

Which tokens are a constant expression, and of which value.  The grammar says nothing of how
expressions are read: a key that is not written is the least one that is free, and a key that is
written more than once has one entry.
-/

namespace FrontendSync.Php

/-! ## Keys -/

/-- The key that a value becomes.  Null is the empty text, truth values and floating point numbers
become integers of 64 bits, and so does the decimal text of one.  Arrays and cases are no keys. -/
inductive IsKey : Value → Key → Prop
  | null : IsKey .null (.string "")
  | bool (b : Bool) : IsKey (.bool b) (.int (if b then 1 else 0))
  | int (n : Int) : IsKey (.int n) (.int n)
  | float (x : Binary64) : IsKey (.float x) (.int x.toInt64)
  | decimal {n : Int} : Decimal.fits n = true → IsKey (.string (Decimal.ofInt n)) (.int n)
  | text {s : String} : (∀ n, Decimal.fits n = true → Decimal.ofInt n ≠ s) →
      IsKey (.string s) (.string s)

theorem Key.ofString_eq_iff {s : String} {k : Key} :
    Key.ofString s = k ↔ IsKey (.string s) k := by
  unfold Key.ofString
  constructor
  · rintro rfl
    split
    · rename_i n hn
      have hs := beq_iff_eq.mp (Option.filter_eq_some_iff.mp hn).2
      have htext : Decimal.ofInt n = s := by rw [Decimal.ofInt, hs, String.ofList_toList]
      exact htext ▸ .decimal (Decimal.fits_of_canonicalInt? hn)
    · rename_i hnone
      exact .text (Decimal.canonicalInt?_eq_none_iff.mp hnone)
  · intro h
    cases h with
    | decimal hn => rw [Decimal.ofInt, String.toList_ofList, Decimal.canonicalInt?_intDigits hn]
    | text hs => rw [Decimal.canonicalInt?_eq_none_iff.mpr hs]

theorem key?_eq_some_iff {v : Value} {k : Key} : v.key? = some k ↔ IsKey v k := by
  cases v with
  | string s => rw [Value.key?, Option.some.injEq, Key.ofString_eq_iff]
  | null =>
    constructor
    · rintro ⟨⟩
      exact .null
    · rintro ⟨⟩
      rfl
  | bool b =>
    constructor
    · rintro ⟨⟩
      exact .bool b
    · rintro ⟨⟩
      rfl
  | int n =>
    constructor
    · rintro ⟨⟩
      exact .int n
    · rintro ⟨⟩
      rfl
  | float x =>
    constructor
    · rintro ⟨⟩
      exact .float x
    · rintro ⟨⟩
      rfl
  | array es => constructor <;> rintro ⟨⟩
  | enumCase c n => constructor <;> rintro ⟨⟩

/-! ## Arrays -/

/-- An entry with the key it is written with, if there is one. -/
abbrev WrittenEntry := Option Key × Value

/-- The indices that are free after some entries: none is negative, and each comes after every
integer among the keys. -/
def freeIndices (es : List (Key × Value)) : Set Int :=
  {n | 0 ≤ n ∧ ∀ m, Key.int m ∈ Ordered.keys es → m < n}

/-- Entries under the keys they are written with, or under the least index that is free. -/
inductive Keyed : List WrittenEntry → List (Key × Value) → Prop
  | nil : Keyed [] []
  | given {is : List WrittenEntry} {es : List (Key × Value)} {k : Key} {v : Value} : Keyed is es →
      Keyed (is ++ [(some k, v)]) (es ++ [(k, v)])
  | next {is : List WrittenEntry} {es : List (Key × Value)} {n : Int} {v : Value} : Keyed is es →
      IsLeast (freeIndices es) n → Keyed (is ++ [(none, v)]) (es ++ [(.int n, v)])

/-- What an array keeps of entries: each key once, in the place where it comes first, with the
value that comes last. -/
structure Kept (es entries : List (Key × Value)) : Prop where
  keys : Ordered.keys entries = (Ordered.keys es).eraseDups
  values : ∀ k, Ordered.get? k entries = Ordered.get? k es.reverse

/-- The entries of the array that is written with the given ones. -/
def Denotes (is : List WrittenEntry) (entries : List (Key × Value)) : Prop :=
  ∃ es, Keyed is es ∧ Kept es entries

theorem kept_iff {es entries : List (Key × Value)} :
    Kept es entries ↔ entries = Ordered.ofList es := by
  constructor
  · rintro ⟨hkeys, hvalues⟩
    have hnodup : (Ordered.keys entries).Nodup := hkeys ▸ nodup_eraseDups _
    rw [← Ordered.filterMap_get?_keys hnodup,
      ← Ordered.filterMap_get?_keys (Ordered.nodup_keys_ofList es), Ordered.keys_ofList, hkeys]
    simp only [hvalues, Ordered.get?_ofList]
  · rintro rfl
    exact ⟨Ordered.keys_ofList es, fun k ↦ Ordered.get?_ofList k es⟩

/-! ## Expressions -/

namespace Expression

/-- What tokens are to stand for. -/
inductive Form where
  | expression (v : Value)
  | operand (v : Value)
  | primary (v : Value)
  | entry (e : WrittenEntry)
  | entries (es : List WrittenEntry)

/-- A name and a double colon stand for a class. -/
def NamesClass (ctx : Context) (className : String) (name colon : Token) : Prop :=
  colon.isPunct .doubleColon = true ∧
    ∃ text, name.name? = some text ∧ className? ctx text = some className

/-- The tokens that stand for a value, for an entry of an array, or for all its entries.  Entries
have commas between them, and the last one may have a comma behind it. -/
inductive Derives (ctx : Context) : Form → List Token → Prop
  | operand {v : Value} {us : List Token} : Derives ctx (.operand v) us →
      Derives ctx (.expression v) us
  | join {v w : Value} {l r : String} {us ws : List Token} {t : Token} :
      Derives ctx (.expression v) us → t.isPunct .dot = true → Derives ctx (.operand w) ws →
      v.joinText? = some l → w.joinText? = some r →
      Derives ctx (.expression (.string (l ++ r))) (us ++ t :: ws)
  | plus {v : Value} {us : List Token} {t : Token} : t.isPunct .plus = true →
      Derives ctx (.operand v) us → Derives ctx (.operand v) (t :: us)
  | minusInt {n : Int} {us : List Token} {t : Token} : t.isPunct .minus = true →
      Derives ctx (.operand (.int n)) us → Derives ctx (.operand (.int (-n))) (t :: us)
  | minusFloat {x : Binary64} {us : List Token} {t : Token} : t.isPunct .minus = true →
      Derives ctx (.operand (.float x)) us → Derives ctx (.operand (.float (-x))) (t :: us)
  | primary {v : Value} {us : List Token} : Derives ctx (.primary v) us →
      Derives ctx (.operand v) us
  | string {s : String} {t : Token} : t.kind = .string s → Derives ctx (.primary (.string s)) [t]
  | int {n : Int} {t : Token} : t.kind = .int n → Derives ctx (.primary (.int n)) [t]
  | float {x : Binary64} {t : Token} : t.kind = .float x → Derives ctx (.primary (.float x)) [t]
  | null {t : Token} : t.isKeyword "null" = true → Derives ctx (.primary .null) [t]
  | false {t : Token} : t.isKeyword "false" = true → Derives ctx (.primary (.bool false)) [t]
  | true {t : Token} : t.isKeyword "true" = true → Derives ctx (.primary (.bool true)) [t]
  | parens {v : Value} {us : List Token} {o c : Token} : o.isPunct .parenOpen = true →
      Derives ctx (.expression v) us → c.isPunct .parenClose = true →
      Derives ctx (.primary v) (o :: us ++ [c])
  | list {is : List WrittenEntry} {entries : List (Key × Value)} {us : List Token} {o c : Token} :
      o.isPunct .bracketOpen = true → Derives ctx (.entries is) us →
      c.isPunct .bracketClose = true → Denotes is entries →
      Derives ctx (.primary (.array entries)) (o :: us ++ [c])
  | array {is : List WrittenEntry} {entries : List (Key × Value)} {us : List Token}
      {a o c : Token} : a.isKeyword "array" = true → o.isPunct .parenOpen = true →
      Derives ctx (.entries is) us → c.isPunct .parenClose = true → Denotes is entries →
      Derives ctx (.primary (.array entries)) (a :: o :: us ++ [c])
  | className {className : String} {n d m : Token} : NamesClass ctx className n d →
      m.isKeyword "class" = true → Derives ctx (.primary (.string className)) [n, d, m]
  | enumCase {className caseName : String} {n d m : Token} : NamesClass ctx className n d →
      m.name? = some caseName → m.isKeyword "class" = false →
      Derives ctx (.primary (.enumCase className caseName)) [n, d, m]
  | caseName {className caseName : String} {n d m a p : Token} : NamesClass ctx className n d →
      m.name? = some caseName → m.isKeyword "class" = false → IsArrow a →
      p.name? = some "name" → Derives ctx (.primary (.string caseName)) [n, d, m, a, p]
  | caseValue {className caseName : String} {v : Value} {n d m a p : Token} :
      NamesClass ctx className n d → m.name? = some caseName → m.isKeyword "class" = false →
      IsArrow a → p.name? = some "value" → ctx.caseValue className caseName = some v →
      Derives ctx (.primary v) [n, d, m, a, p]
  | value {v : Value} {us : List Token} : Derives ctx (.expression v) us →
      Derives ctx (.entry (none, v)) us
  | keyed {k v : Value} {key : Key} {ks us : List Token} {a : Token} :
      Derives ctx (.expression k) ks → IsKey k key → a.isPunct .doubleArrow = true →
      Derives ctx (.expression v) us → Derives ctx (.entry (some key, v)) (ks ++ a :: us)
  | none : Derives ctx (.entries []) []
  | last {e : WrittenEntry} {us : List Token} : Derives ctx (.entry e) us →
      Derives ctx (.entries [e]) us
  | more {e : WrittenEntry} {es : List WrittenEntry} {us ws : List Token} {c : Token} :
      Derives ctx (.entry e) us → c.isPunct .comma = true → Derives ctx (.entries es) ws →
      Derives ctx (.entries (e :: es)) (us ++ c :: ws)

/-- Only the entries of an array may be no tokens at all. -/
theorem Derives.ne_nil {ctx : Context} {form : Form} {us : List Token} (h : Derives ctx form us)
    (hform : ∀ es, form ≠ .entries es) : us ≠ [] := by
  induction h with
  | operand _ ih | primary _ ih | value _ ih => exact ih fun _ ↦ Form.noConfusion
  | none | last | more => exact absurd rfl (hform _)
  | _ => simp

/-! ## Where expressions end -/

/-- Whether an operand goes on with a token behind it.  Its own tokens are given from the last to
the first: a name may be that of a class, unless it is the name of a member already, and a case may
have a property. -/
def operandGoesOn : List Token → Token → Prop
  | [], _ => False
  | [n], t => n.name?.isSome = true ∧ t.isPunct .doubleColon = true
  | n :: d :: _, t => n.name?.isSome = true ∧
      if d.isPunct .doubleColon = true then n.isKeyword "class" = false ∧ IsArrow t
      else ¬ IsArrow d ∧ t.isPunct .doubleColon = true

/-- Whether an expression goes on with a token behind it: any does with a dot. -/
def GoesOn (us : List Token) (t : Token) : Prop :=
  t.isPunct .dot = true ∨ operandGoesOn us.reverse t

/-- The operand that ends before `rest` is complete. -/
def OperandStops (us rest : List Token) : Prop := ∀ t ∈ rest.head?, ¬ operandGoesOn us.reverse t

/-- The expression that ends before `rest` is complete. -/
def Stops (us rest : List Token) : Prop := ∀ t ∈ rest.head?, ¬ GoesOn us t

theorem not_isArrow {t : Token} {p : Punct} (h : t.isPunct p = true)
    (hp : p ∉ [Punct.arrow, .nullsafeArrow]) : ¬ IsArrow t := by
  simp only [List.mem_cons, List.not_mem_nil, or_false, not_or] at hp
  rintro (ht | ht)
  · exact Bool.noConfusion (ht.symm.trans (Token.isPunct_eq_false h hp.1))
  · exact Bool.noConfusion (ht.symm.trans (Token.isPunct_eq_false h hp.2))

/-- Nothing goes on behind a token that is no name. -/
theorem operandStops_append_singleton (us : List Token) {c : Token} (hc : c.name? = none)
    (rest : List Token) : OperandStops (us ++ [c]) rest := by
  intro t _ h
  rw [List.reverse_append] at h
  cases hus : us.reverse with
  | nil => simp [hus, operandGoesOn, hc] at h
  | cons d ds => simp [hus, operandGoesOn, hc] at h

/-- The marks that a member of a class comes behind. -/
def memberMarks : List Punct := [.doubleColon, .arrow, .nullsafeArrow]

/-- An operand goes on as its last operand does. -/
theorem operandStops_append_cons {us ws : List Token} {d : Token} {p : Punct}
    (hd : d.isPunct p = true) (hp : p ∉ memberMarks) (hws : ws ≠ []) {rest : List Token} :
    OperandStops (us ++ d :: ws) rest ↔ OperandStops ws rest := by
  simp only [memberMarks, List.mem_cons, List.not_mem_nil, or_false, not_or] at hp
  have hcolon : d.isPunct .doubleColon = false := Token.isPunct_eq_false hd hp.1
  have harrow : ¬ IsArrow d := not_isArrow hd (by simpa using hp.2)
  have hreverse : (us ++ d :: ws).reverse = ws.reverse ++ d :: us.reverse := by simp
  unfold OperandStops
  rw [hreverse]
  have hne : ws.reverse ≠ [] := mt List.reverse_eq_nil_iff.mp hws
  match hr : ws.reverse with
  | [] => exact absurd hr hne
  | [n] => simp [operandGoesOn, hcolon, harrow]
  | n :: e :: more => simp [operandGoesOn]

/-- A sign changes nothing of where an operand ends. -/
theorem operandStops_cons_iff {ws : List Token} {d : Token} {p : Punct} (hd : d.isPunct p = true)
    (hp : p ∉ memberMarks) (hws : ws ≠ []) {rest : List Token} :
    OperandStops (d :: ws) rest ↔ OperandStops ws rest := by
  rw [← List.nil_append (d :: ws)]
  exact operandStops_append_cons hd hp hws

/-- Only the marks of members go on with an operand. -/
theorem operandStops_cons {t : Token} {p : Punct} (ht : t.isPunct p = true) (hp : p ∉ memberMarks)
    (us rest : List Token) : OperandStops us (t :: rest) := by
  simp only [memberMarks, List.mem_cons, List.not_mem_nil, or_false, not_or] at hp
  rintro u hu h
  obtain rfl := Option.some.inj hu
  have hcolon : t.isPunct .doubleColon = false := Token.isPunct_eq_false ht hp.1
  have harrow : ¬ IsArrow t := not_isArrow ht (by simpa using hp.2)
  match hr : us.reverse with
  | [] => simp [hr, operandGoesOn] at h
  | [n] => simp [hr, operandGoesOn, hcolon] at h
  | n :: d :: more => simp [hr, operandGoesOn, hcolon, harrow] at h

theorem stops_iff {us rest : List Token} :
    Stops us rest ↔ (∀ t ∈ rest.head?, t.isPunct .dot = false) ∧ OperandStops us rest := by
  simp only [Stops, GoesOn, OperandStops, not_or, Bool.not_eq_true]
  exact ⟨fun h ↦ ⟨fun t ht ↦ (h t ht).1, fun t ht ↦ (h t ht).2⟩, fun h t ht ↦ ⟨h.1 t ht, h.2 t ht⟩⟩

theorem stops_cons {t : Token} {p : Punct} (ht : t.isPunct p = true)
    (hp : p ∉ Punct.dot :: memberMarks) (us rest : List Token) : Stops us (t :: rest) := by
  obtain ⟨hdot, hmember⟩ : p ≠ .dot ∧ p ∉ memberMarks := by simpa using hp
  refine stops_iff.mpr ⟨fun u hu ↦ ?_, operandStops_cons ht hmember us rest⟩
  obtain rfl := Option.some.inj hu
  exact Token.isPunct_eq_false ht hdot

end Expression

end FrontendSync.Php
