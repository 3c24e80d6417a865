import FrontendSync.Proofs.Php.Run

/-!
# Values of expressions

What holds of the values of expressions because it holds of what tokens stand for, and is kept by
signs and by the entries of arrays.  The proof is an induction on the runs of the readers.  So an
expression over well-formed tokens has a well-formed value, provided that the values of cases it may
refer to are well-formed.
-/

namespace FrontendSync.Php

open Token (AllWellFormed)

/-- A property that every value of an expression has, if `Good` holds of the tokens: literals, words
and the known values of cases have it, and signs and arrays keep it. -/
structure Context.Keeps (ctx : Context) (Good : Token.Kind → Prop) (P : Value → Prop) : Prop where
  null : P .null
  bool (b : Bool) : P (.bool b)
  string (text : String) : P (.string text)
  int {n : Int} : Good (.int n) → P (.int n)
  float {x : Binary64} : Good (.float x) → P (.float x)
  enumCase (className : String) {caseName : String} :
    Good (.name caseName) → P (.enumCase className caseName)
  caseValue (className caseName : String) (v : Value) :
    ctx.caseValue className caseName = some v → P v
  negate {v w : Value} : P v → Expression.negate? v = some w → P w
  empty : P (.array [])
  keyed {entries : List (Key × Value)} {k v : Value} {key : Key} : P (.array entries) → P k →
    k.key? = some key → P v → P (.array (Ordered.insert key v entries))
  listed {entries : List (Key × Value)} {index : Int} {v : Value} : P (.array entries) →
    Decimal.fits index = true → P v → P (.array (Ordered.insert (.int index) v entries))

/-- A reading of a value with a property that leaves tokens with theirs. -/
def Reading.Holds (Good : Token.Kind → Prop) (P : Value → Prop) {n : Nat} : Reading Value n → Prop
  | .value v rest _ => P v ∧ ∀ t ∈ rest, Good t.kind
  | .error _ _ => True

section Keeps

variable {Good : Token.Kind → Prop} {P : Value → Prop}

theorem Reading.holds_of_forall {n : Nat} {r : Reading Value n}
    (h : ∀ v rest, r.Is v rest → P v ∧ ∀ t ∈ rest, Good t.kind) : r.Holds Good P := by
  cases r with
  | value v rest hlt => exact h v rest (is_value hlt)
  | error => trivial

theorem Token.good_of_name? {t : Token} (h : Good t.kind) {text : String}
    (ht : t.name? = some text) : Good (.name text) := by
  unfold name? at ht
  split at ht
  · rename_i name hkind
    obtain rfl := Option.some.inj ht
    exact hkind ▸ h
  · simp at ht

namespace Expression

variable {ctx : Context}

/-- The index after a key fits whenever the one before it does. -/
theorem fits_nextIndex {index : Int} (h : Decimal.fits index = true) (k : Key) :
    Decimal.fits (nextIndex index k) = true := by
  unfold nextIndex
  split
  · split
    · exact Decimal.fits_wrap _
    · exact h
  · exact h

theorem Run.all_good {r : Reader} {ts rest : List Token} {v : Value} (h : Run ctx r ts v rest)
    (hts : ∀ t ∈ ts, Good t.kind) : ∀ t ∈ rest, Good t.kind :=
  fun t ht ↦ hts t (h.suffix.subset ht)

/-- What a reader already has when it begins has the property, and its index fits. -/
def Reader.Begins (P : Value → Prop) : Reader → Prop
  | .expression | .operand => True
  | .joined v => P v
  | .array _ entries index | .afterEntry _ entries index =>
    P (.array entries) ∧ Decimal.fits index = true

theorem NamesLiteral.keeps (hctx : ctx.Keeps Good P) {t : Token} {v : Value}
    (h : NamesLiteral t v) : P v := by
  cases h with
  | null => exact hctx.null
  | false => exact hctx.bool _
  | true => exact hctx.bool _

theorem Run.keeps (hctx : ctx.Keeps Good P) {r : Reader} {ts rest : List Token} {v : Value}
    (h : Run ctx r ts v rest) (hts : ∀ t ∈ ts, Good t.kind) (hr : r.Begins P) : P v := by
  induction h with
  | expression hv _ ih ih' => exact ih' (hv.all_good hts) (ih hts trivial)
  | alone => exact hr
  | dot _ hw _ _ _ _ ih' =>
    exact ih' (hw.all_good (List.forall_mem_cons.mp hts).2) (hctx.string _)
  | plus _ _ ih => exact ih (List.forall_mem_cons.mp hts).2 trivial
  | minus _ _ hw ih => exact hctx.negate (ih (List.forall_mem_cons.mp hts).2 trivial) hw
  | string => exact hctx.string _
  | int ht => exact hctx.int (ht ▸ (List.forall_mem_cons.mp hts).1)
  | float ht => exact hctx.float (ht ▸ (List.forall_mem_cons.mp hts).1)
  | word ht => exact ht.keeps hctx
  | parens _ _ _ ih => exact ih (List.forall_mem_cons.mp hts).2 trivial
  | list _ _ ih => exact ih (List.forall_mem_cons.mp hts).2 ⟨hctx.empty, by decide⟩
  | array _ _ _ ih =>
    have htail := (List.forall_mem_cons.mp hts).2
    exact ih (List.forall_mem_cons.mp htail).2 ⟨hctx.empty, by decide⟩
  | className | caseName => exact hctx.string _
  | enumCase _ hm => exact hctx.enumCase _ (Token.good_of_name? (hts _ (by simp)) hm)
  | caseValue _ _ _ _ _ hv => exact hctx.caseValue _ _ _ hv
  | closed | ended => exact hr.1
  | keyed hk _ hkey hv _ ih ih' ih'' =>
    have hafter := (List.forall_mem_cons.mp (hk.all_good hts)).2
    exact ih'' (hv.all_good hafter)
      ⟨hctx.keyed hr.1 (ih hts trivial) hkey (ih' hafter trivial), fits_nextIndex hr.2 _⟩
  | listed hv _ _ ih ih' =>
    exact ih' (hv.all_good hts) ⟨hctx.listed hr.1 hr.2 (ih hts trivial), fits_nextIndex hr.2 _⟩
  | comma _ _ ih => exact ih (List.forall_mem_cons.mp hts).2 hr

variable {ts : List Token}

theorem holds_read (hctx : ctx.Keeps Good P) (h : ∀ t ∈ ts, Good t.kind) :
    (read ctx ts).Holds Good P :=
  Reading.holds_of_forall fun _ _ hread ↦
    ⟨(run_of_read hread).keeps hctx h trivial, (run_of_read hread).all_good h⟩

theorem holds_unary (hctx : ctx.Keeps Good P) (h : ∀ t ∈ ts, Good t.kind) :
    (unary ctx ts).Holds Good P :=
  Reading.holds_of_forall fun _ _ hread ↦
    ⟨(run_of_unary hread).keeps hctx h trivial, (run_of_unary hread).all_good h⟩

end Expression

end Keeps

/-! ## Well-formed values -/

/-- What is known of the values of cases is well-formed. -/
def Context.WellFormed (ctx : Context) : Prop :=
  ∀ className caseName v, ctx.caseValue className caseName = some v → v.WellFormed

theorem Context.WellFormed.keeps {ctx : Context} (hctx : ctx.WellFormed) :
    ctx.Keeps Token.Kind.WellFormed Value.WellFormed where
  null := .null
  bool := .bool
  string := .string
  int := .int
  float := .float
  enumCase _ _ := .enumCase
  caseValue := hctx
  negate := Value.WellFormed.of_negate?
  empty := .array (by simp [Ordered.keys]) (by simp) (by simp)
  keyed hentries hk hkey hv := hentries.insert (hk.isNormal_of_key? hkey) hv
  listed hentries hindex hv := hentries.insert (k := .int _) hindex hv

/-- A reading of a well-formed value that leaves well-formed tokens. -/
abbrev Reading.WellFormed {n : Nat} (r : Reading Value n) : Prop :=
  r.Holds Token.Kind.WellFormed Value.WellFormed

theorem Expression.wellFormed_read {ctx : Context} {ts : List Token} (hctx : ctx.WellFormed)
    (h : AllWellFormed ts) : (read ctx ts).WellFormed :=
  holds_read hctx.keeps h

end FrontendSync.Php
