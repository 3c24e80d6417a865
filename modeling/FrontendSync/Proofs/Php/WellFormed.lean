import FrontendSync.Php.Lexeme
import FrontendSync.Php.Expression
import FrontendSync.Proofs.Number.ReadText
import FrontendSync.Proofs.Ordered

/-!
# Well-formed tokens and values

What holds of every token of a source and of every value that an expression can have: integers fit
their 64 bits and are never the least one, floating point numbers are numbers of the format, the
keys of an array are distinct, and no text is a key that stands for an integer.
-/

namespace FrontendSync

namespace Decimal

/-- The integers that literals and their negations stand for. -/
def IsLiteral (n : Int) : Prop := -maxInt ≤ n ∧ n ≤ maxInt

theorem fits_iff {n : Int} : fits n = true ↔ minInt ≤ n ∧ n ≤ maxInt := by
  simp [fits]

theorem IsLiteral.fits {n : Int} (h : IsLiteral n) : fits n = true := by
  obtain ⟨hlow, hhigh⟩ := h
  refine fits_iff.mpr ⟨le_trans ?_ hlow, hhigh⟩
  decide

theorem IsLiteral.neg {n : Int} (h : IsLiteral n) : IsLiteral (-n) := by
  obtain ⟨hlow, hhigh⟩ := h
  constructor <;> omega

theorem fits_wrap (n : Int) : fits (wrap n) = true := by
  have hlow : -(0x10000000000000000 / 2 : Int) ≤ wrap n := Int.le_bmod (by decide)
  have hhigh : wrap n < (0x10000000000000000 + 1) / 2 := Int.bmod_lt (by decide)
  rw [fits_iff, minInt, maxInt]
  omega

theorem wrap_eq_self {n : Int} (h : fits n = true) : wrap n = n := by
  obtain ⟨hlow, hhigh⟩ := fits_iff.mp h
  rw [minInt] at hlow
  rw [maxInt] at hhigh
  exact Int.bmod_eq_of_le (by omega) (by omega)

theorem ofInt_injective {m n : Int} (hm : fits m = true) (hn : fits n = true)
    (h : ofInt m = ofInt n) : m = n := by
  have hdigits : intDigits m = intDigits n := String.ofList_injective h
  have hread := int?_intDigits hm
  rw [hdigits, int?_intDigits hn] at hread
  exact (Option.some.inj hread).symm

theorem canonicalInt?_intDigits {n : Int} (h : fits n = true) :
    canonicalInt? (intDigits n) = some n := by
  simp [canonicalInt?, int?_intDigits h]

theorem fits_of_canonicalInt? {s : List Char} {n : Int} (h : canonicalInt? s = some n) :
    fits n = true := by
  obtain ⟨hint, -⟩ := Option.filter_eq_some_iff.mp h
  unfold int? at hint
  split at hint <;> exact (Option.filter_eq_some_iff.mp hint).2

/-- A text that is the text of no integer of 64 bits. -/
theorem canonicalInt?_eq_none_iff {text : String} :
    canonicalInt? text.toList = none ↔ ∀ n, fits n = true → ofInt n ≠ text := by
  constructor
  · rintro h n hn rfl
    rw [ofInt, String.toList_ofList, canonicalInt?_intDigits hn] at h
    contradiction
  · intro h
    cases htext : canonicalInt? text.toList with
    | none => rfl
    | some n =>
      have hdigits := beq_iff_eq.mp (Option.filter_eq_some_iff.mp htext).2
      refine absurd ?_ (h n (fits_of_canonicalInt? htext))
      rw [ofInt, hdigits, String.ofList_toList]

end Decimal

theorem Binary64.fits_toInt64 (x : Binary64) : Decimal.fits x.toInt64 = true := by
  have hle : Decimal.minInt ≤ Decimal.maxInt := by decide
  rw [Decimal.fits_iff]
  cases x with
  | nan => decide
  | infinite s => cases s <;> decide
  | finite s m e =>
    simp only [toInt64]
    omega

namespace Php

/-- A text of the characters of names, and of backslashes as between their segments. -/
def HasNameChars (text : List Char) : Prop :=
  ∀ c ∈ text, Lexeme.isNameChar c = true ∨ c = '\\'

/-- What can be written as a name: no name starts with a digit. -/
structure IsNameText (text : String) : Prop where
  chars : HasNameChars text.toList
  head : text.toList.head?.any Char.isDigit = false

theorem isNameText_empty : IsNameText "" := ⟨by simp [HasNameChars], rfl⟩

namespace Token

def Kind.WellFormed : Kind → Prop
  | .name text => IsNameText text
  | .int n => Decimal.IsLiteral n
  | .float x => x.IsCanonical
  | _ => True

/-- All tokens of a list are well-formed. -/
def AllWellFormed (ts : List Token) : Prop := ∀ t ∈ ts, t.kind.WellFormed

namespace AllWellFormed

variable {t : Token} {ts us : List Token}

theorem nil : AllWellFormed [] := by simp [AllWellFormed]

theorem head (h : AllWellFormed (t :: ts)) : t.kind.WellFormed := h t List.mem_cons_self

theorem tail (h : AllWellFormed (t :: ts)) : AllWellFormed ts := fun u hu ↦
  h u (List.mem_cons_of_mem t hu)

theorem of_subset (h : AllWellFormed ts) (hu : us ⊆ ts) : AllWellFormed us := fun t ht ↦ h t (hu ht)

theorem of_suffix (h : AllWellFormed ts) (hu : us <:+ ts) : AllWellFormed us := h.of_subset hu.subset

end AllWellFormed

theorem isNameText_of_name? {t : Token} (h : t.kind.WellFormed) {text : String}
    (ht : t.name? = some text) : IsNameText text := by
  unfold name? at ht
  split at ht
  · rename_i name hkind
    rw [hkind] at h
    obtain rfl := Option.some.inj ht
    exact h
  · simp at ht

end Token

namespace Key

/-- A key of an array: no text is the decimal text of an integer. -/
def IsNormal : Key → Prop
  | .int n => Decimal.fits n = true
  | .string text => Decimal.canonicalInt? text.toList = none

theorem isNormal_ofString (text : String) : (ofString text).IsNormal := by
  unfold ofString
  split
  · rename_i n hn
    exact Decimal.fits_of_canonicalInt? hn
  · rename_i hn
    exact hn

/-- Different keys have different texts. -/
theorem text_injective {j k : Key} (hj : j.IsNormal) (hk : k.IsNormal) (h : j.text = k.text) :
    j = k := by
  have hmixed {n : Int} {s : String} (hn : IsNormal (.int n)) (hs : IsNormal (.string s)) :
      Decimal.ofInt n ≠ s := by
    rintro rfl
    have hcanonical := Decimal.canonicalInt?_intDigits hn
    rw [IsNormal, Decimal.ofInt, String.toList_ofList, hcanonical] at hs
    simp at hs
  cases j with
  | int m =>
    cases k with
    | int n => rw [Decimal.ofInt_injective hj hk h]
    | string s => exact absurd h (hmixed hj hk)
  | string s =>
    cases k with
    | int n => exact absurd h.symm (hmixed hk hj)
    | string t => exact congrArg Key.string h

end Key

namespace Value

theorem areFrom_iff {n : Nat} {ks : List Key} :
    areFrom n ks = true ↔ ks = (List.range' n ks.length).map fun m ↦ Key.int (m : Nat) := by
  induction ks generalizing n with
  | nil => simp [areFrom]
  | cons k ks ih => simp [areFrom, ih, List.range'_succ]

/-- The keys of a list are the numbers from zero on. -/
theorem isList_iff {entries : List (Key × Value)} :
    isList entries = true
      ↔ Ordered.keys entries = (List.range entries.length).map fun n ↦ Key.int (n : Nat) := by
  rw [isList, areFrom_iff, Ordered.keys, List.length_map, List.range_eq_range']

end Value

/-- A value that an expression can have. -/
inductive Value.WellFormed : Value → Prop
  | null : WellFormed .null
  | bool (b : Bool) : WellFormed (.bool b)
  | int {n : Int} : Decimal.IsLiteral n → WellFormed (.int n)
  | float {x : Binary64} : x.IsCanonical → WellFormed (.float x)
  | string (text : String) : WellFormed (.string text)
  | array {entries : List (Key × Value)} : (Ordered.keys entries).Nodup →
      (∀ e ∈ entries, e.1.IsNormal) → (∀ e ∈ entries, WellFormed e.2) →
      WellFormed (.array entries)
  | enumCase {className caseName : String} : IsNameText caseName →
      WellFormed (.enumCase className caseName)

namespace Value.WellFormed

theorem insert {entries : List (Key × Value)} {k : Key} {v : Value}
    (h : WellFormed (.array entries)) (hk : k.IsNormal) (hv : v.WellFormed) :
    WellFormed (.array (Ordered.insert k v entries)) := by
  cases h with
  | array hkeys hnormal hvalues =>
    constructor
    · exact Ordered.nodup_keys_insert hkeys
    · intro e he
      rcases Ordered.eq_or_mem_of_mem_insert he with rfl | he
      · exact hk
      · exact hnormal e he
    · intro e he
      rcases Ordered.eq_or_mem_of_mem_insert he with rfl | he
      · exact hv
      · exact hvalues e he

theorem isNormal_of_key? {v : Value} (h : v.WellFormed) {k : Key} (hk : v.key? = some k) :
    k.IsNormal := by
  cases h with
  | null =>
    obtain rfl := Option.some.inj hk
    rfl
  | bool b =>
    obtain rfl := Option.some.inj hk
    cases b <;> rfl
  | int hn =>
    obtain rfl := Option.some.inj hk
    exact hn.fits
  | float =>
    obtain rfl := Option.some.inj hk
    exact Binary64.fits_toInt64 _
  | string text =>
    obtain rfl := Option.some.inj hk
    exact Key.isNormal_ofString text
  | array => simp [Value.key?] at hk
  | enumCase => simp [Value.key?] at hk

theorem of_negate? {v w : Value} (h : v.WellFormed) (hw : Expression.negate? v = some w) :
    w.WellFormed := by
  cases h with
  | int hn =>
    obtain rfl := Option.some.inj hw
    exact .int hn.neg
  | float hx =>
    obtain rfl := Option.some.inj hw
    exact .float (Binary64.isCanonical_neg hx)
  | null | bool | string | array | enumCase => simp [Expression.negate?] at hw

end Value.WellFormed

end Php

end FrontendSync
