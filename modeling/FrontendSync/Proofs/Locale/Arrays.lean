import FrontendSync.Locale.Tree
import FrontendSync.Proofs.Php.Constant
import FrontendSync.Proofs.Php.Evaluation
import FrontendSync.Proofs.Php.Grammar.Sound

/-!
# Arrays as trees

Each key of an array that an expression has as its value, or inside of it, stands there once, and no
text among the keys is the decimal text of an integer.  So different keys have different texts, and
a tree has every entry of the array in its place.
-/

namespace FrontendSync

namespace Php

/-! ## Arrays inside of values -/

/-- The arrays at and below a value, by their entries. -/
inductive Value.HasArray : Value → List (Key × Value) → Prop
  | self (entries : List (Key × Value)) : HasArray (.array entries) entries
  | inside {entries es : List (Key × Value)} {e : Key × Value} : e ∈ entries → HasArray e.2 es →
      HasArray (.array entries) es

/-- Something holds of the entries of each array at and below a value. -/
def Value.AllArrays (Q : List (Key × Value) → Prop) (v : Value) : Prop :=
  ∀ entries, v.HasArray entries → Q entries

namespace Value.AllArrays

variable {Q : List (Key × Value) → Prop} {v : Value}

theorem of_ne_array (h : ∀ entries, v ≠ .array entries) : v.AllArrays Q := by
  rintro es (⟨entries⟩ | ⟨_, _⟩)
  · exact absurd rfl (h es)
  · exact absurd rfl (h _)

theorem entries {entries : List (Key × Value)} (h : AllArrays Q (.array entries)) : Q entries :=
  h entries (.self entries)

theorem array {entries : List (Key × Value)} (h : Q entries)
    (hvalues : ∀ e ∈ entries, AllArrays Q e.2) : AllArrays Q (.array entries) := by
  rintro es (⟨_⟩ | ⟨he, hes⟩)
  · exact h
  · exact hvalues _ he es hes

theorem insert {entries : List (Key × Value)} {k : Key} (h : AllArrays Q (.array entries))
    (hinsert : Q (Ordered.insert k v entries)) (hv : v.AllArrays Q) :
    AllArrays Q (.array (Ordered.insert k v entries)) := by
  refine array hinsert fun e he ↦ ?_
  rcases Ordered.eq_or_mem_of_mem_insert he with rfl | he
  · exact hv
  · exact fun es hes ↦ h es (.inside he hes)

end Value.AllArrays

/-! ## Keys -/

/-- A key that is no decimal text of an integer of 64 bits. -/
def Key.IsNoNumeral (k : Key) : Prop :=
  ∀ s, k = .string s → ∀ n, Decimal.fits n = true → Decimal.ofInt n ≠ s

/-- The keys of an array: each stands there once, and none is the decimal text of an integer of
64 bits. -/
structure HasNormalKeys (entries : List (Key × Value)) : Prop where
  nodup : (Ordered.keys entries).Nodup
  isNoNumeral : ∀ k ∈ Ordered.keys entries, k.IsNoNumeral

/-- The integers among the keys have 64 bits. -/
def HasKeysThatFit (entries : List (Key × Value)) : Prop :=
  ∀ n, Key.int n ∈ Ordered.keys entries → Decimal.fits n = true

theorem Key.isNoNumeral_int (n : Int) : (Key.int n).IsNoNumeral := fun _ h ↦ nomatch h

theorem Key.IsNormal.isNoNumeral {k : Key} (h : k.IsNormal) : k.IsNoNumeral := by
  rintro s rfl
  exact Decimal.canonicalInt?_eq_none_iff.mp h

/-- The texts of values are normal as keys, whatever the value is. -/
theorem Value.isNoNumeral_of_key? {v : Value} {k : Key} (h : v.key? = some k) :
    k.IsNoNumeral := by
  cases v with
  | null =>
    obtain rfl := Option.some.inj h
    exact Key.IsNormal.isNoNumeral (k := .string "") rfl
  | string text =>
    obtain rfl := Option.some.inj h
    exact (Key.isNormal_ofString text).isNoNumeral
  | bool b =>
    obtain rfl := Option.some.inj h
    exact Key.isNoNumeral_int _
  | int n =>
    obtain rfl := Option.some.inj h
    exact Key.isNoNumeral_int _
  | float x =>
    obtain rfl := Option.some.inj h
    exact Key.isNoNumeral_int _
  | array | enumCase => simp [Value.key?] at h

theorem HasNormalKeys.nil : HasNormalKeys [] := ⟨List.nodup_nil, fun _ h ↦ (nomatch h)⟩

theorem HasNormalKeys.insert {entries : List (Key × Value)} (h : HasNormalKeys entries) {k : Key}
    (hk : k.IsNoNumeral) (v : Value) : HasNormalKeys (Ordered.insert k v entries) := by
  refine ⟨Ordered.nodup_keys_insert h.nodup, fun j hj ↦ ?_⟩
  rcases Ordered.mem_keys_insert_iff.mp hj with hj | rfl
  · exact h.isNoNumeral j hj
  · exact hk

theorem HasKeysThatFit.insert {entries : List (Key × Value)} (h : HasKeysThatFit entries) {k : Key}
    (hk : ∀ n, k = .int n → Decimal.fits n = true) (v : Value) :
    HasKeysThatFit (Ordered.insert k v entries) := by
  intro n hn
  rcases Ordered.mem_keys_insert_iff.mp hn with hn | hn
  · exact h n hn
  · exact hk n hn.symm

/-! ## Arrays of expressions -/

/-- What is known of the values of cases has normal keys in its arrays. -/
def Context.HasNormalKeys (ctx : Context) : Prop :=
  ∀ className caseName v, ctx.caseValue className caseName = some v →
    v.AllArrays Php.HasNormalKeys

theorem Context.HasNormalKeys.keeps {ctx : Context} (hctx : ctx.HasNormalKeys) :
    ctx.Keeps (fun _ ↦ True) (Value.AllArrays Php.HasNormalKeys) where
  null := .of_ne_array (by simp)
  bool _ := .of_ne_array (by simp)
  string _ := .of_ne_array (by simp)
  int _ := .of_ne_array (by simp)
  float _ := .of_ne_array (by simp)
  enumCase _ _ _ := .of_ne_array (by simp)
  caseValue := hctx
  negate {v w} _ h := by
    cases v with
    | int n =>
      obtain rfl := Option.some.inj h
      exact .of_ne_array (by simp)
    | float x =>
      obtain rfl := Option.some.inj h
      exact .of_ne_array (by simp)
    | null | bool | string | array | enumCase => simp [Expression.negate?] at h
  empty := .array .nil (by simp)
  keyed hentries _ hkey hv :=
    hentries.insert (hentries.entries.insert (Value.isNoNumeral_of_key? hkey) _) hv
  listed hentries _ hv := hentries.insert (hentries.entries.insert (Key.isNoNumeral_int _) _) hv

/-- Integers as literals and their negations stand for them, and keys that fit 64 bits. -/
structure Value.HasLiteralInts (v : Value) : Prop where
  int : ∀ n, v = .int n → Decimal.IsLiteral n
  keys : v.AllArrays HasKeysThatFit

/-- Integer tokens are those of literals. -/
def Token.Kind.IsLiteralInt (k : Kind) : Prop := ∀ n, k = .int n → Decimal.IsLiteral n

theorem Token.Kind.WellFormed.isLiteralInt {k : Kind} (h : k.WellFormed) : k.IsLiteralInt := by
  rintro n rfl
  exact h

def Context.HasLiteralInts (ctx : Context) : Prop :=
  ∀ className caseName v, ctx.caseValue className caseName = some v → v.HasLiteralInts

namespace Value.HasLiteralInts

theorem of_ne {v : Value} (hint : ∀ n, v ≠ .int n) (harray : ∀ entries, v ≠ .array entries) :
    v.HasLiteralInts := ⟨fun n hn ↦ absurd hn (hint n), .of_ne_array harray⟩

theorem of_int {n : Int} (h : Decimal.IsLiteral n) : HasLiteralInts (.int n) := by
  refine ⟨fun m hm ↦ ?_, .of_ne_array (by simp)⟩
  obtain rfl := Value.int.inj hm
  exact h

theorem insert {entries : List (Key × Value)} {k : Key} {v : Value}
    (h : HasLiteralInts (.array entries)) (hk : ∀ n, k = .int n → Decimal.fits n = true)
    (hv : v.HasLiteralInts) : HasLiteralInts (.array (Ordered.insert k v entries)) :=
  ⟨by simp, h.keys.insert (h.keys.entries.insert hk v) hv.keys⟩

/-- The key that a value becomes fits 64 bits. -/
theorem fits_of_key? {v : Value} (h : v.HasLiteralInts) {n : Int} (hk : v.key? = some (.int n)) :
    Decimal.fits n = true := by
  cases v with
  | int m =>
    obtain rfl := Key.int.inj (Option.some.inj hk)
    exact (h.int m rfl).fits
  | float x =>
    obtain rfl := Key.int.inj (Option.some.inj hk)
    exact Binary64.fits_toInt64 x
  | bool b =>
    obtain rfl := Key.int.inj (Option.some.inj hk)
    cases b <;> rfl
  | string text =>
    have hnormal := Key.isNormal_ofString text
    rw [Option.some.inj hk] at hnormal
    exact hnormal
  | null | array | enumCase => simp [Value.key?] at hk

end Value.HasLiteralInts

theorem Context.HasLiteralInts.keeps {ctx : Context} (hctx : ctx.HasLiteralInts) :
    ctx.Keeps Token.Kind.IsLiteralInt Value.HasLiteralInts where
  null := .of_ne (by simp) (by simp)
  bool _ := .of_ne (by simp) (by simp)
  string _ := .of_ne (by simp) (by simp)
  int h := .of_int (h _ rfl)
  float _ := .of_ne (by simp) (by simp)
  enumCase _ _ _ := .of_ne (by simp) (by simp)
  caseValue := hctx
  negate {v w} hv h := by
    cases v with
    | int n =>
      obtain rfl := Option.some.inj h
      exact .of_int (hv.int n rfl).neg
    | float x =>
      obtain rfl := Option.some.inj h
      exact .of_ne (by simp) (by simp)
    | null | bool | string | array | enumCase => simp [Expression.negate?] at h
  empty := ⟨by simp, .array (fun _ h ↦ nomatch h) (by simp)⟩
  keyed hentries hk hkey hv := by
    refine hentries.insert (fun n hn ↦ ?_) hv
    subst hn
    exact hk.fits_of_key? hkey
  listed hentries hindex hv := by
    refine hentries.insert (fun n hn ↦ ?_) hv
    rwa [← Key.int.inj hn]

end Php

/-! ## Trees of arrays -/

namespace Tree

open Php

/-- The keys are the positions, and there is at least one. -/
def IsPositional (entries : List (Key × Value)) : Prop :=
  entries ≠ [] ∧ ∀ (i : Nat) (e : Key × Value), entries[i]? = some e → e.1 = .int i

theorem isPositional_iff {entries : List (Key × Value)} :
    IsPositional entries ↔ (entries.isEmpty || !Value.isList entries) = false := by
  rw [Bool.or_eq_false_iff, Bool.not_eq_false', Value.isList_iff, IsPositional, Ordered.keys,
    List.isEmpty_eq_false_iff]
  refine and_congr_right fun _ ↦ ?_
  rw [List.ext_getElem?_iff]
  refine forall_congr' fun i ↦ ?_
  rw [List.getElem?_map, List.getElem?_map]
  by_cases hi : i < entries.length
  · simp [hi]
  · simp [hi]

theorem ofEntries_eq_map (entries : List (Key × Value)) :
    ofEntries entries = entries.map fun e ↦ (e.1.text, ofValue e.2) := by
  induction entries with
  | nil => rfl
  | cons e entries ih => rw [ofEntries, ih, List.map_cons]

/-- A tree has the entries of an array, each in its place: an array whose keys are the positions
becomes a list, and any other a map whose keys are the texts of the keys. -/
structure Converts (entries : List (Key × Value)) (t : Tree) : Prop where
  list : IsPositional entries → t = .list (entries.map fun e ↦ ofValue e.2)
  map : ¬ IsPositional entries → t = .map (entries.map fun e ↦ (e.1.text, ofValue e.2))
  nodup : (entries.map fun e ↦ e.1.text).Nodup

theorem nodup_texts {entries : List (Key × Value)} (h : HasNormalKeys entries)
    (hfit : HasKeysThatFit entries) : (entries.map fun e ↦ e.1.text).Nodup := by
  have hnormal : ∀ k ∈ Ordered.keys entries, k.IsNormal := by
    intro k hk
    cases k with
    | int n => exact hfit n hk
    | string s => exact Decimal.canonicalInt?_eq_none_iff.mpr (h.isNoNumeral _ hk s rfl)
  have hmap : (entries.map fun e ↦ e.1.text) = (Ordered.keys entries).map Key.text := by
    rw [Ordered.keys, List.map_map]
    rfl
  rw [hmap]
  exact h.nodup.map_on fun j hj k hk hjk ↦ Key.text_injective (hnormal j hj) (hnormal k hk) hjk

theorem converts_ofValue {entries : List (Key × Value)} (h : HasNormalKeys entries)
    (hfit : HasKeysThatFit entries) : Converts entries (ofValue (.array entries)) := by
  have hnodup := nodup_texts h hfit
  refine ⟨fun hpositional ↦ ?_, fun hpositional ↦ ?_, hnodup⟩
  · rw [ofValue, if_neg (by rw [isPositional_iff.mp hpositional]; simp), ofEntries_eq_map,
      List.map_map]
    rfl
  · rw [isPositional_iff, Bool.not_eq_false] at hpositional
    have hkeys : (Ordered.keys (ofEntries entries)).Nodup := by
      rw [ofEntries_eq_map, Ordered.keys, List.map_map]
      exact hnodup
    rw [ofValue, if_pos hpositional, Ordered.ofList_of_nodup hkeys, ofEntries_eq_map]

/-- Every array in the value of an expression has normal keys, and a tree has each of its entries in
its place as long as the integers among the keys have 64 bits.  They do if no literal stands for the
least integer, whose negation has more. -/
theorem normal_and_converts_of_is_read {ctx : Context} (hctx : ctx.HasNormalKeys)
    {ts rest : List Token} {v : Value} (h : (Expression.read ctx ts).Is v rest)
    {entries : List (Key × Value)} (hentries : v.HasArray entries) :
    HasNormalKeys entries ∧
      (HasKeysThatFit entries → Converts entries (ofValue (.array entries))) ∧
      ((∀ t ∈ ts, t.kind.IsLiteralInt) → ctx.HasLiteralInts → HasKeysThatFit entries) := by
  obtain ⟨hlt, hread⟩ := h
  have hnormal : HasNormalKeys entries := by
    have hholds : (Expression.read ctx ts).Holds _ _ :=
      Expression.holds_read hctx.keeps fun _ _ ↦ trivial
    rw [hread] at hholds
    exact hholds.1 entries hentries
  refine ⟨hnormal, converts_ofValue hnormal, fun hts hints ↦ ?_⟩
  have hholds := Expression.holds_read hints.keeps hts
  rw [hread] at hholds
  exact hholds.1.keys entries hentries

/-- Keys that are integers as texts, texts that look like them, a key that is null, and a key that
is given twice. -/
def mixedKeys : String := "['7' => 'a', '007' => ['x', true => 'y'], null => 1, 7.9 => 'b', 'c']"

theorem normal_and_converts_mixedKeys :
    ∃ entries rest, bareContext.HasNormalKeys ∧
      (Expression.read bareContext (tokens mixedKeys)).Is (.array entries) rest ∧
      Ordered.keys entries = [.int 7, .string "007", .string "", .int 8] ∧
      HasNormalKeys entries ∧ Converts entries (ofValue (.array entries)) := by
  have hctx : bareContext.HasNormalKeys := fun _ _ _ hnone ↦ nomatch hnone
  have hints : bareContext.HasLiteralInts := fun _ _ _ hnone ↦ nomatch hnone
  have hkeys : Ordered.keys (Expression.entriesOf (Expression.read bareContext (tokens mixedKeys)))
      = [.int 7, .string "007", .string "", .int 8] := by decide +kernel
  obtain ⟨entries, rest, hread, hentries⟩ := Expression.exists_of_entriesOf
    (r := Expression.read bareContext (tokens mixedKeys)) fun hnil ↦ by
      simp [hnil, Ordered.keys] at hkeys
  obtain ⟨hnormal, hconverts, hfit⟩ := normal_and_converts_of_is_read hctx hread (.self entries)
  have htokens : ∀ t ∈ tokens mixedKeys, t.kind.IsLiteralInt := fun t ht ↦
    (allWellFormed_tokens mixedKeys t ht).isLiteralInt
  exact ⟨entries, rest, hctx, hread, hentries ▸ hkeys, hnormal, hconverts (hfit htokens hints)⟩

end Tree

end FrontendSync
