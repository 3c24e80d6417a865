import FrontendSync.Number.Reader
import FrontendSync.Proofs.Number.Numeral
import FrontendSync.Proofs.Number.Shortest

/-!
# Binary numbers read back

The plain text of a finite number reads as that number: its digits are those of the shortest
decimal, and this is rounded back to the number.
-/

namespace FrontendSync.Binary64

/-! ## Digits and their exponent -/

section Digits

variable (negative : Bool) {m : Nat} {e : Int} (h : IsFormat m e) (hm : 0 < m) {ds : Nat}
include h hm

/-- A decimal inside the interval of a number is rounded to it. -/
theorem ofScientific_eq (hds : 0 < ds) {k : Int}
    (hq : (interval m e).Contains e (ds * 10 ^ k)) :
    ofScientific negative ds k = .finite negative m e := by
  unfold ofScientific
  split
  · rename_i hk
    obtain ⟨n, rfl⟩ := Int.eq_ofNat_of_zero_le hk
    refine ofRatio_eq negative h hm (Nat.mul_pos hds (Nat.pow_pos (by decide))) Nat.one_pos ?_
    simpa using hq
  · rename_i hk
    obtain ⟨n, hn⟩ := Int.eq_ofNat_of_zero_le (show 0 ≤ -k by omega)
    obtain rfl : k = -(n : ℤ) := by omega
    refine ofRatio_eq negative h hm hds (Nat.pow_pos (by decide)) ?_
    simpa [div_eq_mul_inv] using hq

/-- No decimal inside the interval of a number is so small that it vanishes. -/
theorem neg_le_of_contains {k : Int} {width : Nat} (hwidth : ds < 10 ^ width)
    (hq : (interval m e).Contains e (ds * 10 ^ k)) : -400 ≤ k + width := by
  have hlow : (2 : ℚ) ≤ (interval m e).low := by
    have hle : 2 ≤ (interval m e).low := by
      unfold interval
      simp only
      split <;> omega
    exact_mod_cast hle
  have hwidth : (ds : ℚ) ≤ 10 ^ width := by exact_mod_cast hwidth.le
  have hpower : (10 : ℚ) ^ (-400 : ℤ) ≤ 2 ^ (-1075 : ℤ) := by
    rw [zpow_neg, zpow_neg]
    refine inv_anti₀ (by positivity) ?_
    have hnat : 2 ^ 1075 ≤ 10 ^ 400 := by decide +kernel
    exact_mod_cast hnat
  have hmin : -1074 ≤ e := h.minExponent_le
  have hle : (10 : ℚ) ^ (-400 : ℤ) ≤ 10 ^ (k + width) := by
    calc (10 : ℚ) ^ (-400 : ℤ) ≤ 2 ^ (-1075 : ℤ) := hpower
      _ ≤ 2 ^ (1 + (e - 2)) := zpow_le_zpow_right₀ (by norm_num) (by omega)
      _ = 2 * 2 ^ (e - 2) := by rw [zpow_add₀ (by norm_num), zpow_one]
      _ ≤ (interval m e).low * 2 ^ (e - 2) := by gcongr
      _ ≤ ds * 10 ^ k := hq.le.1
      _ ≤ 10 ^ width * 10 ^ k := by gcongr
      _ = 10 ^ (k + width) := by rw [zpow_add₀ (by norm_num), zpow_natCast, mul_comm]
  exact (zpow_le_zpow_iff_right₀ (by norm_num)).mp hle

theorem ofDigits_eq (hds : 0 < ds) {k : Int} (hk : k ≤ 0) {width : Nat} (hwidth : ds < 10 ^ width)
    (hq : (interval m e).Contains e (ds * 10 ^ k)) :
    ofDigits negative ds width k = .finite negative m e := by
  have hsmall := neg_le_of_contains h hm hwidth hq
  rw [ofDigits, if_neg hds.ne', if_neg (by omega), if_neg (by omega)]
  exact ofScientific_eq negative h hm hds hq

end Digits

/-! ## Texts -/

section Text

variable (negative : Bool) {w f : List Char} (hw : ∀ c ∈ w, c.isDigit = true)
  (hf : ∀ c ∈ f, c.isDigit = true)

/-- The digits that count: zeros in front do not. -/
def significant (ds : List Char) : List Char := ds.dropWhile (· = '0')

include hw in
theorem unsigned?_digits (hne : w ≠ []) : unsigned? negative w
    = some (ofDigits negative (FrontendSync.Decimal.value 10 (significant w))
      (significant w).length 0) := by
  have htake : w.takeWhile Char.isDigit = w := by
    simpa using @List.takeWhile_append_of_pos _ Char.isDigit w [] hw
  have hdrop : w.dropWhile Char.isDigit = [] := by
    simpa using @List.dropWhile_append_of_pos _ Char.isDigit w [] hw
  simp [unsigned?, htake, hdrop, hne, significant]

include hw hf in
theorem unsigned?_point (hne : w ≠ []) : unsigned? negative (w ++ '.' :: f)
    = some (ofDigits negative (FrontendSync.Decimal.value 10 (significant (w ++ f)))
      (significant (w ++ f)).length (-f.length)) := by
  have htake : (w ++ '.' :: f).takeWhile Char.isDigit = w := by
    rw [List.takeWhile_append_of_pos hw]
    simp
  have hdrop : (w ++ '.' :: f).dropWhile Char.isDigit = '.' :: f := by
    rw [List.dropWhile_append_of_pos hw]
    simp
  have htake' : f.takeWhile Char.isDigit = f := by
    simpa using @List.takeWhile_append_of_pos _ Char.isDigit f [] hf
  have hdrop' : f.dropWhile Char.isDigit = [] := by
    simpa using @List.dropWhile_append_of_pos _ Char.isDigit f [] hf
  simp [unsigned?, htake, hdrop, htake', hdrop', hne, significant]

end Text

theorem significant_zeros_append (n : Nat) (ds : List Char) :
    significant (zeros n ++ ds) = significant ds :=
  List.dropWhile_append_of_pos fun c hc ↦ by simp [List.eq_of_mem_replicate hc]

theorem significant_eq_self {ds : List Char} (h : ds.head? ≠ some '0') : significant ds = ds := by
  cases ds with
  | nil => rfl
  | cons c ds =>
    have hc : c ≠ '0' := fun hc ↦ h (by rw [hc]; rfl)
    simp [significant, hc]

/-- The positional text of a decimal is read as that decimal: an integer from all its digits, any
other one from its significant digits and its exponent. -/
theorem unsigned?_positional (negative : Bool) {d : Decimal} (hd : 0 < d.digits) :
    unsigned? negative d.positional
      = some (if 0 ≤ d.exponent then
          ofDigits negative (d.digits * 10 ^ d.exponent.toNat)
            (FrontendSync.Decimal.digits (d.digits * 10 ^ d.exponent.toNat)).length 0
        else ofDigits negative d.digits (FrontendSync.Decimal.digits d.digits).length
          d.exponent) := by
  have hdigits : ∀ c ∈ FrontendSync.Decimal.digits d.digits, c.isDigit = true := fun _ ↦
    FrontendSync.Decimal.isDigit_of_mem_digits
  have hne := FrontendSync.Decimal.digits_ne_nil d.digits
  have hsig := significant_eq_self (FrontendSync.Decimal.head?_digits_ne hd)
  have hvalue := FrontendSync.Decimal.value_digits d.digits
  unfold Decimal.positional
  simp only
  by_cases hexp : 0 ≤ d.exponent
  · have hpos : 0 < d.digits * 10 ^ d.exponent.toNat :=
      Nat.mul_pos hd (Nat.pow_pos (by decide))
    rw [if_pos hexp, if_pos hexp, zeros, ← FrontendSync.Decimal.digits_mul_pow hd,
      unsigned?_digits negative (fun _ ↦ FrontendSync.Decimal.isDigit_of_mem_digits)
        (FrontendSync.Decimal.digits_ne_nil _),
      significant_eq_self (FrontendSync.Decimal.head?_digits_ne hpos),
      FrontendSync.Decimal.value_digits]
  · rw [if_neg hexp, if_neg hexp]
    generalize FrontendSync.Decimal.digits d.digits = ds at *
    split
    · rename_i hpoint
      have htake : ds.take (ds.length + d.exponent).toNat ≠ [] := by
        simp only [ne_eq, List.take_eq_nil_iff, not_or]
        exact ⟨by omega, hne⟩
      have hlength : (-(ds.drop (ds.length + d.exponent).toNat).length : Int) = d.exponent := by
        rw [List.length_drop]
        omega
      rw [unsigned?_point negative (fun c hc ↦ hdigits c (List.mem_of_mem_take hc))
        (fun c hc ↦ hdigits c (List.mem_of_mem_drop hc)) htake, List.take_append_drop, hsig,
        hvalue, hlength]
    · have hlength : (-(zeros (-(ds.length + d.exponent)).toNat ++ ds).length : Int)
          = d.exponent := by
        rw [List.length_append, zeros, List.length_replicate]
        omega
      have hfraction : ∀ c ∈ zeros (-(ds.length + d.exponent)).toNat ++ ds, c.isDigit = true := by
        intro c hc
        exact (List.mem_append.mp hc).elim isDigit_of_mem_zeros (hdigits c)
      have hzero : ∀ c ∈ ['0'], c.isDigit = true := by
        intro c hc
        obtain rfl := List.mem_singleton.mp hc
        rfl
      have hpoint := @unsigned?_point negative ['0'] _ hzero hfraction (by simp)
      have hall : ['0'] ++ (zeros (-(ds.length + d.exponent)).toNat ++ ds)
          = zeros (1 + (-(ds.length + d.exponent)).toNat) ++ ds := by
        rw [← List.append_assoc, zeros, zeros, List.replicate_add]
        rfl
      rw [hall, significant_zeros_append, hsig, hvalue, hlength] at hpoint
      exact hpoint

/-- A digit has no other letter case. -/
theorem toLower_of_isDigit {d : Char} (h : d.isDigit = true) : d.toLower = d := by
  simp only [Char.isDigit, Bool.and_eq_true, decide_eq_true_eq] at h
  obtain ⟨-, hle⟩ := h
  have hlt : ¬ 65 ≤ d.val := fun hge ↦ absurd (UInt32.le_trans hge hle) (by decide)
  exact dif_neg fun hge ↦ hlt hge.1

/-- A text that starts with a digit is no name. -/
theorem magnitude?_of_isMagnitude (negative : Bool) {t : List Char} (h : IsMagnitude t) :
    magnitude? negative t = unsigned? negative t := by
  obtain ⟨d, u, rfl, hd, -⟩ := h.exists_cons
  have hname {c : Char} {cs : List Char} (hc : c.isDigit = false) :
      (d :: u).map Char.toLower ≠ c :: cs := by
    rw [List.map_cons, toLower_of_isDigit hd]
    rintro heq
    obtain rfl := (List.cons.inj heq).1
    simp [hd] at hc
  have hinf : (d :: u).map Char.toLower ≠ "inf".toList := hname (by decide)
  have hinfinity : (d :: u).map Char.toLower ≠ "infinity".toList := hname (by decide)
  have hnan : (d :: u).map Char.toLower ≠ "nan".toList := hname (by decide)
  rw [magnitude?]
  simp only [hinf, hinfinity, hnan, or_self, ↓reduceIte]

/-- A number is read from its magnitude, with the sign before it. -/
theorem ofText?_sign_append (negative : Bool) {t : List Char} (h : IsMagnitude t) :
    ofText? (sign negative ++ t) = unsigned? negative t := by
  cases negative with
  | true => exact magnitude?_of_isMagnitude true h
  | false =>
    obtain ⟨d, u, rfl, hd, -⟩ := h.exists_cons
    have hminus : d ≠ '-' := by rintro rfl; exact absurd hd (by decide)
    have hplus : d ≠ '+' := by rintro rfl; exact absurd hd (by decide)
    rw [← magnitude?_of_isMagnitude false h]
    simp [ofText?, sign, hminus, hplus]

section Plain

variable {m : Nat} {e : Int} (h : IsFormat m e) (hm : 0 < m)
include h hm

theorem digits_shortest_pos (tie : Tie) : 0 < (shortest tie m e).digits := by
  have hlow := (contains_shortest tie h hm).le.1
  have hpos : (0 : ℚ) < (interval m e).low * 2 ^ (e - 2) := by
    have hlow : 0 < (interval m e).low := by
      unfold interval
      simp only
      split <;> omega
    have hlow : (0 : ℚ) < (interval m e).low := by exact_mod_cast hlow
    positivity
  refine Nat.pos_of_ne_zero fun hzero ↦ ?_
  rw [Decimal.value, hzero] at hlow
  simp only [Nat.cast_zero, zero_mul] at hlow
  linarith

/-- The positional text of the shortest decimal of a number is read as that number. -/
theorem unsigned?_shortest (negative : Bool) (tie : Tie) :
    unsigned? negative (shortest tie m e).positional = some (.finite negative m e) := by
  have hpos := digits_shortest_pos h hm tie
  have hq := contains_shortest tie h hm
  rw [unsigned?_positional negative hpos]
  generalize shortest tie m e = d at hpos hq
  have hwidth (n : Nat) : n < 10 ^ (FrontendSync.Decimal.digits n).length := by
    have hdigits : ∀ c ∈ FrontendSync.Decimal.digits n, c.isDigit = true := fun _ ↦
      FrontendSync.Decimal.isDigit_of_mem_digits
    have hlt := FrontendSync.Decimal.value_lt_pow hdigits
    rwa [FrontendSync.Decimal.value_digits] at hlt
  congr 1
  split
  · rename_i hexp
    refine ofDigits_eq negative h hm (Nat.mul_pos hpos (Nat.pow_pos (by decide))) (le_refl 0)
      (hwidth _) ?_
    obtain ⟨n, hn⟩ := Int.eq_ofNat_of_zero_le hexp
    rw [Decimal.value, hn] at hq
    simpa [hn] using hq
  · rename_i hexp
    exact ofDigits_eq negative h hm hpos (by omega) (hwidth _) hq

end Plain

theorem plain_of_pos {s : Bool} {m : Nat} {e : Int} (hm : 0 < m) :
    plain (.finite s m e) = sign s ++ (shortest .up m e).positional := by
  obtain ⟨k, rfl⟩ := Nat.exists_eq_succ_of_ne_zero hm.ne'
  rfl

/-- The plain text of a number of the format is read as that number. -/
theorem ofText?_plain {s : Bool} {m : Nat} {e : Int} (h : IsFormat m e) :
    ofText? (plain (.finite s m e)) = some (.finite s m e) := by
  rcases Nat.eq_zero_or_pos m with rfl | hm
  · obtain rfl : e = minExponent := h.isNormal_or.resolve_left (by decide)
    rw [plain, ofText?_sign_append s (.of_digits (by simp) (by simp)),
      unsigned?_digits s (by simp) (by simp)]
    rfl
  · rw [plain_of_pos hm, ofText?_sign_append s (isMagnitude_positional _)]
    exact unsigned?_shortest h hm s .up

/-- A text with a point is no integer. -/
theorem unsigned?_eq_none_of_mem {t : List Char} (h : '.' ∈ t) :
    FrontendSync.Decimal.unsigned? t = none := by
  rw [FrontendSync.Decimal.unsigned?, if_neg]
  rintro ⟨-, hall⟩
  exact absurd (List.all_eq_true.mp hall '.' h) (by decide)

/-- The text of a decimal is the text of an integer, or it has a point. -/
theorem positional_eq_digits_or {d : Decimal} (hd : 0 < d.digits) :
    (∃ n, 0 < n ∧ d.positional = FrontendSync.Decimal.digits n) ∨ '.' ∈ d.positional := by
  unfold Decimal.positional
  simp only
  split
  · refine .inl ⟨d.digits * 10 ^ d.exponent.toNat, ?_, ?_⟩
    · exact Nat.mul_pos hd (Nat.pow_pos (by decide))
    · rw [FrontendSync.Decimal.digits_mul_pow hd, zeros]
  · split
    · exact .inr (by simp)
    · exact .inr (by simp)

/-- An integer is read from its magnitude, with the sign before it. -/
theorem int?_sign_append (negative : Bool) {t : List Char} (h : IsMagnitude t) :
    FrontendSync.Decimal.int? (sign negative ++ t)
      = ((FrontendSync.Decimal.unsigned? t).map fun n : Nat ↦
          if negative then -(n : Int) else n).filter FrontendSync.Decimal.fits := by
  cases negative with
  | true =>
    simp only [FrontendSync.Decimal.int?, sign, ↓reduceIte, List.cons_append, List.nil_append]
    cases FrontendSync.Decimal.unsigned? t <;> rfl
  | false =>
    obtain ⟨d, u, rfl, hd, -⟩ := h.exists_cons
    have hminus : d ≠ '-' := by rintro rfl; exact absurd hd (by decide)
    have hplus : d ≠ '+' := by rintro rfl; exact absurd hd (by decide)
    simp only [sign, Bool.false_eq_true, ↓reduceIte, List.nil_append]
    rw [FrontendSync.Decimal.int?]
    · rfl
    · simpa using hminus
    · simpa using hplus

/-- If the plain text of a number other than zero reads as an integer, it is the decimal text of
that integer. -/
theorem intDigits_of_int?_positional {negative : Bool} {d : Decimal} (hd : 0 < d.digits) {n : Int}
    (h : FrontendSync.Decimal.int? (sign negative ++ d.positional) = some n) :
    FrontendSync.Decimal.intDigits n = sign negative ++ d.positional := by
  rw [int?_sign_append negative (isMagnitude_positional d)] at h
  obtain ⟨k, hk, hdigits⟩ | hpoint := positional_eq_digits_or hd
  · rw [hdigits, FrontendSync.Decimal.unsigned?_digits] at h
    obtain ⟨hn, -⟩ := Option.filter_eq_some_iff.mp h
    obtain rfl := Option.some.inj hn
    obtain ⟨j, rfl⟩ := Nat.exists_eq_succ_of_ne_zero hk.ne'
    rw [hdigits]
    cases negative <;> rfl
  · rw [unsigned?_eq_none_of_mem hpoint] at h
    simp at h

/-! ## Numbers of the format -/

theorem isCanonical_ofDigits (negative : Bool) (m width : Nat) (e : Int) :
    IsCanonical (ofDigits negative m width e) := by
  have hzero : IsCanonical (.finite negative 0 minExponent) :=
    ⟨by decide, le_refl _, by decide, .inr rfl⟩
  unfold ofDigits ofScientific
  split
  · exact hzero
  · split
    · trivial
    · split
      · exact hzero
      · split
        · exact isCanonical_ofRatio negative _ Nat.one_pos
        · exact isCanonical_ofRatio negative _ (Nat.pow_pos (by decide))

/-- An unsigned number is read from digits and an exponent. -/
theorem exists_ofDigits_of_unsigned? {negative : Bool} {t : List Char} {x : Binary64}
    (h : unsigned? negative t = some x) : ∃ m width e, x = ofDigits negative m width e := by
  unfold unsigned? at h
  simp only at h
  split at h
  all_goals
    split at h
    · simp at h
    · split at h
      · exact ⟨_, _, _, (Option.some.inj h).symm⟩
      · split at h
        · obtain ⟨e, -, rfl⟩ := Option.map_eq_some_iff.mp h
          exact ⟨_, _, _, rfl⟩
        · simp at h

/-- Whatever a text is read as is a number of the format. -/
theorem isCanonical_of_ofText? {t : List Char} {x : Binary64} (h : ofText? t = some x) :
    x.IsCanonical := by
  have hmagnitude {negative : Bool} {u : List Char} (h : magnitude? negative u = some x) :
      x.IsCanonical := by
    unfold magnitude? at h
    simp only at h
    split at h
    · obtain rfl := Option.some.inj h
      trivial
    · split at h
      · obtain rfl := Option.some.inj h
        trivial
      · obtain ⟨m, width, e, rfl⟩ := exists_ofDigits_of_unsigned? h
        exact isCanonical_ofDigits ..
  unfold ofText? at h
  split at h <;> exact hmagnitude h

theorem isCanonical_neg {x : Binary64} (h : x.IsCanonical) : (-x).IsCanonical := by
  cases x with
  | nan => trivial
  | infinite s => trivial
  | finite s m e => exact h

end FrontendSync.Binary64
