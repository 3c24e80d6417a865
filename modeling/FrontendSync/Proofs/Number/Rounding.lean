import FrontendSync.Number.Shortest
import Mathlib.Algebra.Order.Field.Power
import Mathlib.Data.Nat.Log
import Mathlib.Data.Rat.Cast.Order
import Mathlib.Tactic.FieldSimp
import Mathlib.Tactic.Linarith
import Mathlib.Tactic.NormNum
import Mathlib.Tactic.Positivity
import Mathlib.Tactic.Ring

/-!
# Rounding

Every positive quotient is rounded to a number of the format or to an infinity, and each number of
the format is what the quotients around it are rounded to: those at most half a unit away, where a
tie needs an even mantissa and the unit below a power of two is half as large.
-/

namespace FrontendSync.Binary64

/-- A mantissa and an exponent of the format. -/
structure IsFormat (m : Nat) (e : Int) : Prop where
  mantissa_lt : m < 2 * leastNormal
  minExponent_le : minExponent ≤ e
  le_maxExponent : e ≤ maxExponent
  isNormal_or : leastNormal ≤ m ∨ e = minExponent

/-- A number of the format: no number, an infinity, or a finite one. -/
def IsCanonical : Binary64 → Prop
  | .finite _ m e => IsFormat m e
  | _ => True

/-! ## Quotients -/

/-- The quotient of two natural numbers. -/
def quotient (r : Nat × Nat) : ℚ := r.1 / r.2

theorem leastNormal_cast : (leastNormal : ℚ) = 2 ^ (52 : ℤ) := by
  norm_num [leastNormal]

theorem inUnits_snd_pos {num den : Nat} (hd : 0 < den) (e : Int) :
    0 < (inUnits num den e).2 := by
  unfold inUnits
  split
  · exact Nat.mul_pos hd (Nat.pow_pos (by decide))
  · exact hd

/-- A quotient in units of `2 ^ e`. -/
theorem quotient_inUnits (num den : Nat) (e : Int) :
    quotient (inUnits num den e) = num / den / 2 ^ e := by
  unfold inUnits
  split
  · rename_i h
    obtain ⟨n, rfl⟩ := Int.eq_ofNat_of_zero_le h
    simp only [quotient, Int.toNat_natCast, Nat.pow_eq, Nat.cast_mul, Nat.cast_pow, Nat.cast_ofNat,
      zpow_natCast]
    rw [div_div]
  · rename_i h
    obtain ⟨n, hn⟩ := Int.eq_ofNat_of_zero_le (show 0 ≤ -e by omega)
    obtain rfl : e = -(n : ℤ) := by omega
    simp only [quotient, neg_neg, Int.toNat_natCast, Nat.pow_eq, Nat.cast_mul, Nat.cast_pow,
      Nat.cast_ofNat, zpow_neg, zpow_natCast, div_inv_eq_mul]
    ring

theorem quotient_ratio (m : Nat) (e : Int) : quotient (ratio m e) = m * 2 ^ e := by
  unfold ratio
  split
  · rename_i h
    obtain ⟨n, rfl⟩ := Int.eq_ofNat_of_zero_le h
    simp [quotient]
  · rename_i h
    obtain ⟨n, hn⟩ := Int.eq_ofNat_of_zero_le (show 0 ≤ -e by omega)
    obtain rfl : e = -(n : ℤ) := by omega
    simp [quotient, div_eq_mul_inv]

theorem ratio_snd_pos (m : Nat) (e : Int) : 0 < (ratio m e).2 := by
  unfold ratio
  split
  · exact Nat.one_pos
  · exact Nat.pow_pos (by decide)

/-! ## The mantissa -/

/-- A quotient at most half away from a natural number is rounded to it, at a tie if it is even. -/
theorem roundHalfEven_eq {n d m : Nat} (hlow : 2 * m * d ≤ 2 * n + d)
    (hhigh : 2 * n ≤ 2 * m * d + d)
    (htie : m % 2 = 0 ∨ (2 * m * d < 2 * n + d ∧ 2 * n < 2 * m * d + d)) (hd : 0 < d) :
    roundHalfEven n d = m := by
  have hn := Nat.div_add_mod n d
  have hr := Nat.mod_lt n hd
  unfold roundHalfEven
  generalize n / d = q at *
  generalize n % d = r at *
  subst hn
  have hmq : m ≤ q + 1 := by
    by_contra hlt
    have : d * (q + 2) ≤ d * m := Nat.mul_le_mul_left d (by omega)
    nlinarith
  have hqm : q ≤ m := by
    by_contra hlt
    have : d * (m + 1) ≤ d * q := Nat.mul_le_mul_left d (by omega)
    nlinarith
  obtain rfl | rfl : m = q ∨ m = q + 1 := by omega
  · have hr : 2 * r ≤ d := by nlinarith
    by_cases hlt : 2 * r < d
    · simp [hlt]
    · have heven : m % 2 = 0 := by
        obtain h | h := htie
        · exact h
        · exact absurd (by nlinarith) hlt
      simp [hlt, show ¬ d < 2 * r by omega, heven]
  · have hr : d ≤ 2 * r := by nlinarith
    by_cases hlt : d < 2 * r
    · simp [hlt, show ¬ 2 * r < d by omega]
    · have hodd : q % 2 ≠ 0 := by
        obtain h | h := htie
        · omega
        · exact absurd (by nlinarith) hlt
      simp [hlt, show ¬ 2 * r < d by omega, hodd]

/-- The same on quotients. -/
theorem roundHalfEven_eq_of_quotient {r : Nat × Nat} {m : Nat} (hd : 0 < r.2)
    (hlow : m - 1 / 2 ≤ quotient r) (hhigh : quotient r ≤ m + 1 / 2)
    (htie : m % 2 = 0 ∨ (m - 1 / 2 < quotient r ∧ quotient r < m + 1 / 2)) :
    roundHalfEven r.1 r.2 = m := by
  have hd' : (0 : ℚ) < r.2 := by exact_mod_cast hd
  unfold quotient at *
  rw [le_div_iff₀ hd'] at hlow
  rw [div_le_iff₀ hd'] at hhigh
  rw [lt_div_iff₀ hd', div_lt_iff₀ hd'] at htie
  have hlow : 2 * (m : ℚ) * r.2 ≤ 2 * r.1 + r.2 := by linarith
  have hhigh : 2 * (r.1 : ℚ) ≤ 2 * m * r.2 + r.2 := by linarith
  refine roundHalfEven_eq (by exact_mod_cast hlow) (by exact_mod_cast hhigh) ?_ hd
  refine htie.imp_right fun ⟨hl, hh⟩ ↦ ?_
  have hl : 2 * (m : ℚ) * r.2 < 2 * r.1 + r.2 := by linarith
  have hh : 2 * (r.1 : ℚ) < 2 * m * r.2 + r.2 := by linarith
  exact ⟨by exact_mod_cast hl, by exact_mod_cast hh⟩

theorem le_roundHalfEven (n d : Nat) : n / d ≤ roundHalfEven n d := by
  unfold roundHalfEven
  simp only
  split
  · exact Nat.le_refl _
  · split
    · exact Nat.le_succ _
    · split
      · exact Nat.le_refl _
      · exact Nat.le_succ _

theorem roundHalfEven_le (n d : Nat) : roundHalfEven n d ≤ n / d + 1 := by
  unfold roundHalfEven
  simp only
  split
  · exact Nat.le_succ _
  · split
    · exact Nat.le_refl _
    · split
      · exact Nat.le_succ _
      · exact Nat.le_refl _

/-! ## The exponent -/

section Quotient

variable {num den : Nat} (hn : 0 < num) (hd : 0 < den)
include hn hd

/-- The logarithms of its parts tell a quotient up to a factor of four. -/
theorem quotient_between_powers :
    (2 : ℚ) ^ ((num.log2 : ℤ) - den.log2 - 1) < num / den ∧
      (num / den : ℚ) < 2 ^ ((num.log2 : ℤ) - den.log2 + 1) := by
  have hd' : (0 : ℚ) < den := by exact_mod_cast hd
  have hnum : 2 ^ num.log2 ≤ num ∧ num < 2 ^ (num.log2 + 1) :=
    ⟨Nat.log2_self_le hn.ne', Nat.lt_log2_self⟩
  have hden : 2 ^ den.log2 ≤ den ∧ den < 2 ^ (den.log2 + 1) :=
    ⟨Nat.log2_self_le hd.ne', Nat.lt_log2_self⟩
  have hnum : (2 : ℚ) ^ num.log2 ≤ num ∧ (num : ℚ) < 2 ^ (num.log2 + 1) := by exact_mod_cast hnum
  have hden : (2 : ℚ) ^ den.log2 ≤ den ∧ (den : ℚ) < 2 ^ (den.log2 + 1) := by exact_mod_cast hden
  have hpow : (0 : ℚ) < 2 ^ den.log2 := by positivity
  constructor
  · have heq : (2 : ℚ) ^ ((num.log2 : ℤ) - den.log2 - 1) = 2 ^ num.log2 / 2 ^ (den.log2 + 1) := by
      rw [sub_sub, zpow_sub₀ (by norm_num), zpow_natCast]
      norm_cast
    rw [heq, div_lt_div_iff₀ (by positivity) hd']
    calc (2 : ℚ) ^ num.log2 * den < 2 ^ num.log2 * 2 ^ (den.log2 + 1) := by
          exact mul_lt_mul_of_pos_left hden.2 (by positivity)
      _ ≤ num * 2 ^ (den.log2 + 1) := by
          exact mul_le_mul_of_nonneg_right hnum.1 (by positivity)
  · have heq : (2 : ℚ) ^ ((num.log2 : ℤ) - den.log2 + 1) = 2 ^ (num.log2 + 1) / 2 ^ den.log2 := by
      rw [sub_add_eq_add_sub, zpow_sub₀ (by norm_num), zpow_natCast]
      norm_cast
    rw [heq, div_lt_div_iff₀ hd' hpow]
    calc (num : ℚ) * 2 ^ den.log2 < 2 ^ (num.log2 + 1) * 2 ^ den.log2 := by
          exact mul_lt_mul_of_pos_right hnum.2 hpow
      _ ≤ 2 ^ (num.log2 + 1) * den := by
          exact mul_le_mul_of_nonneg_left hden.1 (by positivity)

/-- The exponent leaves a quotient 53 bits before the point unless it is the smallest one. -/
theorem exists_exponentFor_eq : ∃ E : ℤ, exponentFor num den = max minExponent E ∧
    (2 : ℚ) ^ (E + 52) ≤ num / den ∧ (num / den : ℚ) < 2 ^ (E + 53) := by
  obtain ⟨hlow, hhigh⟩ := quotient_between_powers hn hd
  generalize hg : (num.log2 : ℤ) - den.log2 - 52 = guess
  have hunits : (inUnits num den guess).1 < (inUnits num den guess).2 * leastNormal
      ↔ (num / den : ℚ) < 2 ^ (guess + 52) := by
    have hpos : (0 : ℚ) < (inUnits num den guess).2 := by exact_mod_cast inUnits_snd_pos hd guess
    have hpow : (0 : ℚ) < 2 ^ guess := by positivity
    calc (inUnits num den guess).1 < (inUnits num den guess).2 * leastNormal
        ↔ quotient (inUnits num den guess) < leastNormal := by
          rw [quotient, div_lt_iff₀ hpos, mul_comm]
          exact_mod_cast Iff.rfl
      _ ↔ (num / den : ℚ) < 2 ^ (guess + 52) := by
          rw [quotient_inUnits, div_lt_iff₀ hpow, leastNormal_cast, add_comm,
            zpow_add₀ (by norm_num)]
  unfold exponentFor
  simp only [hg]
  by_cases hlt : (num / den : ℚ) < 2 ^ (guess + 52)
  · refine ⟨guess - 1, by rw [if_pos (hunits.mpr hlt)], ?_, ?_⟩
    · rw [show guess - 1 + 52 = (num.log2 : ℤ) - den.log2 - 1 by omega]
      exact hlow.le
    · rwa [show guess - 1 + 53 = guess + 52 by omega]
  · refine ⟨guess, by rw [if_neg (mt hunits.mp hlt)], not_lt.mp hlt, ?_⟩
    rwa [show guess + 53 = (num.log2 : ℤ) - den.log2 + 1 by omega]

/-- A quotient between two powers of two has the exponent of the lower one. -/
theorem exponentFor_eq {E : ℤ} (hlow : (2 : ℚ) ^ (E + 52) ≤ num / den)
    (hhigh : (num / den : ℚ) < 2 ^ (E + 53)) : exponentFor num den = max minExponent E := by
  obtain ⟨F, hF, hlow', hhigh'⟩ := exists_exponentFor_eq hn hd
  have h₁ := (zpow_lt_zpow_iff_right₀ (by norm_num : (1 : ℚ) < 2)).mp (hlow.trans_lt hhigh')
  have h₂ := (zpow_lt_zpow_iff_right₀ (by norm_num : (1 : ℚ) < 2)).mp (hlow'.trans_lt hhigh)
  obtain rfl : F = E := by omega
  exact hF

/-- Small quotients have the smallest exponent. -/
theorem exponentFor_eq_minExponent (h : (num / den : ℚ) < 2 ^ (minExponent + 52)) :
    exponentFor num den = minExponent := by
  obtain ⟨F, hF, hlow, -⟩ := exists_exponentFor_eq hn hd
  have hlt := (zpow_lt_zpow_iff_right₀ (by norm_num : (1 : ℚ) < 2)).mp (hlow.trans_lt h)
  rw [hF]
  omega

end Quotient

/-! ## Numbers -/

/-- Whether a quotient is inside an interval, given in quarters of the unit `2 ^ e`. -/
def Interval.Contains (i : Interval) (e : Int) (q : ℚ) : Prop :=
  if i.closed then i.low * 2 ^ (e - 2) ≤ q ∧ q ≤ i.high * 2 ^ (e - 2)
  else i.low * 2 ^ (e - 2) < q ∧ q < i.high * 2 ^ (e - 2)

theorem Interval.Contains.le {i : Interval} {e : Int} {q : ℚ} (h : i.Contains e q) :
    i.low * 2 ^ (e - 2) ≤ q ∧ q ≤ i.high * 2 ^ (e - 2) := by
  unfold Interval.Contains at h
  split at h
  · exact h
  · exact ⟨h.1.le, h.2.le⟩

theorem unit_eq (e : Int) : (2 : ℚ) ^ e = 4 * 2 ^ (e - 2) := by
  rw [zpow_sub₀ (by norm_num)]
  norm_num
  ring

section Interval

variable {m : Nat} {e : Int} (hm : 0 < m) {q : ℚ} (hq : (interval m e).Contains e q)
include hm hq

/-- In units of its exponent a quotient of the interval is at most half away from the mantissa. -/
theorem near_mantissa : m - 1 / 2 ≤ q / 2 ^ e ∧ q / 2 ^ e ≤ m + 1 / 2 ∧
    (m % 2 = 0 ∨ (m - 1 / 2 < q / 2 ^ e ∧ q / 2 ^ e < m + 1 / 2)) := by
  have hpos : (0 : ℚ) < 2 ^ (e - 2) := by positivity
  have hunit := unit_eq e
  have hlow : ((4 * m - 2 : Nat) : ℚ) ≤ (interval m e).low := by
    unfold interval
    simp only
    split
    · exact_mod_cast (by omega : 4 * m - 2 ≤ 4 * m - 1)
    · exact le_refl _
  have hcast : ((4 * m - 2 : Nat) : ℚ) = 4 * m - 2 := by
    rw [Nat.cast_sub (by omega)]
    push_cast
    ring
  have hhigh : ((interval m e).high : ℚ) = 4 * m + 2 := by simp [interval]
  rw [hcast] at hlow
  rw [le_div_iff₀ (by positivity), div_le_iff₀ (by positivity), lt_div_iff₀ (by positivity),
    div_lt_iff₀ (by positivity), hunit]
  have hscaled := mul_le_mul_of_nonneg_right hlow hpos.le
  obtain ⟨h₁, h₂⟩ := hq.le
  rw [hhigh] at h₂
  refine ⟨by linarith, by linarith, ?_⟩
  by_cases hclosed : m % 2 = 0
  · exact .inl hclosed
  · have hopen : (interval m e).closed = false := by simpa [interval] using hclosed
    rw [Interval.Contains, hopen, hhigh] at hq
    simp only [Bool.false_eq_true, ↓reduceIte] at hq
    exact .inr ⟨by linarith, by linarith⟩

end Interval

/-- The number of a quotient from its exponent and its mantissa in that unit. -/
theorem ofRatio_of_mantissa (negative : Bool) {num den : Nat} (hn : 0 < num) {e : Int} {m : Nat}
    (he : exponentFor num den = e)
    (hm : roundHalfEven (inUnits num den e).1 (inUnits num den e).2 = m) :
    ofRatio negative num den
      = if m = 2 * leastNormal then
          if maxExponent < e + 1 then .infinite negative else .finite negative leastNormal (e + 1)
        else if maxExponent < e then .infinite negative else .finite negative m e := by
  unfold ofRatio
  rw [if_neg hn.ne', he]
  simp only [hm]
  split <;> rfl

/-- Below a power of two the unit is halved, and there a quotient of the interval is at most half
away from the power. -/
theorem below_power {e : Int} (hmin : minExponent < e) {q : ℚ}
    (hq : (interval leastNormal e).Contains e q) (hsmall : q < 2 ^ (e + 52)) :
    2 * leastNormal - 1 / 2 ≤ q / 2 ^ (e - 1) ∧ q / 2 ^ (e - 1) < 2 * leastNormal := by
  have hquarter : (2 : ℚ) ^ (e - 2) = 2 ^ (e - 1) / 2 := by
    rw [show e - 2 = e - 1 - 1 by omega, zpow_sub_one₀ (by norm_num)]
    rfl
  constructor
  · have hends := hq.le.1
    rw [interval, hquarter] at hends
    simp only [hmin, and_self, ↓reduceIte] at hends
    rw [le_div_iff₀ (by positivity)]
    calc (2 * leastNormal - 1 / 2 : ℚ) * 2 ^ (e - 1)
        = ((4 * leastNormal - 1 : Nat) : ℚ) * (2 ^ (e - 1) / 2) := by
          norm_num [leastNormal]
          ring
      _ ≤ q := hends
  · rw [div_lt_iff₀ (by positivity)]
    calc q < 2 ^ (e + 52) := hsmall
      _ = 2 * leastNormal * 2 ^ (e - 1) := by
        rw [leastNormal_cast, show e + 52 = 1 + 52 + (e - 1) by ring, zpow_add₀ (by norm_num),
          zpow_add₀ (by norm_num)]
        norm_num

/-- Below a power of two a quotient of the interval is rounded up to the power. -/
theorem ofRatio_eq_of_lt (negative : Bool) {e : Int} (hmin : minExponent < e)
    (hmax : ¬ maxExponent < e) {num den : Nat} (hn : 0 < num) (hd : 0 < den)
    (hq : (interval leastNormal e).Contains e (num / den))
    (hsmall : (num / den : ℚ) < 2 ^ (e + 52)) :
    ofRatio negative num den = .finite negative leastNormal e := by
  obtain ⟨hlow, hhigh⟩ := below_power hmin hq hsmall
  have hexponent : exponentFor num den = e - 1 := by
    rw [exponentFor_eq (E := e - 1) hn hd]
    · omega
    · rw [show e - 1 + 52 = 52 + (e - 1) by ring, zpow_add₀ (by norm_num),
        ← le_div_iff₀ (by positivity), ← leastNormal_cast]
      have : (1 : ℚ) ≤ leastNormal := by norm_num [leastNormal]
      linarith
    · rwa [show e - 1 + 53 = e + 52 by ring]
  rw [← quotient_inUnits] at hlow hhigh
  have hround : roundHalfEven (inUnits num den (e - 1)).1 (inUnits num den (e - 1)).2
      = 2 * leastNormal := by
    refine roundHalfEven_eq_of_quotient (inUnits_snd_pos hd _) ?_ ?_ (.inl (by decide))
    · push_cast
      exact hlow
    · push_cast
      linarith
  rw [ofRatio_of_mantissa negative hn hexponent hround, if_pos rfl, sub_add_cancel, if_neg hmax]

/-- Every quotient in the interval of a number of the format is rounded to that number. -/
theorem ofRatio_eq (negative : Bool) {m : Nat} {e : Int} (h : IsFormat m e) (hm : 0 < m)
    {num den : Nat} (hn : 0 < num) (hd : 0 < den) (hq : (interval m e).Contains e (num / den)) :
    ofRatio negative num den = .finite negative m e := by
  have hpos : (0 : ℚ) < 2 ^ e := by positivity
  have hmantissa : (m : ℚ) + 1 ≤ 2 * leastNormal := by exact_mod_cast h.mantissa_lt
  have hne : m ≠ 2 * leastNormal := h.mantissa_lt.ne
  have hmax : ¬ maxExponent < e := by simpa using h.le_maxExponent
  have hpower (k : ℤ) : (2 : ℚ) ^ (e + k) = 2 ^ k * 2 ^ e := by
    rw [zpow_add₀ (by norm_num), mul_comm]
  have hunits : (num / den : ℚ) / 2 ^ e = quotient (inUnits num den e) :=
    (quotient_inUnits num den e).symm
  obtain ⟨hlow, hhigh, htie⟩ := near_mantissa hm hq
  -- in units of `2 ^ e` the quotient is rounded to `m`
  have hround : roundHalfEven (inUnits num den e).1 (inUnits num den e).2 = m := by
    rw [hunits] at hlow hhigh htie
    exact roundHalfEven_eq_of_quotient (inUnits_snd_pos hd e) hlow hhigh htie
  have hsame (he : exponentFor num den = e) : ofRatio negative num den = .finite negative m e := by
    rw [ofRatio_of_mantissa negative hn he hround, if_neg hne, if_neg hmax]
  by_cases hbig : (2 : ℚ) ^ (e + 52) ≤ num / den
  · refine hsame ?_
    have hlt : (num / den : ℚ) < 2 ^ (e + 53) := by
      rw [hpower, ← div_lt_iff₀ hpos]
      calc (num / den : ℚ) / 2 ^ e ≤ m + 1 / 2 := hhigh
        _ < 2 * leastNormal := by linarith
        _ = 2 ^ (53 : ℤ) := by norm_num [leastNormal]
    rw [exponentFor_eq hn hd hbig hlt]
    have := h.minExponent_le
    omega
  · have hsmall : (num / den : ℚ) < 2 ^ (e + 52) := not_le.mp hbig
    by_cases he : e = minExponent
    · subst he
      exact hsame (exponentFor_eq_minExponent hn hd hsmall)
    · have hleast : leastNormal ≤ m := h.isNormal_or.resolve_right he
      have hpow : m = leastNormal := by
        have hlt : (num / den : ℚ) / 2 ^ e < leastNormal := by
          rwa [div_lt_iff₀ hpos, leastNormal_cast, ← hpower]
        have : (m : ℚ) < leastNormal + 1 := by linarith
        have : m < leastNormal + 1 := by exact_mod_cast this
        omega
      subst hpow
      exact ofRatio_eq_of_lt negative (lt_of_le_of_ne h.minExponent_le (Ne.symm he)) hmax hn hd hq
        hsmall

/-- Rounding does not pass a whole number. -/
theorem roundHalfEven_le_of_lt {r : Nat × Nat} (hr : 0 < r.2) {n : Nat} (h : quotient r < n) :
    roundHalfEven r.1 r.2 ≤ n := by
  rw [quotient, div_lt_iff₀ (by exact_mod_cast hr)] at h
  have hlt : r.1 < n * r.2 := by exact_mod_cast h
  exact (roundHalfEven_le _ _).trans (Nat.div_lt_of_lt_mul (by rwa [mul_comm] at hlt))

theorem le_roundHalfEven_of_le {r : Nat × Nat} (hr : 0 < r.2) {n : Nat} (h : n ≤ quotient r) :
    n ≤ roundHalfEven r.1 r.2 := by
  rw [quotient, le_div_iff₀ (by exact_mod_cast hr)] at h
  have hge : n * r.2 ≤ r.1 := by exact_mod_cast h
  exact ((Nat.le_div_iff_mul_le hr).mpr hge).trans (le_roundHalfEven _ _)

/-- Rounding gives numbers of the format. -/
theorem isCanonical_ofRatio (negative : Bool) (num : Nat) {den : Nat} (hd : 0 < den) :
    IsCanonical (ofRatio negative num den) := by
  obtain rfl | hn := Nat.eq_zero_or_pos num
  · refine ⟨by decide, le_refl _, by decide, .inr rfl⟩
  · obtain ⟨E, he, hlow, hhigh⟩ := exists_exponentFor_eq hn hd
    have hpos : (0 : ℚ) < 2 ^ max minExponent E := by positivity
    generalize hr : inUnits num den (max minExponent E) = r
    have hr₂ : 0 < r.2 := by
      rw [← hr]
      exact inUnits_snd_pos hd _
    have hquot : quotient r = num / den / 2 ^ max minExponent E := by rw [← hr, quotient_inUnits]
    have hle : roundHalfEven r.1 r.2 ≤ 2 * leastNormal := by
      refine roundHalfEven_le_of_lt hr₂ ?_
      rw [hquot, div_lt_iff₀ hpos]
      calc (num / den : ℚ) < 2 ^ (E + 53) := hhigh
        _ ≤ 2 ^ (53 + max minExponent E) :=
          zpow_le_zpow_right₀ (by norm_num) (by omega)
        _ = (2 * leastNormal : Nat) * 2 ^ max minExponent E := by
          rw [zpow_add₀ (by norm_num)]
          norm_num [leastNormal]
    have hnormal : leastNormal ≤ roundHalfEven r.1 r.2 ∨ max minExponent E = minExponent := by
      by_cases hE : E ≤ minExponent
      · exact .inr (max_eq_left hE)
      · refine .inl (le_roundHalfEven_of_le hr₂ ?_)
        rw [hquot, max_eq_right (not_le.mp hE).le, le_div_iff₀ (by positivity),
          leastNormal_cast, ← zpow_add₀ (by norm_num), add_comm]
        exact hlow
    have hmin : minExponent ≤ max minExponent E := le_max_left _ _
    rw [ofRatio_of_mantissa negative hn he (by rw [hr])]
    generalize max minExponent E = e at *
    generalize roundHalfEven r.1 r.2 = m at *
    by_cases hm : m = 2 * leastNormal
    · rw [if_pos hm]
      split
      · trivial
      · exact ⟨by decide, by omega, by omega, .inl (le_refl _)⟩
    · rw [if_neg hm]
      split
      · trivial
      · exact ⟨by omega, hmin, by omega, hnormal⟩

end FrontendSync.Binary64
