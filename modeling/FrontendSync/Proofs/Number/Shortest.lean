import FrontendSync.Proofs.Number.Rounding

/-!
# Shortest decimals round back

The shortest decimal of a number is inside the interval of the quotients that are rounded to it.
There always is one, because the decimals of seventeen digits are denser than the numbers of the
format.
-/

namespace FrontendSync.Binary64

namespace Decimal

/-- What a decimal stands for. -/
def value (d : Decimal) : ℚ := d.digits * 10 ^ d.exponent

/-- Zeros at the end of its digits do not change a decimal. -/
theorem value_stripZeros (d : Decimal) (fuel : Nat) : (d.stripZeros fuel).value = d.value := by
  induction fuel generalizing d with
  | zero => rfl
  | succ fuel ih =>
    rw [stripZeros]
    split
    · rename_i h
      rw [ih, value, value]
      have hten : (d.digits : ℚ) = 10 * (d.digits / 10 : Nat) := by
        exact_mod_cast (Nat.mul_div_cancel' (Nat.dvd_of_mod_eq_zero h.1)).symm
      rw [zpow_add₀ (by norm_num), zpow_one, hten]
      ring
    · rfl

end Decimal

theorem quotient_power (base : Nat) (e : Int) : quotient (power base e) = (base : ℚ) ^ e := by
  unfold power
  split
  · rename_i h
    obtain ⟨n, rfl⟩ := Int.eq_ofNat_of_zero_le h
    simp [quotient]
  · rename_i h
    obtain ⟨n, hn⟩ := Int.eq_ofNat_of_zero_le (show 0 ≤ -e by omega)
    obtain rfl : e = -(n : ℤ) := by omega
    simp [quotient]

theorem power_pos {base : Nat} (h : 0 < base) (e : Int) :
    0 < (power base e).1 ∧ 0 < (power base e).2 := by
  unfold power
  split
  · exact ⟨Nat.pow_pos h, Nat.one_pos⟩
  · exact ⟨Nat.one_pos, Nat.pow_pos h⟩

/-! ## Candidates -/

section Candidate

variable (m : Nat) (e grid : Int)

/-- The unit of the interval, in common parts of it and of the step of the grid. -/
def unitParts : Nat := (power 2 (e - 2)).1 * (power 10 grid).2

/-- The step of the grid, in the same parts. -/
def stepParts : Nat := (power 2 (e - 2)).2 * (power 10 grid).1

/-- The point of the grid at or below a number. -/
def pointBelow : Nat := (interval m e).value * unitParts e grid / stepParts e grid

/-- Whether a point of the grid is inside the interval of a number. -/
def isInside (c : Nat) : Bool :=
  let i := interval m e
  if i.closed then i.low * unitParts e grid ≤ c * stepParts e grid &&
    c * stepParts e grid ≤ i.high * unitParts e grid
  else i.low * unitParts e grid < c * stepParts e grid &&
    c * stepParts e grid < i.high * unitParts e grid

/-- Both parts are the same multiple of what they stand for. -/
theorem exists_parts_eq : ∃ c : ℚ, 0 < c ∧ unitParts e grid = c * 2 ^ (e - 2) ∧
    stepParts e grid = c * 10 ^ grid := by
  obtain ⟨-, hu⟩ := power_pos (by decide : 0 < 2) (e - 2)
  obtain ⟨-, hg⟩ := power_pos (by decide : 0 < 10) grid
  have hu' : (0 : ℚ) < (power 2 (e - 2)).2 := by exact_mod_cast hu
  have hg' : (0 : ℚ) < (power 10 grid).2 := by exact_mod_cast hg
  have hunit := quotient_power 2 (e - 2)
  have hstep := quotient_power 10 grid
  rw [quotient, div_eq_iff hu'.ne'] at hunit
  rw [quotient, div_eq_iff hg'.ne'] at hstep
  refine ⟨(power 2 (e - 2)).2 * (power 10 grid).2, mul_pos hu' hg', ?_, ?_⟩
  · rw [unitParts, Nat.cast_mul, hunit]
    push_cast
    ring
  · rw [stepParts, Nat.cast_mul, hstep]
    push_cast
    ring

theorem stepParts_pos : 0 < stepParts e grid := by
  obtain ⟨c, hc, -, hstep⟩ := exists_parts_eq e grid
  have hpos : (0 : ℚ) < stepParts e grid := by rw [hstep]; positivity
  exact_mod_cast hpos

/-- Comparing parts is comparing multiples of the unit with points of the grid. -/
theorem parts_compare (a c : Nat) :
    (a * unitParts e grid ≤ c * stepParts e grid ↔ a * (2 : ℚ) ^ (e - 2) ≤ c * 10 ^ grid) ∧
      (c * stepParts e grid ≤ a * unitParts e grid ↔ c * (10 : ℚ) ^ grid ≤ a * 2 ^ (e - 2)) := by
  obtain ⟨d, hd, hunit, hstep⟩ := exists_parts_eq e grid
  have ha : ((a * unitParts e grid : Nat) : ℚ) = d * (a * 2 ^ (e - 2)) := by
    rw [Nat.cast_mul, hunit]
    ring
  have hc : ((c * stepParts e grid : Nat) : ℚ) = d * (c * 10 ^ grid) := by
    rw [Nat.cast_mul, hstep]
    ring
  constructor
  · rw [← @Nat.cast_le ℚ, ha, hc, mul_le_mul_iff_right₀ hd]
  · rw [← @Nat.cast_le ℚ, ha, hc, mul_le_mul_iff_right₀ hd]

theorem isInside_iff (c : Nat) :
    isInside m e grid c = true ↔ (interval m e).Contains e (c * 10 ^ grid) := by
  obtain ⟨hlow, hlow'⟩ := parts_compare e grid (interval m e).low c
  obtain ⟨hhigh, hhigh'⟩ := parts_compare e grid (interval m e).high c
  unfold isInside Interval.Contains
  simp only
  split
  · simp [hlow, hhigh']
  · rw [Bool.and_eq_true, decide_eq_true_iff, decide_eq_true_iff, ← not_le, ← not_le, hlow',
      hhigh, not_le, not_le]

/-- A number is between the point of the grid below it and the next one. -/
theorem pointBelow_le : (pointBelow m e grid : ℚ) * 10 ^ grid ≤ m * 2 ^ e ∧
    (m : ℚ) * 2 ^ e < (pointBelow m e grid + 1 : Nat) * 10 ^ grid := by
  have hvalue : ((interval m e).value : ℚ) * 2 ^ (e - 2) = m * 2 ^ e := by
    rw [unit_eq e, interval]
    push_cast
    ring
  have hpos := stepParts_pos e grid
  have hdiv := Nat.div_mul_le_self ((interval m e).value * unitParts e grid) (stepParts e grid)
  have hlt := Nat.lt_div_mul_add (a := (interval m e).value * unitParts e grid) hpos
  rw [← hvalue]
  constructor
  · exact (parts_compare e grid _ _).2.mp hdiv
  · rw [← not_le, ← (parts_compare e grid _ _).2, not_le, pointBelow, Nat.add_mul, Nat.one_mul]
    exact hlt

end Candidate

/-- What is found is on the grid and inside the interval. -/
theorem isInside_of_candidate? {tie : Tie} {m : Nat} {e k : Int} {n : Nat} {d : Decimal}
    (h : candidate? tie m e k n = some d) :
    d.exponent = k - n ∧ isInside m e (k - n) d.digits = true := by
  have hbelow (hb : isInside m e (k - n) (pointBelow m e (k - n)) = true)
      (hd : some (Decimal.mk (pointBelow m e (k - n)) (k - n)) = some d) :
      d.exponent = k - n ∧ isInside m e (k - n) d.digits = true := by
    obtain rfl := Option.some.inj hd
    exact ⟨rfl, hb⟩
  have habove (ha : isInside m e (k - n) (pointBelow m e (k - n) + 1) = true)
      (hd : some (Decimal.mk (pointBelow m e (k - n) + 1) (k - n)) = some d) :
      d.exponent = k - n ∧ isInside m e (k - n) d.digits = true := by
    obtain rfl := Option.some.inj hd
    exact ⟨rfl, ha⟩
  unfold candidate? at h
  simp only at h
  split at h
  · exact absurd h (by simp)
  · rename_i hb _
    exact hbelow hb h
  · rename_i _ ha
    exact habove ha h
  · rename_i hb ha
    split at h
    · exact hbelow hb h
    · split at h
      · exact habove ha h
      · cases tie with
        | up => exact habove ha h
        | even =>
          simp only at h
          split at h
          · exact hbelow hb h
          · exact habove ha h

/-- Something is found if one of the two neighbours is inside the interval. -/
theorem isSome_candidate? {tie : Tie} {m : Nat} {e k : Int} {n : Nat}
    (h : isInside m e (k - n) (pointBelow m e (k - n)) = true ∨
      isInside m e (k - n) (pointBelow m e (k - n) + 1) = true) :
    (candidate? tie m e k n).isSome = true := by
  unfold candidate?
  simp only
  split
  · rename_i hb ha
    obtain h | h := h
    · exact absurd (h.symm.trans hb) (by decide)
    · exact absurd (h.symm.trans ha) (by decide)
  · rfl
  · rfl
  · split
    · rfl
    · split
      · rfl
      · cases tie <;> rfl

/-! ## Seventeen digits -/

/-- Two is between these powers of ten. -/
theorem ten_pow_le_two_pow : 10 ^ 30102 ≤ 2 ^ 100000 ∧ 2 ^ 100000 ≤ 10 ^ 30103 := by
  decide +kernel

/-- Three tenths of a binary exponent are at most the decimal one. -/
theorem ten_zpow_le_two_zpow {L s : ℤ} (hL : -100000 ≤ L) (hs : s * 100000 ≤ L * 30102) :
    (10 : ℚ) ^ (s - 1) ≤ 2 ^ L := by
  obtain ⟨hlow, hhigh⟩ := ten_pow_le_two_pow
  have hlow : (10 : ℚ) ^ (30102 : ℤ) ≤ 2 ^ (100000 : ℤ) := by exact_mod_cast hlow
  have hhigh : (2 : ℚ) ^ (100000 : ℤ) ≤ 10 ^ (30103 : ℤ) := by exact_mod_cast hhigh
  have hpow : ((10 : ℚ) ^ (s - 1)) ^ (100000 : ℤ) ≤ (2 ^ L) ^ (100000 : ℤ) := by
    rw [← zpow_mul, ← zpow_mul, mul_comm L, zpow_mul 2]
    obtain hL' | hL' := le_or_gt 0 L
    · calc (10 : ℚ) ^ ((s - 1) * 100000) ≤ 10 ^ (30102 * L) :=
            zpow_le_zpow_right₀ (by norm_num) (by linarith)
        _ = (10 ^ (30102 : ℤ)) ^ L := zpow_mul _ _ _
        _ ≤ (2 ^ (100000 : ℤ)) ^ L := zpow_le_zpow_left₀ hL' (by positivity) hlow
    · calc (10 : ℚ) ^ ((s - 1) * 100000) ≤ 10 ^ (30103 * L) :=
            zpow_le_zpow_right₀ (by norm_num) (by linarith)
        _ = (10 ^ (30103 : ℤ)) ^ L := zpow_mul _ _ _
        _ ≤ (2 ^ (100000 : ℤ)) ^ L := by
            rw [← neg_neg L, zpow_neg, zpow_neg _ (-L)]
            exact inv_anti₀ (by positivity)
              (zpow_le_zpow_left₀ (by omega) (by positivity) hhigh)
  rw [zpow_ofNat, zpow_ofNat] at hpow
  exact (pow_le_pow_iff_left₀ (by positivity) (by positivity) (by decide)).mp hpow

theorem decimalExponent_spec {num den : Nat} (hd : 0 < den) (fuel : Nat) {k : Int}
    (hk : (10 : ℚ) ^ (k - 1) ≤ num / den) :
    (10 : ℚ) ^ (decimalExponent num den fuel k - 1) ≤ num / den := by
  induction fuel generalizing k with
  | zero => exact hk
  | succ fuel ih =>
    rw [decimalExponent]
    simp only
    split
    · exact hk
    · rename_i hge
      have hd' : (0 : ℚ) < den := by exact_mod_cast hd
      have hpow : (0 : ℚ) < (power 10 k).2 := by exact_mod_cast (power_pos (by decide) k).2
      refine ih ?_
      rw [add_sub_cancel_right, ← Nat.cast_ofNat, ← quotient_power, quotient,
        div_le_div_iff₀ hpow hd']
      exact_mod_cast not_lt.mp hge

theorem Interval.contains_of_lt {i : Interval} {e : Int} {q : ℚ} (hlow : i.low * 2 ^ (e - 2) < q)
    (hhigh : q < i.high * 2 ^ (e - 2)) : i.Contains e q := by
  unfold Interval.Contains
  split
  · exact ⟨hlow.le, hhigh.le⟩
  · exact ⟨hlow, hhigh⟩

/-- Half a step of the grid of seventeen digits is less than what a number is away from the ends
of its interval. -/
theorem half_step_lt {m : Nat} {e k : Int} (h : IsFormat m e) (hm : 0 < m)
    (hk : (10 : ℚ) ^ (k - 1) ≤ m * 2 ^ e) :
    (interval m e).low * (2 : ℚ) ^ (e - 2) < m * 2 ^ e - 10 ^ (k - 17) / 2 ∧
      m * 2 ^ e + 10 ^ (k - 17) / 2 < (interval m e).high * (2 : ℚ) ^ (e - 2) := by
  have hpos : (0 : ℚ) < 2 ^ (e - 2) := by positivity
  have hstep : (10 : ℚ) ^ (k - 17) * 10 ^ 16 ≤ m * 2 ^ e := by
    have heq : (10 : ℚ) ^ (k - 17) * 10 ^ 16 = 10 ^ (k - 1) := by
      rw [← zpow_natCast, ← zpow_add₀ (by norm_num)]
      congr 1
      push_cast
      ring
    rwa [heq]
  have hmantissa : (m : ℚ) + 1 ≤ 2 * leastNormal := by exact_mod_cast h.mantissa_lt
  have hleast : (leastNormal : ℚ) = 4503599627370496 := by norm_num [leastNormal]
  rw [unit_eq e] at hstep ⊢
  constructor
  · unfold interval
    simp only
    split
    · rename_i hpower
      rw [hpower.1, hleast] at hstep
      rw [hpower.1, Nat.cast_sub (by decide)]
      push_cast
      rw [hleast]
      linarith
    · rw [Nat.cast_sub (by omega)]
      push_cast
      nlinarith
  · have hhigh : ((interval m e).high : ℚ) = 4 * m + 2 := by simp [interval]
    rw [hhigh]
    nlinarith

/-- Seventeen digits are enough. -/
theorem isSome_candidate?_seventeen (tie : Tie) {m : Nat} {e k : Int} (h : IsFormat m e)
    (hm : 0 < m) (hk : (10 : ℚ) ^ (k - 1) ≤ m * 2 ^ e) :
    (candidate? tie m e k 17).isSome = true := by
  refine isSome_candidate? ?_
  obtain ⟨hlow, hhigh⟩ := half_step_lt h hm hk
  obtain ⟨hbelow, habove⟩ := pointBelow_le m e (k - 17)
  have hpos : (0 : ℚ) < 10 ^ (k - 17) := by positivity
  simp only [Nat.cast_ofNat, isInside_iff]
  push_cast at habove ⊢
  -- the nearer of the two neighbours is at most half a step away
  by_cases hnear : m * 2 ^ e - 10 ^ (k - 17) / 2 ≤ (pointBelow m e (k - 17) : ℚ) * 10 ^ (k - 17)
  · refine .inl (Interval.contains_of_lt ?_ ?_) <;> linarith
  · refine .inr (Interval.contains_of_lt ?_ ?_) <;> linarith

/-- The shortest decimal of a number is inside its interval. -/
theorem contains_shortest (tie : Tie) {m : Nat} {e : Int} (h : IsFormat m e) (hm : 0 < m) :
    (interval m e).Contains e (shortest tie m e).value := by
  have hd := ratio_snd_pos m e
  have hquot := quotient_ratio m e
  unfold shortest
  generalize ratio m e = r at hd hquot
  obtain ⟨num, den⟩ := r
  simp only [quotient] at hd hquot ⊢
  rw [Decimal.value_stripZeros]
  generalize hk : decimalExponent num den 4 _ = k
  have hspec : (10 : ℚ) ^ (k - 1) ≤ m * 2 ^ e := by
    have hn : 0 < num := by
      refine Nat.pos_of_ne_zero fun hzero ↦ ?_
      have hpos : (0 : ℚ) < m * 2 ^ e := by positivity
      rw [← hquot, hzero] at hpos
      simp at hpos
    obtain ⟨hlog, hlog'⟩ := quotient_between_powers hn hd
    rw [hquot] at hlog hlog'
    have hsmall : (2 : ℚ) ^ e ≤ m * 2 ^ e := by
      have hone : (1 : ℚ) ≤ m := by exact_mod_cast hm
      exact le_mul_of_one_le_left (by positivity) hone
    have hlt := (zpow_lt_zpow_iff_right₀ (by norm_num : (1 : ℚ) < 2)).mp (hsmall.trans_lt hlog')
    have hmin : -1074 ≤ e := h.minExponent_le
    rw [← hk, ← hquot]
    refine decimalExponent_spec hd 4 ?_
    rw [hquot, Int.fdiv_eq_ediv_of_nonneg _ (by decide)]
    exact (ten_zpow_le_two_zpow (by omega) (by omega)).trans hlog.le
  have hsome : ((List.range 17).findSome? fun n ↦ candidate? tie m e k (n + 1)).isSome = true := by
    rw [List.findSome?_isSome_iff]
    exact ⟨16, by simp, isSome_candidate?_seventeen tie h hm hspec⟩
  obtain ⟨d, hd⟩ := Option.isSome_iff_exists.mp hsome
  obtain ⟨n, -, hn⟩ := List.exists_of_findSome?_eq_some hd
  obtain ⟨hexp, hinside⟩ := isInside_of_candidate? hn
  rw [hd, Option.getD_some, Decimal.value, hexp]
  exact (isInside_iff _ _ _ _).mp hinside

end FrontendSync.Binary64
