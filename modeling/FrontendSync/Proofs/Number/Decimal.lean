import Mathlib.Algebra.Group.Nat.Defs
import FrontendSync.Number.Decimal

/-!
# Decimal digits read back

Writing an integer in decimal and reading the text again gives the integer, as long as it fits a
signed word of 64 bits.
-/

namespace FrontendSync.Decimal

/-! ## Digits of a natural number -/

theorem digits_ne_nil (n : Nat) : digits n ≠ [] := Nat.toDigits_ne_nil

theorem isDigit_of_mem_digits {c : Char} {n : Nat} (h : c ∈ digits n) : c.isDigit = true :=
  Nat.isDigit_of_mem_toDigits (by decide) (by decide) h

theorem all_isDigit_digits (n : Nat) : (digits n).all Char.isDigit = true :=
  List.all_eq_true.mpr fun _ h ↦ isDigit_of_mem_digits h

theorem digits_of_lt_ten {n : Nat} (h : n < 10) : digits n = [n.digitChar] :=
  Nat.toDigits_of_lt_base h

theorem digits_of_ten_le {n : Nat} (h : 10 ≤ n) :
    digits n = digits (n / 10) ++ [(n % 10).digitChar] :=
  Nat.toDigits_of_base_le (by decide) h

theorem digitValue_digitChar {n : Nat} (h : n < 10) : digitValue n.digitChar = n := by
  have all : ∀ k : Fin 10, digitValue (k : Nat).digitChar = k := by decide
  exact all ⟨n, h⟩

theorem value_append_singleton (base : Nat) (ds : List Char) (c : Char) :
    value base (ds ++ [c]) = base * value base ds + digitValue c := by
  simp [value, List.foldl_append]

/-- The digits of a number stand for it. -/
theorem value_digits (n : Nat) : value 10 (digits n) = n := by
  induction n using Nat.strongRecOn with
  | ind n ih =>
    by_cases h : n < 10
    · rw [digits_of_lt_ten h]
      simp [value, digitValue_digitChar h]
    · have hn : 10 ≤ n := Nat.le_of_not_lt h
      rw [digits_of_ten_le hn, value_append_singleton, ih (n / 10) (by omega),
        digitValue_digitChar (Nat.mod_lt n (by decide))]
      omega

theorem digits_injective : Function.Injective digits :=
  Function.LeftInverse.injective (g := value 10) value_digits

theorem minus_notMem_digits (n : Nat) : '-' ∉ digits n := fun h ↦
  absurd (isDigit_of_mem_digits h) (by decide)

theorem intDigits_injective : Function.Injective intDigits := by
  intro m n h
  cases m with
  | ofNat m =>
    cases n with
    | ofNat n => exact congrArg Int.ofNat (digits_injective h)
    | negSucc n =>
      have h : digits m = '-' :: digits (n + 1) := h
      exact absurd (h ▸ List.mem_cons_self) (minus_notMem_digits m)
  | negSucc m =>
    cases n with
    | ofNat n =>
      have h : '-' :: digits (m + 1) = digits n := h
      exact absurd (h ▸ List.mem_cons_self) (minus_notMem_digits n)
    | negSucc n =>
      have h : digits (m + 1) = digits (n + 1) := (List.cons.inj h).2
      exact congrArg Int.negSucc (Nat.succ.inj (digits_injective h))

/-- A number other than zero does not start with the digit zero. -/
theorem head?_digits_ne {n : Nat} (h : 0 < n) : (digits n).head? ≠ some '0' := by
  induction n using Nat.strongRecOn with
  | ind n ih =>
    by_cases hn : n < 10
    · rw [digits_of_lt_ten hn]
      intro hhead
      have hzero : digitValue n.digitChar = digitValue '0' := by
        rw [Option.some.inj hhead]
      rw [digitValue_digitChar hn] at hzero
      exact absurd hzero (Nat.ne_of_gt h)
    · have hn : 10 ≤ n := Nat.le_of_not_lt hn
      have hhead := ih (n / 10) (by omega) (by omega)
      obtain ⟨c, cs, hc⟩ := List.exists_cons_of_ne_nil (digits_ne_nil (n / 10))
      rw [digits_of_ten_le hn, hc]
      rwa [hc] at hhead

/-- Zeros behind its digits multiply a number by powers of ten. -/
theorem digits_mul_pow {n : Nat} (h : 0 < n) (k : Nat) :
    digits (n * 10 ^ k) = digits n ++ List.replicate k '0' := by
  induction k with
  | zero => simp
  | succ k ih =>
    have hpos : 0 < n * 10 ^ k := Nat.mul_pos h (Nat.pow_pos (by decide))
    have hdiv : n * 10 ^ (k + 1) / 10 = n * 10 ^ k := by
      rw [Nat.pow_succ, ← Nat.mul_assoc, Nat.mul_div_cancel _ (by decide)]
    have hmod : n * 10 ^ (k + 1) % 10 = 0 := by
      rw [Nat.pow_succ, ← Nat.mul_assoc, Nat.mul_mod_left]
    have hten : 10 ≤ n * 10 ^ (k + 1) := by
      rw [Nat.pow_succ, ← Nat.mul_assoc]
      exact Nat.le_mul_of_pos_left _ hpos
    rw [digits_of_ten_le hten, hdiv, hmod, ih, List.replicate_succ', List.append_assoc]
    rfl

theorem digitValue_lt_ten {c : Char} (h : c.isDigit = true) : digitValue c < 10 := by
  simp only [Char.isDigit, Bool.and_eq_true, decide_eq_true_eq] at h
  obtain ⟨hlow, hhigh⟩ := h
  have hlow : '0' ≤ c := hlow
  have hhigh' : c ≤ '9' := hhigh
  have hle : c.toNat ≤ 57 := hhigh
  simp only [digitValue, hlow, hhigh', and_self, ↓reduceIte]
  have hzero : '0'.toNat = 48 := rfl
  omega

/-- A text of digits stands for less than that power of ten. -/
theorem value_lt_pow {ds : List Char} (h : ∀ c ∈ ds, c.isDigit = true) :
    value 10 ds < 10 ^ ds.length := by
  have hfold (n : Nat) : ds.foldl (fun n c ↦ 10 * n + digitValue c) n
      < (n + 1) * 10 ^ ds.length := by
    induction ds generalizing n with
    | nil => simp
    | cons c ds ih =>
      obtain ⟨hc, hds⟩ := List.forall_mem_cons.mp h
      have hlt := digitValue_lt_ten hc
      have hle : 10 * n + digitValue c + 1 ≤ (n + 1) * 10 := by omega
      calc ds.foldl (fun n c ↦ 10 * n + digitValue c) (10 * n + digitValue c)
          < (10 * n + digitValue c + 1) * 10 ^ ds.length := ih hds _
        _ ≤ (n + 1) * 10 * 10 ^ ds.length := Nat.mul_le_mul_right _ hle
        _ = (n + 1) * 10 ^ (c :: ds).length := by
          rw [List.length_cons, Nat.pow_succ, Nat.mul_assoc, Nat.mul_comm 10]
  have hzero := hfold 0
  rwa [Nat.zero_add, Nat.one_mul] at hzero

/-! ## Signed integers -/

theorem unsigned?_digits (n : Nat) : unsigned? (digits n) = some n := by
  simp [unsigned?, digits_ne_nil, all_isDigit_digits, value_digits]

/-- Digits are no sign, so an unsigned text is read as it stands. -/
theorem int?_digits {n : Nat} (h : fits n = true) : int? (digits n) = some (n : Int) := by
  have hu := unsigned?_digits n
  have hd : ∀ c ∈ digits n, c.isDigit = true := fun _ ↦ isDigit_of_mem_digits
  unfold int?
  split
  · rename_i heq
    rw [heq] at hd
    exact absurd (hd '-' (by simp)) (by decide)
  · rename_i heq
    rw [heq] at hd
    exact absurd (hd '+' (by simp)) (by decide)
  · simp [hu, h]

/-- The decimal text of a 64-bit integer reads as that integer. -/
theorem int?_intDigits {n : Int} (h : fits n = true) : int? (intDigits n) = some n := by
  cases n with
  | ofNat n => exact int?_digits h
  | negSucc n =>
    have hn : -((n : Int) + 1) = Int.negSucc n := rfl
    simp [intDigits, int?, unsigned?_digits, hn, h]

end FrontendSync.Decimal
