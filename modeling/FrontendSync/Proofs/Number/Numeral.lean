import FrontendSync.Number.Layout
import FrontendSync.Proofs.Number.Decimal

/-!
# The shape of numbers

Every number of a generated module, an integer or a finite binary number, is written as an
optional sign, a digit, and digits and points after it.
-/

namespace FrontendSync

/-- Digits and points, the first of them a digit. -/
structure IsMagnitude (t : List Char) : Prop where
  first : ∃ d ∈ t.head?, d.isDigit = true
  all : ∀ c ∈ t, c.isDigit = true ∨ c = '.'

/-- A magnitude behind an optional sign. -/
inductive IsNumeral : List Char → Prop
  | unsigned {t : List Char} : IsMagnitude t → IsNumeral t
  | negative {t : List Char} : IsMagnitude t → IsNumeral ('-' :: t)

namespace IsMagnitude

/-- Digits make up a magnitude as long as there are any. -/
theorem of_digits {t : List Char} (hne : t ≠ []) (h : ∀ c ∈ t, c.isDigit = true) :
    IsMagnitude t := by
  refine ⟨?_, fun c hc ↦ .inl (h c hc)⟩
  cases t with
  | nil => exact absurd rfl hne
  | cons d t => exact ⟨d, rfl, h d List.mem_cons_self⟩

/-- A magnitude may go on with digits and points. -/
theorem append {t u : List Char} (ht : IsMagnitude t)
    (hu : ∀ c ∈ u, c.isDigit = true ∨ c = '.') : IsMagnitude (t ++ u) := by
  obtain ⟨⟨d, hd, hdigit⟩, hall⟩ := ht
  refine ⟨⟨d, ?_, hdigit⟩, fun c hc ↦ ?_⟩
  · rw [List.head?_append, Option.mem_def.mp hd]
    rfl
  · exact (List.mem_append.mp hc).elim (hall c) (hu c)

theorem exists_cons {t : List Char} (h : IsMagnitude t) :
    ∃ d u, t = d :: u ∧ d.isDigit = true ∧ ∀ c ∈ u, c.isDigit = true ∨ c = '.' := by
  obtain ⟨⟨d, hd, hdigit⟩, hall⟩ := h
  obtain ⟨u, rfl⟩ := List.head?_eq_some_iff.mp hd
  exact ⟨d, u, rfl, hdigit, fun c hc ↦ hall c (List.mem_cons_of_mem _ hc)⟩

end IsMagnitude

theorem IsNumeral.exists_cons {t : List Char} (h : IsNumeral t) :
    ∃ c u, t = c :: u ∧ (c.isDigit = true ∨ c = '-') := by
  cases h with
  | unsigned h =>
    obtain ⟨d, u, rfl, hd, -⟩ := h.exists_cons
    exact ⟨d, u, rfl, .inl hd⟩
  | negative => exact ⟨'-', _, rfl, .inr rfl⟩

theorem IsNumeral.mem {t : List Char} (h : IsNumeral t) {c : Char} (hc : c ∈ t) :
    c.isDigit = true ∨ c = '.' ∨ c = '-' := by
  cases h with
  | unsigned h => exact (h.all c hc).imp_right .inl
  | negative h =>
    obtain rfl | hc := List.mem_cons.mp hc
    · exact .inr (.inr rfl)
    · exact (h.all c hc).imp_right .inl

namespace Decimal

theorem isMagnitude_digits (n : Nat) : IsMagnitude (digits n) :=
  .of_digits (digits_ne_nil n) fun _ ↦ isDigit_of_mem_digits

theorem isNumeral_intDigits (n : Int) : IsNumeral (intDigits n) := by
  cases n with
  | ofNat n => exact .unsigned (isMagnitude_digits n)
  | negSucc n => exact .negative (isMagnitude_digits (n + 1))

end Decimal

namespace Binary64

theorem isDigit_of_mem_zeros {n : Nat} {c : Char} (h : c ∈ zeros n) : c.isDigit = true := by
  rw [List.eq_of_mem_replicate h]
  rfl

/-- Positional notation has a digit before its point, if it has a point. -/
theorem isMagnitude_positional (d : Decimal) : IsMagnitude d.positional := by
  have hd : ∀ c ∈ FrontendSync.Decimal.digits d.digits, c.isDigit = true := fun _ ↦
    FrontendSync.Decimal.isDigit_of_mem_digits
  have hne := FrontendSync.Decimal.digits_ne_nil d.digits
  simp only [Decimal.positional]
  generalize FrontendSync.Decimal.digits d.digits = ds at hd hne
  split
  · exact (IsMagnitude.of_digits hne hd).append fun c hc ↦ .inl (isDigit_of_mem_zeros hc)
  · split
    · rename_i hpoint
      have htake : ds.take (ds.length + d.exponent).toNat ≠ [] := by
        simp only [ne_eq, List.take_eq_nil_iff, not_or]
        exact ⟨by omega, hne⟩
      refine (IsMagnitude.of_digits htake fun c hc ↦ hd c (List.mem_of_mem_take hc)).append ?_
      intro c hc
      obtain rfl | hc := List.mem_cons.mp hc
      · exact .inr rfl
      · exact .inl (hd c (List.mem_of_mem_drop hc))
    · refine IsMagnitude.append (t := ['0']) (.of_digits (by simp) (by simp)) ?_
      intro c hc
      obtain rfl | hc := List.mem_cons.mp hc
      · exact .inr rfl
      · obtain hc | hc := List.mem_append.mp hc
        · exact .inl (isDigit_of_mem_zeros hc)
        · exact .inl (hd c hc)

def isFinite : Binary64 → Bool
  | .finite _ _ _ => true
  | _ => false

theorem isNumeral_sign_append (s : Bool) {t : List Char} (h : IsMagnitude t) :
    IsNumeral (sign s ++ t) := by
  cases s with
  | false => exact .unsigned h
  | true => exact .negative h

/-- The literal of a finite number is a number. -/
theorem isNumeral_literal {x : Binary64} (h : x.isFinite = true) :
    IsNumeral x.literal.toList := by
  cases x with
  | nan => simp [isFinite] at h
  | infinite s => simp [isFinite] at h
  | finite s m e =>
    unfold literal
    simp only
    split
    · rw [FrontendSync.Decimal.ofInt, String.toList_ofList]
      exact FrontendSync.Decimal.isNumeral_intDigits _
    · rw [text, String.toList_ofList]
      unfold plain
      split
      · simp_all
      · simp_all
      · exact isNumeral_sign_append _ (.of_digits (by simp) (by simp))
      · exact isNumeral_sign_append _ (isMagnitude_positional _)

end Binary64

end FrontendSync
