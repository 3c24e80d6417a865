import FrontendSync.Proofs.Php.CaseProperties

/-!
# Signs of integers

Neither a literal nor the value of a case is the least integer of 64 bits, and signs keep it so.
What stands behind a minus sign therefore always has a negation of 64 bits: it makes no difference
that the arithmetic of integers wraps around.
-/

namespace FrontendSync

namespace Php

open Decimal (IsLiteral)

/-! ## Integers in values -/

/-- An integer that a value is, or that an entry of it has in it. -/
inductive Value.HasInt (n : Int) : Value → Prop
  | self : HasInt n (.int n)
  | entry {entries : List (Key × Value)} {e : Key × Value} : e ∈ entries → HasInt n e.2 →
      HasInt n (.array entries)

theorem Value.WellFormed.isLiteral {v : Value} (h : v.WellFormed) {n : Int} (hn : v.HasInt n) :
    IsLiteral n := by
  induction hn with
  | self => cases h with | int hn => exact hn
  | entry he _ ih => cases h with | array _ _ hvalues => exact ih (hvalues _ he)

/-! ## Known values of cases -/

/-- What is known of the values of cases is what sources declare. -/
def Context.IsBacked (ctx : Context) : Prop :=
  ∀ className caseName v, ctx.caseValue className caseName = some v →
    ∃ source, ∃ e ∈ (SourceFile.ofSource source).enums, ∃ c ∈ e.cases, c.value = some (.ok v)

theorem Context.IsBacked.wellFormed {ctx : Context} (h : ctx.IsBacked) : ctx.WellFormed := by
  intro className caseName v hv
  obtain ⟨source, e, he, c, hc, hvalue⟩ := h className caseName v hv
  exact ((SourceFile.wellFormed_of_mem_ofSource he).cases c hc).value v hvalue

end Php

theorem Registry.isBacked_ofSources {sources : List String} {ctx : Php.Context}
    (hctx : ctx.caseValue = (ofSources sources).caseValue) : ctx.IsBacked := by
  intro className caseName v hv
  obtain ⟨c, ⟨e, he, -, hc, -⟩, hvalue⟩ := exists_declares_of_caseValue (hctx ▸ hv)
  rcases mem_of_mem_registerAll he with he | he
  · simp [empty] at he
  · obtain ⟨source, -, he⟩ := List.mem_flatMap.mp he
    exact ⟨source, e, he, c, hc, hvalue⟩

namespace Php

theorem Reading.Holds.of_is {Good : Token.Kind → Prop} {P : Value → Prop} {m : Nat}
    {r : Reading Value m} {v : Value} {rest : List Token} (h : r.Holds Good P) (hr : r.Is v rest) :
    P v := by
  obtain ⟨_, rfl⟩ := hr
  exact h.1

namespace Expression

open Decimal (IsLiteral fits wrap)

/-- Wherever expressions and operands are read among the tokens of a source, their values have only
integers in them that a literal or its negation stands for, and so have the known values of cases.
The negation of an operand fits its 64 bits: it is the value behind a minus sign as it stands, and
would be the same if it wrapped around. -/
theorem negations_fit {ctx : Context} (hctx : ctx.IsBacked) {source : String} {ts : List Token}
    (hts : ts ⊆ tokens source) :
    (∀ v rest, (read ctx ts).Is v rest → ∀ n, v.HasInt n → IsLiteral n) ∧
    (∀ v rest, (unary ctx ts).Is v rest → ∀ n, v.HasInt n → IsLiteral n) ∧
    (∀ className caseName v, ctx.caseValue className caseName = some v →
      ∀ n, v.HasInt n → IsLiteral n) ∧
    ∀ n rest, (unary ctx ts).Is (.int n) rest →
      fits (-n) = true ∧ wrap (-n) = -n ∧
      ∀ t : Token, t.isPunct .minus = true → (unary ctx (t :: ts)).Is (.int (wrap (-n))) rest := by
  have hkeeps := hctx.wellFormed.keeps
  have htokens := (allWellFormed_tokens source).of_subset hts
  have hunary {v : Value} {rest : List Token} (h : (unary ctx ts).Is v rest) : v.WellFormed :=
    (holds_unary hkeeps htokens).of_is h
  refine ⟨fun v rest h n ↦ ((holds_read hkeeps htokens).of_is h).isLiteral,
    fun v rest h n ↦ (hunary h).isLiteral,
    fun className caseName v h n ↦ (hctx.wellFormed className caseName v h).isLiteral,
    fun n rest h ↦ ?_⟩
  have hfits : fits (-n) = true := ((hunary h).isLiteral .self).neg.fits
  refine ⟨hfits, Decimal.wrap_eq_self hfits, fun t ht ↦ ?_⟩
  rw [Decimal.wrap_eq_self hfits]
  exact is_unary_minus ht h rfl

/-- What is known when an enum has the least value that can be written. -/
def lowestContext : Context :=
  ⟨.empty, none,
    (Registry.ofSources ["<?php enum E: int { case Low = -0x7FFFFFFFFFFFFFFF; }"]).caseValue⟩

/-- A reference to that value. -/
def lowestReference : List Token :=
  [⟨.name "E", 1⟩, ⟨.punct .doubleColon, 1⟩, ⟨.name "Low", 1⟩, ⟨.punct .arrow, 1⟩,
    ⟨.name "value", 1⟩]

def minusSign : Token := ⟨.punct .minus, 1⟩

theorem caseValue_lowest :
    lowestContext.caseValue "E" "Low" = some (.int (-Decimal.maxInt)) := by
  have hint : (lowestContext.caseValue "E" "Low").any
      (fun | .int n => n == -Decimal.maxInt | _ => false) = true := by decide +kernel
  obtain ⟨v, hv, hn⟩ := (Option.any_eq_true _ _).mp hint
  cases v with
  | int n => rw [hv, beq_iff_eq.mp hn]
  | null | bool | float | string | array | enumCase => exact Bool.noConfusion hn

theorem negations_fit_lowest :
    lowestContext.IsBacked ∧ tokens "-E::Low->value" = minusSign :: lowestReference ∧
      (unary lowestContext lowestReference).Is (.int (-Decimal.maxInt)) [] ∧
      IsLiteral (-Decimal.maxInt) ∧
      (unary lowestContext (tokens "-E::Low->value")).Is (.int Decimal.maxInt) [] := by
  have hbacked : lowestContext.IsBacked := Registry.isBacked_ofSources rfl
  have htokens : tokens "-E::Low->value" = minusSign :: lowestReference := by decide +kernel
  have href : IsReference lowestContext "E" "Low" "value" lowestReference :=
    .mk ⟨rfl, "E", rfl, by decide +kernel⟩ rfl (by decide +kernel) (.inl rfl) rfl
  have hlow : (unary lowestContext lowestReference).Is (.int (-Decimal.maxInt)) [] :=
    href.is_unary_value caseValue_lowest []
  have hsubset : lowestReference ⊆ tokens "-E::Low->value" :=
    htokens ▸ List.subset_cons_self minusSign lowestReference
  obtain ⟨-, hunary, -, hnegation⟩ := negations_fit hbacked hsubset
  obtain ⟨-, -, hminus⟩ := hnegation _ _ hlow
  refine ⟨hbacked, htokens, hlow, hunary _ _ hlow _ .self, ?_⟩
  rw [htokens]
  exact hminus minusSign rfl

end Expression

end Php

end FrontendSync
