import FrontendSync.Locale.Php
import FrontendSync.Proofs.Php.Constant
import FrontendSync.Proofs.Php.Extent

/-!
# Returned expressions

The value of a locale file is that of the expression at the start of its first return statement.
It is the value of the whole statement exactly if nothing but the semicolon, or the end of the file,
is behind that expression: what else is there is not looked at.
-/

namespace FrontendSync.Locale

open Php Php.Expression

variable {ctx : Context} {ts us rest : List Token} {v : Value}

/-! ## Statements -/

/-- Some tokens are those behind the first `return`. -/
def IsBehindReturn (ts after : List Token) : Prop :=
  ∃ before t, ts = before ++ t :: after ∧ t.isKeyword "return" = true ∧
    ∀ u ∈ before, u.isKeyword "return" = false

/-- The first return statement, up to its semicolon outside of brackets or to the end, is an
expression of a value. -/
def ReturnsWhole (ctx : Context) (ts : List Token) (v : Value) : Prop :=
  ∃ after, IsBehindReturn ts after ∧ IsWhole ctx v (Brackets.statement 0 after).1

/-- Nothing of a statement is left. -/
def EndsStatement (rest : List Token) : Prop := ∀ t ∈ rest.head?, t.isPunct .semicolon = true

theorem dropWhile_of_isBehindReturn {after : List Token} (h : IsBehindReturn ts after) :
    ∃ t, ts.dropWhile (!Token.isKeyword "return" ·) = t :: after := by
  obtain ⟨before, t, rfl, ht, hbefore⟩ := h
  refine ⟨t, ?_⟩
  rw [List.dropWhile_append_of_pos (by simpa using hbefore),
    List.dropWhile_cons_of_neg (by simp [ht])]

theorem isBehindReturn_of_dropWhile {t : Token} {after : List Token}
    (h : ts.dropWhile (!Token.isKeyword "return" ·) = t :: after) : IsBehindReturn ts after := by
  refine ⟨ts.takeWhile (!Token.isKeyword "return" ·), t, ?_, ?_, fun u hu ↦ ?_⟩
  · rw [← h, List.takeWhile_append_dropWhile]
  · have hhead := List.head?_dropWhile_not (!Token.isKeyword "return" ·) ts
    simpa [h] using hhead
  · simpa using List.all_eq_true.mp List.all_takeWhile u hu

theorem IsBehindReturn.unique {after after' : List Token} (h : IsBehindReturn ts after)
    (h' : IsBehindReturn ts after') : after = after' := by
  obtain ⟨t, ht⟩ := dropWhile_of_isBehindReturn h
  obtain ⟨t', ht'⟩ := dropWhile_of_isBehindReturn h'
  exact (List.cons.inj (ht.symm.trans ht')).2

/-- A statement starts with the first token, unless that ends it. -/
theorem mem_head?_of_mem_statement {t : Token}
    (h : t ∈ (Brackets.statement 0 rest).1.head?) : t ∈ rest.head? := by
  cases rest with
  | nil => exact h
  | cons u rest =>
    rw [Brackets.statement] at h
    split at h
    · exact absurd h (Option.not_mem_none t)
    · exact h

theorem statement_fst_eq_nil_iff : (Brackets.statement 0 rest).1 = [] ↔ EndsStatement rest := by
  cases rest with
  | nil => simp [Brackets.statement, EndsStatement]
  | cons t rest =>
    rw [Brackets.statement]
    by_cases ht : t.isPunct .semicolon = true
    · simp [EndsStatement, ht]
    · simp [EndsStatement, ht]

/-! ## The value -/

/-- An expression is the whole statement exactly if nothing of the statement is left. -/
theorem returnsWhole_iff (hreturn : IsBehindReturn ts (us ++ rest)) (hus : IsWhole ctx v us)
    (hstops : Stops us rest) : ReturnsWhole ctx ts v ↔ EndsStatement rest := by
  have hstatement : (Brackets.statement 0 (us ++ rest)).1 = us ++ (Brackets.statement 0 rest).1 :=
    congrArg Prod.fst (hus.areConstant.passes rest)
  rw [← statement_fst_eq_nil_iff]
  constructor
  · rintro ⟨after, hafter, hwhole⟩
    obtain rfl := hreturn.unique hafter
    rw [hstatement] at hwhole
    -- the expression is read in front of what is left of the statement as well
    have hread := hus.is_read_append fun t ht ↦ hstops t (mem_head?_of_mem_statement ht)
    have hleft := (Reading.is_value_iff _).mp (hread.2 ▸ hwhole.read)
    exact hleft.2
  · intro hend
    refine ⟨us ++ rest, hreturn, ?_⟩
    rwa [hstatement, hend, List.append_nil]

theorem answer_eq_ok_iff {n : Nat} {r : Reading Value n} :
    r.answer = .ok v ↔ ∃ rest, r.Is v rest := by
  cases r with
  | value w rest h => simp [Reading.answer]
  | error e rest => simp [Reading.answer]

/-- What is returned is an expression at the start of the first return statement, and what else the
statement has behind it does not count. -/
theorem returned_eq_ok_iff : returned ctx ts = .ok v ↔
    ∃ us rest, IsBehindReturn ts (us ++ rest) ∧ IsWhole ctx v us ∧ Stops us rest := by
  constructor
  · intro h
    unfold returned at h
    split at h
    · simp at h
    · rename_i t after hdrop
      obtain ⟨rest, hread⟩ := answer_eq_ok_iff.mp h
      obtain ⟨us, rfl, hus, hstops⟩ := exists_isWhole_of_is_read hread
      exact ⟨us, rest, isBehindReturn_of_dropWhile hdrop, hus, hstops⟩
  · rintro ⟨us, rest, hreturn, hus, hstops⟩
    obtain ⟨t, hdrop⟩ := dropWhile_of_isBehindReturn hreturn
    rw [returned, hdrop]
    exact answer_eq_ok_iff.mpr ⟨rest, hus.is_read_append hstops⟩

/-! ## Locale files -/

/-- What the expressions of a locale file may refer to. -/
def fileContext (lookup : String → String → Option Value) (source : String) : Context :=
  ⟨(SourceFile.ofTokens (tokens source)).scope, none, lookup⟩

/-- A locale file is loaded exactly if it returns an array. -/
theorem exists_ofPhp_eq_ok_iff {lookup : String → String → Option Value} {source : String} :
    (∃ ms, ofPhp lookup source = .ok ms) ↔
      ∃ entries, returned (fileContext lookup source) (tokens source) = .ok (.array entries) := by
  change _ ↔ ∃ entries, returnedBy lookup source = .ok (.array entries)
  unfold ofPhp
  cases returnedBy lookup source with
  | error e => simp
  | ok v =>
    cases v with
    | array entries =>
      simp only [Tree.ofValue]
      by_cases hmap : (entries.isEmpty || !Value.isList entries) = true
      · simp [hmap]
      · simp [hmap]
    | _ => simp [Tree.ofValue]

/-- What is returned is the first expression behind the first `return`, and it is the whole
statement exactly if nothing of the statement is left behind it.  What is left keeps no file from
being loaded. -/
theorem returnsWhole_iff_endsStatement (lookup : String → String → Option Value) :
    (∀ ctx ts v, returned ctx ts = .ok v ↔
      ∃ us rest, IsBehindReturn ts (us ++ rest) ∧ IsWhole ctx v us ∧ Stops us rest ∧
        (ReturnsWhole ctx ts v ↔ EndsStatement rest)) ∧
    ∀ source, (∃ ms, ofPhp lookup source = .ok ms) ↔
      ∃ entries us rest, IsBehindReturn (tokens source) (us ++ rest) ∧
        IsWhole (fileContext lookup source) (.array entries) us ∧ Stops us rest := by
  refine ⟨fun ctx ts v ↦ ?_, fun source ↦ ?_⟩
  · rw [returned_eq_ok_iff]
    constructor
    · rintro ⟨us, rest, hreturn, hus, hstops⟩
      exact ⟨us, rest, hreturn, hus, hstops, returnsWhole_iff hreturn hus hstops⟩
    · rintro ⟨us, rest, hreturn, hus, hstops, -⟩
      exact ⟨us, rest, hreturn, hus, hstops⟩
  · rw [exists_ofPhp_eq_ok_iff]
    simp only [returned_eq_ok_iff]

/-- A union of two arrays. -/
def unionSource : String := "<?php return ['a' => 'x'] + ['b' => 'y'];"

theorem not_returnsWhole_unionSource :
    ∃ v, returned bareContext (tokens unionSource) = .ok v ∧
      ¬ ReturnsWhole bareContext (tokens unionSource) v ∧
      (ofPhp (fun _ _ ↦ none) unionSource).map Ordered.keys = .ok ["a"] := by
  have hvalue : (returned bareContext (tokens unionSource)).isOk = true := by decide +kernel
  -- the operator and the second array are left of the statement
  have hleft : (read bareContext (Brackets.statement 0
      ((tokens unionSource).dropWhile (!Token.isKeyword "return" ·)).tail).1).rest ≠ [] := by
    decide +kernel
  obtain ⟨v, hv⟩ : ∃ v, returned bareContext (tokens unionSource) = .ok v := by
    cases hreturned : returned bareContext (tokens unionSource) with
    | ok v => exact ⟨v, rfl⟩
    | error e => simp [hreturned, Except.isOk, Except.toBool] at hvalue
  refine ⟨v, hv, ?_, by decide +kernel⟩
  rintro ⟨after, hafter, hwhole⟩
  obtain ⟨t, ht⟩ := dropWhile_of_isBehindReturn hafter
  obtain ⟨hlt, hread⟩ := hwhole.read
  rw [ht, List.tail_cons, hread] at hleft
  exact hleft rfl

end FrontendSync.Locale
