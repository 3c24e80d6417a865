import FrontendSync.Proofs.Php.EnumNames
import FrontendSync.Proofs.Php.Members.Reading

/-!
# Imports as they are written

Class imports name their classes one by one or as a group with a common part, each with an alias if
it has one.  The reader of files puts all of them into the scope.
-/

namespace FrontendSync.Php

open Brackets (Nested)

namespace Written

/-- Functions and constants have imports of their own, which begin with another word. -/
structure ClassName extends Name where
  ofClass : (token.isKeyword "function" || token.isKeyword "const") = false

/-! ## Clauses -/

/-- A class to import, and the name it has in the file if that is not its own. -/
structure Clause where
  name : ClassName
  short : Option (Keyword "as" × Name)

namespace Clause

def shortTokens (c : Clause) : List Token := c.short.elim [] fun a ↦ [a.1.1, a.2.token]

def tokens (c : Clause) : List Token := c.name.token :: c.shortTokens

def qualified (common : String) (c : Clause) : String :=
  let name := Name.dropRoot c.name.text
  if common = "" then name else common ++ "\\" ++ name

/-- The alias in lower case, or else the last segment of the class, and the class. -/
def imported (common : String) (c : Clause) : String × String :=
  ((c.short.elim (Name.short (c.qualified common)) fun a ↦ a.2.text).toLower, c.qualified common)

/-- The words of a clause are names. -/
theorem exists_of_mem_tokens {c : Clause} {t : Token} (ht : t ∈ c.tokens) :
    ∃ text, t.kind = .name text := by
  rw [tokens, shortTokens] at ht
  rcases List.mem_cons.mp ht with rfl | ht
  · exact ⟨_, c.name.kind_eq⟩
  · cases hshort : c.short with
    | none => simp [hshort] at ht
    | some a =>
      obtain ⟨text, hkind, -⟩ := Token.exists_of_keyword? a.1.2
      simp only [hshort, Option.elim_some, List.mem_cons, List.not_mem_nil, or_false] at ht
      rcases ht with rfl | rfl
      · exact ⟨text, hkind⟩
      · exact ⟨_, a.2.kind_eq⟩

theorem isPunct_of_mem_tokens {c : Clause} {t : Token} (ht : t ∈ c.tokens) (p : Punct) :
    t.isPunct p = false := by
  obtain ⟨text, hkind⟩ := exists_of_mem_tokens ht
  exact (Token.opens_of_kind_name hkind).2.2 p

theorem nested (c : Clause) : Nested (fun t ↦ t.isPunct .comma = false) c.tokens := by
  have hflat : ∀ t ∈ c.tokens, ∃ text, t.kind = .name text := fun _ ht ↦ exists_of_mem_tokens ht
  generalize c.tokens = ts at hflat
  induction ts with
  | nil => exact .nil
  | cons t ts ih =>
    obtain ⟨⟨text, hkind⟩, hts⟩ := List.forall_mem_cons.mp hflat
    obtain ⟨hopens, hcloses, hmarks⟩ := Token.opens_of_kind_name hkind
    exact .token hopens hcloses (hmarks _) (ih hts)

theorem ofTokens?_tokens (common : String) (c : Clause) :
    Import.ofTokens? common c.tokens = some (c.imported common) := by
  rw [tokens, shortTokens, Import.ofTokens?, c.name.toName.name?_eq, imported]
  cases c.short with
  | none => rfl
  | some a => simp [Token.isKeyword, a.1.2, a.2.name?_eq, qualified]

/-- A clause is read up to the comma behind it. -/
theorem ofStatement_append (c : Clause) {ts : List Token}
    (h : ∀ t ∈ ts.head?, t.isPunct .comma = true) :
    Import.ofStatement (c.tokens ++ ts) = c.imported "" :: Import.ofStatement ts.tail := by
  have hshort : ∀ t ∈ c.shortTokens, (!t.isPunct .comma) = true := fun t ht ↦ by
    simp [isPunct_of_mem_tokens (List.mem_cons_of_mem _ ht)]
  have hpiece : (c.shortTokens ++ ts).takeWhile (!Token.isPunct .comma ·) = c.shortTokens := by
    rw [List.takeWhile_append_of_pos hshort]
    cases ts with
    | nil => simp
    | cons t ts => simp [h t rfl]
  have hbraces : Import.braces? (c.shortTokens ++ ts) = none := by
    have hhead : ∀ t ∈ (c.shortTokens ++ ts).head?, t.isSymbol '\\' = false := by
      intro t ht
      rw [List.head?_append] at ht
      cases hfirst : c.shortTokens.head? with
      | some u =>
        obtain rfl : u = t := by simpa [hfirst] using ht
        obtain ⟨text, hkind⟩ := exists_of_mem_tokens
          (List.mem_cons_of_mem _ (List.mem_of_mem_head? hfirst))
        simp [Token.isSymbol, hkind]
      | none =>
        have hcomma := h t (by simpa [hfirst] using ht)
        simp only [Token.isPunct, beq_iff_eq] at hcomma
        simp [Token.isSymbol, hcomma]
    unfold Import.braces?
    split
    · rename_i slash brace rest heq
      simp [hhead slash (by rw [heq]; rfl)]
    · rfl
  have hone := c.ofTokens?_tokens ""
  rw [tokens] at hone
  have hrest : (c.shortTokens ++ ts).drop (c.shortTokens.length + 1) = ts.tail := by
    rw [List.drop_append, List.drop_eq_nil_of_le (Nat.le_succ _)]
    simp
  rw [tokens, List.cons_append, Import.ofStatement, c.name.toName.name?_eq]
  simp only
  split
  · rename_i heq
    exact absurd (hbraces.symm.trans heq) (by simp)
  · simp [hpiece, hone, hrest]

end Clause

/-- Clauses with commas between them. -/
structure Clauses where
  first : Clause
  more : List (Mark .comma × Clause)

namespace Clauses

def tokens (cs : Clauses) : List Token :=
  cs.first.tokens ++ cs.more.flatMap fun m ↦ m.1.1 :: m.2.tokens

def all (cs : Clauses) : List Clause := cs.first :: cs.more.map Prod.snd

theorem ofStatement_tokens (cs : Clauses) :
    Import.ofStatement cs.tokens = cs.all.map (Clause.imported "") := by
  obtain ⟨first, more⟩ := cs
  simp only [tokens, all]
  induction more generalizing first with
  | nil =>
    rw [List.flatMap_nil, first.ofStatement_append (by simp), List.tail_nil, Import.ofStatement]
    rfl
  | cons m more ih =>
    have hcomma : m.1.1.isPunct .comma = true := by simp [m.1.isPunct_eq]
    rw [List.flatMap_cons, List.cons_append, first.ofStatement_append (by simp [hcomma]),
      List.tail_cons, ih m.2]
    rfl

/-- A comma may stand behind the last clause. -/
theorem items_tokens (cs : Clauses) (trailing : Option (Mark .comma)) :
    Brackets.items (cs.tokens ++ (trailing.map Subtype.val).toList)
      = cs.all.map Clause.tokens := by
  obtain ⟨first, more⟩ := cs
  simp only [tokens, all]
  induction more generalizing first with
  | nil =>
    have hne : first.tokens ≠ [] := List.cons_ne_nil _ _
    rw [List.flatMap_nil, List.append_nil]
    cases trailing with
    | none => simpa using Brackets.items_of_nested first.nested hne fun _ h ↦ h
    | some comma => exact Brackets.items_append_comma first.nested hne comma.2 []
  | cons m more ih =>
    have hne : first.tokens ≠ [] := List.cons_ne_nil _ _
    rw [List.flatMap_cons, List.append_assoc, List.cons_append, List.cons_append,
      Brackets.items_append_comma first.nested hne m.1.2, ih m.2]
    rfl

theorem balanced (cs : Clauses) : Balanced cs.tokens := by
  refine (cs.first.nested.mono fun _ _ ↦ trivial).append (.flatMap fun m _ ↦ ?_)
  exact (balanced_mark rfl rfl m.1).append (m.2.nested.mono fun _ _ ↦ trivial)

theorem isPunct_of_mem_tokens {cs : Clauses} {t : Token} (ht : t ∈ cs.tokens) {p : Punct}
    (hp : p ≠ .comma) : t.isPunct p = false := by
  rcases List.mem_append.mp ht with ht | ht
  · exact Clause.isPunct_of_mem_tokens ht p
  · obtain ⟨m, -, ht⟩ := List.mem_flatMap.mp ht
    rcases List.mem_cons.mp ht with rfl | ht
    · simp [m.1.isPunct_eq, hp.symm]
    · exact Clause.isPunct_of_mem_tokens ht p

end Clauses

/-! ## Statements -/

/-- What is written behind `use`: classes, or a group of them inside of a common part. -/
inductive UseText where
  | classes (clauses : Clauses)
  | group (common : ClassName) (slash : { t : Token // t.kind = .symbol '\\' })
      (opener : Mark .braceOpen) (clauses : Clauses) (trailing : Option (Mark .comma))
      (closer : Mark .braceClose)

namespace UseText

def tokens : UseText → List Token
  | classes clauses => clauses.tokens
  | group common slash opener clauses trailing closer =>
    common.token :: slash.1 :: opener.1 ::
      ((clauses.tokens ++ (trailing.map Subtype.val).toList) ++ [closer.1])

def imported : UseText → List (String × String)
  | classes clauses => clauses.all.map (Clause.imported "")
  | group common _ _ clauses _ _ => clauses.all.map (Clause.imported (Name.dropRoot common.text))

theorem ofStatement_tokens (text : UseText) : Import.ofStatement text.tokens = text.imported := by
  cases text with
  | classes clauses => exact clauses.ofStatement_tokens
  | group common slash opener clauses trailing closer =>
    have htrailing : Balanced (trailing.map Subtype.val).toList := by
      cases trailing with
      | none => exact .nil
      | some comma => exact balanced_mark rfl rfl comma
    have hslash : slash.1.isSymbol '\\' = true := by simp [Token.isSymbol, slash.2]
    have hbraces : Import.braces? (slash.1 :: opener.1 ::
        ((clauses.tokens ++ (trailing.map Subtype.val).toList) ++ [closer.1]))
          = some (clauses.tokens ++ (trailing.map Subtype.val).toList, []) := by
      rw [Import.braces?, hslash, opener.isPunct_eq,
        Brackets.group_append_closer (clauses.balanced.append htrailing) closer.closes_eq]
      rfl
    rw [tokens, imported, Import.ofStatement, common.toName.name?_eq]
    simp only
    split
    · rename_i inside after heq
      rw [hbraces, Option.some.injEq, Prod.mk.injEq] at heq
      obtain ⟨rfl, rfl⟩ := heq
      rw [clauses.items_tokens, List.filterMap_map, Import.ofStatement, List.append_nil]
      exact List.filterMap_eq_map_iff_forall_eq_some.mpr fun c _ ↦ c.ofTokens?_tokens _
    · rename_i heq
      exact absurd (hbraces.symm.trans heq) (by simp)

theorem isOfClasses_append (text : UseText) (ts : List Token) :
    Import.isOfClasses (text.tokens ++ ts) = true := by
  cases text with
  | classes clauses => simpa [tokens, Clauses.tokens, Clause.tokens, Import.isOfClasses] using
      clauses.first.name.ofClass
  | group common => simpa [tokens, Import.isOfClasses] using common.ofClass

theorem isPunct_semicolon {text : UseText} {t : Token} (ht : t ∈ text.tokens) :
    t.isPunct .semicolon = false := by
  cases text with
  | classes clauses => exact Clauses.isPunct_of_mem_tokens ht (by decide)
  | group common slash opener clauses trailing closer =>
    simp only [tokens, List.mem_cons, List.mem_append, Option.mem_toList, List.not_mem_nil,
      or_false] at ht
    rcases ht with rfl | rfl | rfl | (ht | ht) | rfl
    · exact (Token.opens_of_kind_name common.kind_eq).2.2 _
    · simp [Token.isPunct, slash.2]
    · exact Mark.isPunct_eq opener _
    · exact Clauses.isPunct_of_mem_tokens ht (by decide)
    · obtain ⟨comma, -, rfl⟩ := Option.map_eq_some_iff.mp ht
      exact Mark.isPunct_eq comma _
    · exact Mark.isPunct_eq closer _

end UseText

/-- A statement ends at its first semicolon. -/
theorem splitAt_append_semicolon {ts : List Token} (h : ∀ t ∈ ts, t.isPunct .semicolon = false)
    (stop : Mark .semicolon) (rest : List Token) :
    Brackets.splitAt (Token.isPunct .semicolon) (ts ++ stop.1 :: rest) = (ts, rest) := by
  have hstop : stop.1.isPunct .semicolon = true := by simp [stop.isPunct_eq]
  have hts : ∀ t ∈ ts, (!t.isPunct .semicolon) = true := fun t ht ↦ by simp [h t ht]
  simp [Brackets.splitAt, List.takeWhile_append_of_pos hts, hstop, List.drop_append]

/-- An import of classes. -/
structure Use where
  keyword : Keyword "use"
  text : UseText
  stop : Mark .semicolon

namespace Use

def tokens (u : Use) : List Token := u.keyword.1 :: (u.text.tokens ++ [u.stop.1])

theorem splitAt_append (u : Use) (rest : List Token) :
    Brackets.splitAt (Token.isPunct .semicolon) (u.text.tokens ++ u.stop.1 :: rest)
      = (u.text.tokens, rest) :=
  splitAt_append_semicolon (fun _ ↦ UseText.isPunct_semicolon) u.stop rest

theorem addImports_append (u : Use) (scope : Scope) (rest : List Token) :
    scope.addImports (u.text.tokens ++ u.stop.1 :: rest)
      = { scope with imports := Ordered.insertAll scope.imports u.text.imported } := by
  rw [Scope.addImports, if_pos (u.text.isOfClasses_append _), u.splitAt_append,
    u.text.ofStatement_tokens]

/-- Where imports may stand, one of them is read into the scope. -/
theorem step_eq (u : Use) {s : FileState} (hs : s.depth = s.importDepth) (rest : List Token) :
    SourceFile.step s u.keyword.1 (u.text.tokens ++ u.stop.1 :: rest) = ⟨none,
      { s with scope := { s.scope with
          imports := Ordered.insertAll s.scope.imports u.text.imported } }, rest⟩ := by
  obtain ⟨word, hkind, hword⟩ := Token.exists_of_keyword? u.keyword.2
  simp only [SourceFile.step, hkind, hword, if_pos hs, u.addImports_append, u.splitAt_append]

end Use

end Written

end FrontendSync.Php
