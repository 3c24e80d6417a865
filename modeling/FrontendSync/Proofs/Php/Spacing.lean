import FrontendSync.Proofs.Php.Spelling

/-!
# Tokens with spaces between them

Tokens that are written with a space between any two of them are read back, each on the line on
which it is written.
-/

namespace FrontendSync.Php

open Lexeme (ofKind blank AreReadBefore textOf)

namespace Token.Kind

theorem stops_nil (k : Kind) : k.Stops [] := by
  cases k with
  | punct p => cases p <;> simp [Stops]
  | _ => simp [Stops]

/-- A space continues no token. -/
theorem stops_space (k : Kind) (rest : List Char) : k.Stops (' ' :: rest) := by
  have hname : Lexeme.isNameChar ' ' = false := rfl
  have hblank : Text.isBlank ' ' = true := rfl
  cases k with
  | punct p => cases p <;> simp [Stops]
  | _ => simp [Stops, hname, hblank]

end Token.Kind

/-- Tokens as text, with a space between any two of them. -/
def spaced (ks : List Token.Kind) : List Char := [' '].intercalate (ks.map Token.Kind.spelling)

/-- The text in front of the token that follows these. -/
def spacedFront (ks : List Token.Kind) : List Char := ks.flatMap fun k ↦ k.spelling ++ [' ']

theorem spaced_cons_cons (k l : Token.Kind) (ks : List Token.Kind) :
    spaced (k :: l :: ks) = k.spelling ++ ' ' :: spaced (l :: ks) := by
  simp only [spaced, List.map_cons, List.intercalate_cons_cons, List.append_assoc,
    List.singleton_append]

theorem exists_spaced_cons (k : Token.Kind) (ks : List Token.Kind) :
    ∃ rest, spaced (k :: ks) = k.spelling ++ rest := by
  cases ks with
  | nil => exact ⟨[], by simp [spaced]⟩
  | cons l ks => exact ⟨' ' :: spaced (l :: ks), spaced_cons_cons k l ks⟩

theorem spaced_append_cons (front : List Token.Kind) (k : Token.Kind) (ks : List Token.Kind) :
    spaced (front ++ k :: ks) = spacedFront front ++ spaced (k :: ks) := by
  induction front with
  | nil => rfl
  | cons l front ih =>
    obtain ⟨m, more, hm⟩ := List.exists_cons_of_ne_nil (show front ++ k :: ks ≠ [] by simp)
    rw [List.cons_append, hm, spaced_cons_cons, ← hm, ih, spacedFront, spacedFront,
      List.flatMap_cons, List.append_assoc, List.append_assoc, List.singleton_append]

/-! ## Lexemes -/

/-- Tokens with a space in front of each. -/
def behindSpaces (ks : List Token.Kind) : List Lexeme := ks.flatMap fun k ↦ [blank ' ', ofKind k]

theorem textOf_behindSpaces (k : Token.Kind) (ks : List Token.Kind) :
    textOf (ofKind k :: behindSpaces ks) = spaced (k :: ks) := by
  induction ks generalizing k with
  | nil => simp [behindSpaces, spaced, ofKind]
  | cons l ks ih =>
    rw [spaced_cons_cons, ← ih]
    simp [behindSpaces, ofKind, blank]

theorem stops_textOf_behindSpaces (k : Token.Kind) (ks : List Token.Kind) :
    k.Stops (textOf (behindSpaces ks)) := by
  cases ks with
  | nil => exact k.stops_nil
  | cons l ks => exact k.stops_space _

theorem areReadBefore_behindSpaces {k : Token.Kind} {ks : List Token.Kind}
    (h : ∀ l ∈ k :: ks, l.IsSpelled) : AreReadBefore (ofKind k :: behindSpaces ks) [] := by
  induction ks generalizing k with
  | nil => exact ⟨Lexeme.isReadBefore_ofKind (h k (by simp)) k.stops_nil, trivial⟩
  | cons l ks ih =>
    obtain ⟨hk, hks⟩ := List.forall_mem_cons.mp h
    refine ⟨Lexeme.isReadBefore_ofKind hk ?_, Lexeme.isReadBefore_blank rfl _, ih hks⟩
    rw [List.append_nil]
    exact stops_textOf_behindSpaces k (l :: ks)

/-! ## Lines -/

/-- Tokens of which each starts on the line on which the one in front of it ends. -/
def placed : Nat → List Token.Kind → List Token
  | _, [] => []
  | line, k :: ks => ⟨k, line⟩ :: placed (line + k.spelling.count '\n') ks

theorem tokens_behindSpaces (line : Nat) (ks : List Token.Kind) :
    Lexeme.tokens line (behindSpaces ks) = placed line ks := by
  induction ks generalizing line with
  | nil => rfl
  | cons k ks ih =>
    rw [behindSpaces, List.flatMap_cons, placed, ← ih]
    rfl

theorem map_kind_placed (line : Nat) (ks : List Token.Kind) :
    (placed line ks).map Token.kind = ks := by
  induction ks generalizing line with
  | nil => rfl
  | cons k ks ih => rw [placed, List.map_cons, ih]

theorem getElem?_placed (line : Nat) (front : List Token.Kind) (k : Token.Kind)
    (ks : List Token.Kind) :
    (placed line (front ++ k :: ks))[front.length]?
      = some ⟨k, line + (spacedFront front).count '\n'⟩ := by
  induction front generalizing line with
  | nil => rfl
  | cons l front ih =>
    have hcount : (spacedFront (l :: front)).count '\n'
        = l.spelling.count '\n' + (spacedFront front).count '\n' := by
      simp [spacedFront]
    rw [List.cons_append, placed, List.length_cons, List.getElem?_cons_succ, ih, hcount,
      Nat.add_assoc]

theorem tokens_spaced_eq_placed {ks : List Token.Kind} (h : ∀ k ∈ ks, k.IsSpelled) :
    tokens (String.ofList (spaced ks)) = placed 1 ks := by
  cases ks with
  | nil => rfl
  | cons k ks =>
    rw [← textOf_behindSpaces, tokens_textOf (areReadBefore_behindSpaces h), Lexeme.tokens_ofKind,
      tokens_behindSpaces]
    rfl

/-- Tokens written with spaces between them are read back, each on the line on which it is
written. -/
theorem tokens_spaced {ks : List Token.Kind} (h : ∀ k ∈ ks, k.IsSpelled) :
    (tokens (String.ofList (spaced ks))).map Token.kind = ks ∧
      ∀ front k behind, ks = front ++ k :: behind →
        (∃ rest, spaced ks = spacedFront front ++ (k.spelling ++ rest)) ∧
        (tokens (String.ofList (spaced ks)))[front.length]?
          = some ⟨k, 1 + (spacedFront front).count '\n'⟩ := by
  rw [tokens_spaced_eq_placed h]
  refine ⟨map_kind_placed 1 ks, ?_⟩
  rintro front k behind rfl
  refine ⟨?_, getElem?_placed 1 front k behind⟩
  obtain ⟨rest, hrest⟩ := exists_spaced_cons k behind
  exact ⟨rest, by rw [spaced_append_cons, hrest]⟩

/-- Tokens that could be taken for one another, or that hold spaces, quotes and line breaks. -/
def mixedKinds : List Token.Kind :=
  [.name "\\App\\Größe", .var "ä1", .string "don't \\\n", .docComment "/** a\n * b */",
    .int Decimal.maxInt, .symbol '=', .symbol '\\', .symbol '<', .punct .assign,
    .punct .question, .punct .nullsafeArrow, .punct .dot, .string "", .name "_"]

theorem isSpelled_mixedKinds : ∀ k ∈ mixedKinds, k.IsSpelled := by
  have hname : IsName "\\App\\Größe".toList := by
    refine ⟨?_, by simp [IsNameTail, Lexeme.isNameChar, Lexeme.isNameStart], by simp⟩
    rintro c s heq
    obtain ⟨rfl, rfl⟩ := List.cons.inj heq
    exact ⟨rfl, .inr ⟨rfl, rfl⟩⟩
  have hword : IsName "_".toList := isName_of_isIdentifier rfl
  have hvar : (Token.Kind.var "ä1").IsSpelled :=
    ⟨'ä', ['1'], rfl, rfl, List.forall_mem_singleton.mpr rfl⟩
  have hdoc : (Token.Kind.docComment "/** a\n * b */").IsSpelled :=
    ⟨" a\n * b ".toList, rfl, by decide, by decide⟩
  have hint : (Token.Kind.int Decimal.maxInt).IsSpelled := ⟨by decide, le_rfl⟩
  have hequals : (Token.Kind.symbol '=').IsSpelled := ⟨rfl, rfl, by decide, .inl rfl⟩
  have hslash : (Token.Kind.symbol '\\').IsSpelled :=
    ⟨rfl, rfl, by decide, .inr fun p ↦ by cases p <;> decide⟩
  have hless : (Token.Kind.symbol '<').IsSpelled :=
    ⟨rfl, rfl, by decide, .inr fun p ↦ by cases p <;> decide⟩
  simp only [mixedKinds, List.forall_mem_cons]
  exact ⟨hname, hvar, trivial, hdoc, hint, hequals, hslash, hless, trivial, trivial, trivial,
    trivial, trivial, hword, List.forall_mem_nil _⟩

theorem tokens_spaced_mixedKinds : (∀ k ∈ mixedKinds, k.IsSpelled) ∧
    (tokens (String.ofList (spaced mixedKinds))).map Token.kind = mixedKinds ∧
    (tokens (String.ofList (spaced mixedKinds)))[13]? = some ⟨.name "_", 3⟩ := by
  obtain ⟨hkinds, hplaces⟩ := tokens_spaced isSpelled_mixedKinds
  exact ⟨isSpelled_mixedKinds, hkinds, (hplaces mixedKinds.dropLast (.name "_") [] rfl).2⟩

end FrontendSync.Php
