import FrontendSync.Proofs.Php.Literal

/-!
# Constants

The values that can be written as constant expressions in any scope and any class: classes are
named from the root.  Every expression for such a value is read as the value, and all of its text
is used up.
-/

namespace FrontendSync.Php

open Expression
open Lexeme (ofKind blank)

/-! ## Names -/

/-- A name of one segment. -/
def IsWord (text : String) : Prop :=
  ∃ c s, text.toList = c :: s ∧ Lexeme.isNameStart c = true ∧ ∀ d ∈ s, Lexeme.isNameChar d = true

theorem isWord_of_isIdentifier {text : String} (h : isIdentifier text.toList = true) :
    IsWord text := by
  obtain ⟨c, s, htext, -, hstart, htail⟩ := exists_of_isIdentifier h
  exact ⟨c, s, htext, hstart, htail⟩

/-- A name of one or more segments without a root. -/
def IsQualified (name : String) : Prop :=
  ∃ c s, name.toList = c :: s ∧ Lexeme.isNameStart c = true ∧ IsNameTail s

/-- The name of a case that can be referred to: what starts with a character of white space is not
read as a whole, and `class` is no case. -/
structure IsCaseName (name : String) : Prop where
  word : IsWord name
  notBlank : name.toList.head?.any Text.isBlank = false
  notClass : name.toLower ≠ "class"

theorem IsCaseName.isName {name : String} (h : IsCaseName name) : IsName name.toList := by
  obtain ⟨c, s, hname, hstart, htail⟩ := h.word
  have hblank := h.notBlank
  rw [hname] at hblank ⊢
  exact isName_cons hblank hstart (isNameTail_of_all htail)

/-- A name from the root. -/
def rooted (name : String) : String := "\\" ++ name

theorem toList_rooted (name : String) : (rooted name).toList = '\\' :: name.toList :=
  String.toList_append

theorem isName_rooted {name : String} (h : IsQualified name) : IsName (rooted name).toList := by
  obtain ⟨c, s, hname, hstart, htail⟩ := h
  have htail' : IsNameTail (c :: s) := ⟨.inl (Lexeme.isNameChar_of_isNameStart hstart), htail⟩
  rw [toList_rooted, hname]
  refine ⟨?_, htail', List.cons_ne_nil _ _⟩
  rintro d t heq
  obtain ⟨rfl, rfl⟩ := List.cons.inj heq
  exact ⟨rfl, .inr ⟨rfl, hstart⟩⟩

/-- A name from the root stands for the same class everywhere. -/
theorem className?_rooted (ctx : Context) (name : String) :
    className? ctx (rooted name) = some name := by
  have hlower {text : String} (htext : text.toList.head? ≠ some '\\') :
      (rooted name).toLower ≠ text := by
    rintro rfl
    apply htext
    have htoLower : (rooted name).toLower.toList = (rooted name).toList.map Char.toLower :=
      String.toList_map
    rw [htoLower, toList_rooted]
    rfl
  have hself : ¬((rooted name).toLower = "self" ∨ (rooted name).toLower = "static") := by
    rintro (h | h)
    · exact hlower (by decide) h
    · exact hlower (by decide) h
  rw [className?, if_neg hself, Scope.resolve, toList_rooted]
  exact congrArg some String.ofList_toList

/-! ## Values -/

/-- An integer whose successor fits 64 bits as well, or a text that is the text of no integer. -/
def Key.IsConstant : Key → Prop
  | .int n => -Decimal.maxInt ≤ n ∧ n < Decimal.maxInt
  | .string text => ∀ n, Decimal.fits n = true → Decimal.ofInt n ≠ text

inductive Value.IsConstant : Value → Prop
  | null : IsConstant .null
  | bool (b : Bool) : IsConstant (.bool b)
  | int {n : Int} : -Decimal.maxInt ≤ n → n ≤ Decimal.maxInt → IsConstant (.int n)
  | string (text : String) : IsConstant (.string text)
  | array {entries : List (Key × Value)} : (Ordered.keys entries).Nodup →
      (∀ e ∈ entries, e.1.IsConstant) → (∀ e ∈ entries, IsConstant e.2) →
      IsConstant (.array entries)
  | enumCase {className caseName : String} : IsQualified className → IsCaseName caseName →
      IsConstant (.enumCase className caseName)

/-- A value as it is usually written. -/
def Value.source (v : Value) : String := String.ofList (Lexeme.textOf (v.lexemes rooted))

theorem Key.IsConstant.isWritable {k : Key} (h : k.IsConstant) : k.IsWritable := by
  cases k with
  | int n => exact ⟨h.1, Int.le_of_lt h.2⟩
  | string text => exact Decimal.canonicalInt?_eq_none_iff.mpr h

theorem Value.IsConstant.isWritable {v : Value} (h : v.IsConstant) (ctx : Context) :
    v.IsWritable ctx rooted := by
  induction h with
  | null => exact .null
  | bool b => exact .bool b
  | int hlow hhigh => exact .int ⟨hlow, hhigh⟩
  | string text => exact .string text
  | array hnodup hkeys _ ih => exact .array hnodup (fun e he ↦ (hkeys e he).isWritable) ih
  | enumCase hclass hcase =>
    exact .enumCase (className?_rooted ctx _) (isName_rooted hclass) hcase.isName hcase.notClass

namespace Expression

variable {ctx : Context} {ls : List Lexeme} {v w : Value}

/-- The text of an expression is read to its end. -/
theorem UnaryReads.is_read_text (h : UnaryReads ctx ls v) (hls : Lexeme.AreSeparable ls) :
    (read ctx (tokens (String.ofList (Lexeme.textOf ls)))).Is v [] := by
  have hread := h.reads 1 [] ends_nil
  rw [List.append_nil] at hread
  have hbreaks : Lexeme.Breaks [] := fun c hc ↦ by contradiction
  rwa [tokens_textOf (hls [] hbreaks)]

end Expression

/-- The usual text of a constant is read as the constant, and so is every other text for it. -/
theorem Value.IsConstant.is_read {v : Value} (h : v.IsConstant) (ctx : Context) :
    (read ctx (tokens v.source)).Is v [] ∧
      ∀ ls, v.IsWrittenAs rooted ls →
        (read ctx (tokens (String.ofList (Lexeme.textOf ls)))).Is v [] := by
  have hwritable := h.isWritable ctx
  have hread {ls : List Lexeme} (hls : v.IsWrittenAs rooted ls) :
      (read ctx (tokens (String.ofList (Lexeme.textOf ls)))).Is v [] :=
    (hwritable.unaryReads_of_isWrittenAs hls).is_read_text
      (hwritable.areSeparable_of_isWrittenAs hls)
  exact ⟨hread hwritable.isWrittenAs, fun ls hls ↦ hread hls⟩

/-! ## Names that are no names of cases -/

theorem Value.source_enumCase (className caseName : String) :
    (Value.enumCase className caseName).source
      = String.ofList (Lexeme.textOf [ofKind (.name (rooted className)),
          ofKind (.punct .doubleColon), ofKind (.name caseName)]) := by
  rw [Value.source, Value.lexemes]

section Cases

variable {className caseName : String} (ctx : Context) (hclass : IsQualified className)

include hclass

/-- `class` in any letter case gives the name of the class. -/
theorem is_read_source_className (hname : IsName caseName.toList)
    (hcase : caseName.toLower = "class") :
    (read ctx (tokens (Value.enumCase className caseName).source)).Is (.string className) [] := by
  have hreads : UnaryReads ctx [ofKind (.name (rooted className)), ofKind (.punct .doubleColon),
      ofKind (.name caseName)] (.string className) := by
    intro line rest _
    rw [Lexeme.tokens_ofKind, Lexeme.tokens_ofKind, Lexeme.tokens_ofKind, Lexeme.tokens_nil,
      List.cons_append, List.cons_append, List.singleton_append]
    refine is_unary_member rfl rfl (className?_rooted ctx className) (is_member_class ?_ rest)
    rw [Token.isKeyword_eq rfl]
    exact beq_of_eq hcase
  rw [Value.source_enumCase]
  refine hreads.is_read_text fun rest hrest ↦ ?_
  have hrooted := Lexeme.areSeparable_name (isName_rooted hclass)
  refine ⟨(hrooted _ (Lexeme.breaks_cons (by decide) _)).1, ?_⟩
  exact ⟨Lexeme.isReadBefore_punct trivial, Lexeme.areSeparable_name hname rest hrest⟩

/-- White space before the name of a case is no part of it. -/
theorem is_read_source_blank {c : Char} (hc : Text.isBlank c = true) (hcase : IsCaseName caseName) :
    (read ctx (tokens
      (Value.enumCase className (String.ofList (c :: caseName.toList))).source)).Is
        (.enumCase className caseName) [] := by
  have hreads : UnaryReads ctx [ofKind (.name (rooted className)), ofKind (.punct .doubleColon),
      blank c, ofKind (.name caseName)] (.enumCase className caseName) := by
    intro line rest hrest
    rw [Lexeme.tokens_ofKind, Lexeme.tokens_ofKind, Lexeme.tokens_blank, Lexeme.tokens_ofKind,
      Lexeme.tokens_nil]
    exact is_unary_member rfl rfl (className?_rooted ctx className)
      (is_member_enumCase hcase.notClass _ hrest)
  have htext : (Value.enumCase className (String.ofList (c :: caseName.toList))).source
      = String.ofList (Lexeme.textOf [ofKind (.name (rooted className)),
          ofKind (.punct .doubleColon), blank c, ofKind (.name caseName)]) := by
    rw [Value.source_enumCase]
    simp [Lexeme.textOf, ofKind, blank, Token.Kind.spelling]
  rw [htext]
  refine hreads.is_read_text fun rest hrest ↦ ?_
  have hrooted := Lexeme.areSeparable_name (isName_rooted hclass)
  refine ⟨(hrooted _ (Lexeme.breaks_cons (by decide) _)).1, ?_⟩
  refine ⟨Lexeme.isReadBefore_punct trivial, Lexeme.isReadBefore_blank hc _, ?_⟩
  exact Lexeme.areSeparable_name hcase.isName rest hrest

end Cases

/-- The context of an expression outside of all classes. -/
def bareContext : Context := ⟨Scope.empty, none, fun _ _ ↦ none⟩

theorem isQualified_A : IsQualified "A" := ⟨'A', [], rfl, by decide, trivial⟩

/-- A case that is named as the keyword in capital letters, and one whose name starts with a
no-break space. -/
theorem not_is_read_source :
    (IsWord "CLASS" ∧ "CLASS" ≠ "class" ∧
      ¬(read bareContext (tokens (Value.enumCase "A" "CLASS").source)).Is
        (.enumCase "A" "CLASS") []) ∧
      (IsWord "\u00a0B" ∧ "\u00a0B" ≠ "class" ∧
        ¬(read bareContext (tokens (Value.enumCase "A" "\u00a0B").source)).Is
          (.enumCase "A" "\u00a0B") []) := by
  have hclass : IsWord "CLASS" := isWord_of_isIdentifier (by decide)
  have hspace : IsWord "\u00a0B" :=
    ⟨'\u00a0', ['B'], rfl, by decide, List.forall_mem_singleton.mpr rfl⟩
  have hcase : IsCaseName "B" :=
    ⟨isWord_of_isIdentifier (by decide), by decide, by decide +kernel⟩
  refine ⟨⟨hclass, by decide, fun h ↦ ?_⟩, ⟨hspace, by decide, fun h ↦ ?_⟩⟩
  · have hread := is_read_source_className bareContext isQualified_A
      (isName_of_isIdentifier (by decide)) (show "CLASS".toLower = "class" by decide +kernel)
    cases h.unique hread
  · have hread := is_read_source_blank bareContext isQualified_A
      (show Text.isBlank '\u00a0' = true by decide) hcase
    have heq := (Value.enumCase.inj (h.unique hread)).2
    exact absurd heq (by decide)

/-! ## Some constants -/

/-- A list with a case in it. -/
def listEntries : List (Key × Value) := [(.int 0, .enumCase "A\\B" "C"), (.int 1, .bool true)]

/-- A negative key, a text with a quote in it, and the list. -/
def mixedEntries : List (Key × Value) :=
  [(.int (-5), .string "it's"), (.string "k", .array listEntries)]

theorem isConstant_mixedEntries : (Value.array mixedEntries).IsConstant := by
  have hclass : IsQualified "A\\B" :=
    ⟨'A', ['\\', 'B'], rfl, by decide, .inr ⟨rfl, by decide⟩, .inl (by decide), trivial⟩
  have hcase : IsCaseName "C" :=
    ⟨isWord_of_isIdentifier (by decide), by decide, by decide +kernel⟩
  have hkey : ∀ n, Decimal.fits n = true → Decimal.ofInt n ≠ "k" :=
    Decimal.canonicalInt?_eq_none_iff.mp (by decide)
  have hlist : (Value.array listEntries).IsConstant := by
    refine .array (by decide) ?_ ?_
    · simp [listEntries, Key.IsConstant, Decimal.maxInt]
    · simpa [listEntries] using ⟨.enumCase hclass hcase, .bool true⟩
  refine .array (by decide) ?_ ?_
  · simpa [mixedEntries, Key.IsConstant, Decimal.maxInt] using hkey
  · simpa [mixedEntries] using ⟨.string "it's", hlist⟩

/-- The list without keys, with a comma behind its last entry. -/
def listLexemes : List Lexeme :=
  ArrayForm.lexemes ⟨true, true, true⟩
    (listEntries.map fun e ↦ ArrayForm.entry ⟨true, true, true⟩ e.1 (e.2.lexemes rooted))

theorem isWrittenAs_listLexemes : (Value.array listEntries).IsWrittenAs rooted listLexemes := by
  refine .array ⟨true, true, true⟩ (fun e ↦ e.2.lexemes rooted) (fun _ ↦ by decide) ?_
  simpa [listEntries] using ⟨.enumCase _ _, .bool true⟩

theorem is_read_mixedEntries :
    (Value.array mixedEntries).IsConstant ∧
      (read bareContext (tokens "[-5 => 'it\\'s', 'k' => [0 => \\A\\B::C, 1 => true]]")).Is
        (.array mixedEntries) [] ∧
      (read bareContext (tokens "[-5 => 'it\\'s', 'k' => array(\\A\\B::C, true,)]")).Is
        (.array mixedEntries) [] := by
  obtain ⟨hread, hforms⟩ := isConstant_mixedEntries.is_read bareContext
  refine ⟨isConstant_mixedEntries, ?_, ?_⟩
  · have hsource : (Value.array mixedEntries).source
        = "[-5 => 'it\\'s', 'k' => [0 => \\A\\B::C, 1 => true]]" := by decide +kernel
    rwa [hsource] at hread
  · have hwritten : ∀ e ∈ mixedEntries,
        e.2.IsWrittenAs rooted (if e.1 = .string "k" then listLexemes else e.2.lexemes rooted) := by
      simpa [mixedEntries, Value.lexemes] using ⟨.string "it's", isWrittenAs_listLexemes⟩
    have hsource := hforms _ (.array ⟨false, false, false⟩ _ (fun h ↦ Bool.noConfusion h) hwritten)
    exact hsource

end FrontendSync.Php
