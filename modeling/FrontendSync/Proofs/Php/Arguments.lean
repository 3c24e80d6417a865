import FrontendSync.Php.Attribute
import FrontendSync.Proofs.Lists
import FrontendSync.Proofs.Ordered
import FrontendSync.Proofs.Php.Constant
import FrontendSync.Proofs.Php.Members.Enum
import Mathlib.Data.Fintype.EquivFin

/-!
# Arguments of attributes

The attributes of a group as they are written, each with its arguments in parentheses.  An argument
is known by its name or by its position.  The reader leaves out every argument without a value and
counts the positions of the others, so a position is that of the source exactly if no argument with
a value stands behind one without.
-/

namespace FrontendSync.Php

open Attribute (whole? addArg ofTokens? readGroup)
open Brackets (Nested)

namespace Written

/-! ## Lists with commas -/

/-- Things with a comma behind each; the last one may have none. -/
structure CommaList (α : Type) where
  front : List (α × Mark .comma)
  last : Option α

namespace CommaList

variable {α : Type} {f : α → List Token}

def items (l : CommaList α) : List α := l.front.map Prod.fst ++ l.last.toList

def tokens (f : α → List Token) (l : CommaList α) : List Token :=
  l.front.flatMap (fun x ↦ f x.1 ++ [x.2.1]) ++ l.last.elim [] f

theorem balanced_tokens (hf : ∀ x, Balanced (f x)) (l : CommaList α) : Balanced (l.tokens f) := by
  refine (Nested.flatMap fun x _ ↦ (hf x.1).append (balanced_mark rfl rfl x.2)).append ?_
  cases l.last with
  | none => exact .nil
  | some x => exact hf x

/-- The reader divides the tokens at the same commas. -/
theorem items_tokens (hf : ∀ x, Nested (fun t ↦ t.isPunct .comma = false) (f x))
    (hne : ∀ x, f x ≠ []) (l : CommaList α) : Brackets.items (l.tokens f) = l.items.map f := by
  obtain ⟨front, last⟩ := l
  induction front with
  | nil =>
    cases last with
    | none => rfl
    | some x => exact Brackets.items_of_nested (hf x) (hne x) fun _ h ↦ h
  | cons x front ih =>
    have hsplit : tokens f ⟨x :: front, last⟩ = f x.1 ++ x.2.1 :: tokens f ⟨front, last⟩ := by
      simp [tokens]
    rw [hsplit, Brackets.items_append_comma (hf x.1) (hne x.1) x.2.2, ih]
    rfl

end CommaList

/-! ## Attributes -/

/-- Tokens with balanced brackets and no comma outside of them. -/
structure Item where
  tokens : List Token
  nested : Nested (fun t ↦ t.isPunct .comma = false) tokens
  ne_nil : tokens ≠ []

/-- Tokens that start with a name and a colon. -/
def IsLabelled (ts : List Token) : Prop :=
  ∃ label colon rest, ts = label :: colon :: rest ∧ label.name?.isSome = true ∧
    colon.isPunct .colon = true

inductive Argument where
  | positional (value : Item) (plain : ¬ IsLabelled value.tokens)
  | named (label : Name) (colon : Mark .colon) (value : Item)

namespace Argument

def tokens : Argument → List Token
  | positional value _ => value.tokens
  | named label colon value => label.token :: colon.1 :: value.tokens

/-- The expression of an argument without a name. -/
def positional? : Argument → Option (List Token)
  | positional value _ => some value.tokens
  | named _ _ _ => none

/-- The name and the value of an argument with both. -/
def named? (ctx : Context) : Argument → Option (String × Value)
  | positional _ _ => none
  | named label _ value => (whole? ctx value.tokens).map fun v ↦ (label.text, v)

end Argument

/-- Arguments in parentheses, first those without names. -/
structure Arguments where
  opener : Mark .parenOpen
  list : CommaList Argument
  closer : Mark .parenClose
  ordered : list.items.Pairwise fun x y ↦ y.positional?.isSome = true → x.positional?.isSome = true

structure Attribute where
  name : Name
  arguments : Option Arguments

namespace Attribute

def tokens (w : Attribute) : List Token :=
  w.name.token :: w.arguments.elim [] fun a ↦
    a.opener.1 :: (a.list.tokens Argument.tokens ++ [a.closer.1])

/-- All arguments in order. -/
def items (w : Attribute) : List Argument := w.arguments.elim [] fun a ↦ a.list.items

/-- The value of the argument with that name. -/
def named? (ctx : Context) (w : Attribute) (name : String) : Option Value :=
  (((w.items.filterMap (Argument.named? ctx)).filter (·.1 = name)).getLast?).map Prod.snd

/-- The value of the argument with that name, and if none has one that of the argument without a
name that is written at the position. -/
def arg? (ctx : Context) (w : Attribute) (name : String) (position : Nat) : Option Value :=
  (w.named? ctx name).or ((w.items[position]?.bind Argument.positional?).bind (whole? ctx))

/-- The expressions of the arguments without names. -/
def positionals (w : Attribute) : List (List Token) := w.items.filterMap Argument.positional?

/-- No argument with a value stands behind one without, names apart. -/
def KeepsPositions (ctx : Context) (w : Attribute) : Prop :=
  w.positionals.Pairwise fun ts us ↦ (whole? ctx us).isSome = true → (whole? ctx ts).isSome = true

/-- The attribute that is read. -/
def declared (ctx : Context) (w : Attribute) : Php.Attribute where
  name := w.name.text
  args := w.positionals.filterMap (whole? ctx)
  named := Ordered.ofList (w.items.filterMap (Argument.named? ctx))

end Attribute

/-- The attributes of a group and its closing bracket. -/
structure AttributeGroup where
  attributes : CommaList Attribute
  closer : Mark .bracketClose

def AttributeGroup.tokens (g : AttributeGroup) : List Token :=
  g.attributes.tokens Attribute.tokens ++ [g.closer.1]

/-! ## Reading -/

variable {ctx : Context}

theorem Argument.nested_tokens (x : Argument) :
    Nested (fun t ↦ t.isPunct .comma = false) x.tokens := by
  cases x with
  | positional value _ => exact value.nested
  | named label colon value =>
    obtain ⟨hopens, hcloses, hmarks⟩ := Token.opens_of_kind_name label.kind_eq
    exact .token hopens hcloses (hmarks _) (.token colon.opens_eq colon.closes_eq
      (colon.isPunct_eq _) value.nested)

theorem Argument.tokens_ne_nil (x : Argument) : x.tokens ≠ [] := by
  cases x with
  | positional value _ => exact value.ne_nil
  | named label colon value => exact List.cons_ne_nil _ _

/-- Tokens without a label are an argument that is known by its position, if they have a value. -/
theorem addArg_of_not_isLabelled (a : Php.Attribute) {ts : List Token} (h : ¬ IsLabelled ts) :
    addArg ctx a ts = { a with args := a.args ++ (whole? ctx ts).toList } := by
  rcases ts with _ | ⟨label, _ | ⟨colon, rest⟩⟩
  · cases hvalue : whole? ctx [] <;> simp [addArg, hvalue]
  · cases hvalue : whole? ctx [label] <;> simp [addArg, hvalue]
  · cases hcolon : colon.isPunct .colon with
    | false =>
      cases hvalue : whole? ctx (label :: colon :: rest) <;> simp [addArg, hvalue, hcolon]
    | true =>
      cases hlabel : label.name? with
      | none =>
        cases hvalue : whole? ctx (label :: colon :: rest) <;>
          simp [addArg, hvalue, hcolon, hlabel]
      | some name => exact absurd ⟨label, colon, rest, rfl, by simp [hlabel], hcolon⟩ h

/-- The expression of an argument is its value, with its name or among the others. -/
theorem addArg_tokens (a : Php.Attribute) (x : Argument) :
    addArg ctx a x.tokens = ⟨a.name, a.args ++ (x.positional?.bind (whole? ctx)).toList,
      Ordered.insertAll a.named (x.named? ctx).toList⟩ := by
  cases x with
  | positional value plain => exact addArg_of_not_isLabelled a plain
  | named label colon value =>
    rw [Argument.tokens, addArg]
    simp only [colon.isPunct_eq, decide_true, if_true, label.name?_eq]
    cases hvalue : whole? ctx value.tokens with
    | none => simp [Argument.positional?, Argument.named?, Ordered.insertAll, hvalue]
    | some v => simp [Argument.positional?, Argument.named?, Ordered.insertAll, hvalue]

theorem foldl_addArg (a : Php.Attribute) (xs : List Argument) :
    (xs.map Argument.tokens).foldl (addArg ctx) a =
      ⟨a.name, a.args ++ (xs.filterMap Argument.positional?).filterMap (whole? ctx),
        Ordered.insertAll a.named (xs.filterMap (Argument.named? ctx))⟩ := by
  induction xs generalizing a with
  | nil => simp [Ordered.insertAll]
  | cons x xs ih =>
    rw [List.map_cons, List.foldl_cons, addArg_tokens, ih]
    cases hpositional : x.positional? with
    | none => cases hnamed : x.named? ctx <;> simp [hpositional, hnamed, Ordered.insertAll]
    | some ts =>
      cases hnamed : x.named? ctx <;> cases hvalue : whole? ctx ts <;>
        simp [hpositional, hnamed, hvalue, Ordered.insertAll]

theorem Attribute.nested_tokens (w : Attribute) :
    Nested (fun t ↦ t.isPunct .comma = false) w.tokens := by
  obtain ⟨hopens, hcloses, hmarks⟩ := Token.opens_of_kind_name w.name.kind_eq
  refine .token hopens hcloses (hmarks _) ?_
  cases w.arguments with
  | none => exact .nil
  | some a =>
    have hlist := a.list.balanced_tokens fun x ↦ x.nested_tokens.mono fun _ _ ↦ trivial
    exact nested_group rfl rfl a.opener hlist a.closer

theorem Attribute.ofTokens?_tokens (w : Attribute) :
    ofTokens? ctx w.tokens = some (w.declared ctx) := by
  obtain ⟨name, arguments⟩ := w
  simp only [tokens, ofTokens?, name.name?_eq, Option.map_some]
  refine congrArg some ?_
  cases arguments with
  | none => rfl
  | some a =>
    have hgroup : Brackets.group 0 (a.list.tokens Argument.tokens ++ [a.closer.1])
        = (a.list.tokens Argument.tokens, []) :=
      Brackets.group_append_closer (a.list.balanced_tokens fun x ↦
        x.nested_tokens.mono fun _ _ ↦ trivial) a.closer.closes_eq []
    have hitems := a.list.items_tokens Argument.nested_tokens Argument.tokens_ne_nil
    simp only [Option.elim_some, a.opener.isPunct_eq, decide_true, if_true, hgroup, hitems]
    exact foldl_addArg _ _

theorem AttributeGroup.readGroup_append (g : AttributeGroup) (rest : List Token) :
    readGroup ctx (g.tokens ++ rest) = (g.attributes.items.map (Attribute.declared ctx), rest) := by
  have hgroup : Brackets.group 0 (g.tokens ++ rest)
      = (g.attributes.tokens Attribute.tokens, rest) := by
    rw [tokens, List.append_assoc, List.singleton_append]
    exact Brackets.group_append_closer (g.attributes.balanced_tokens fun x ↦
      x.nested_tokens.mono fun _ _ ↦ trivial) g.closer.closes_eq rest
  have hitems := g.attributes.items_tokens Attribute.nested_tokens fun _ ↦ List.cons_ne_nil _ _
  rw [readGroup, hgroup]
  simp only [hitems, List.filterMap_map]
  have hread : ofTokens? ctx ∘ Attribute.tokens = some ∘ Attribute.declared ctx := by
    funext w
    exact w.ofTokens?_tokens
  rw [hread, List.filterMap_eq_map]

/-! ## Positions -/

theorem Attribute.named?_declared (w : Attribute) (name : String) :
    Ordered.get? name (w.declared ctx).named = w.named? ctx name := by
  rw [declared, Ordered.get?_ofList, Ordered.get?_reverse]
  rfl

theorem Attribute.arg?_declared (w : Attribute) (name : String) (position : Nat) :
    (w.declared ctx).arg? name position
      = (w.named? ctx name).or (w.positionals.filterMap (whole? ctx))[position]? := by
  rw [Php.Attribute.arg?, named?_declared]
  rfl

/-- Arguments without names stand in front of those with names, at the positions that they have
among themselves. -/
theorem Attribute.getElem?_positionals (w : Attribute) (position : Nat) :
    w.positionals[position]? = w.items[position]?.bind Argument.positional? := by
  refine forall_getElem?_filterMap_iff.mpr ?_ position
  rw [items]
  cases w.arguments with
  | none => exact .nil
  | some a => exact a.ordered

theorem Attribute.exists_named?_eq_none (ctx : Context) (w : Attribute) :
    ∃ name, w.named? ctx name = none := by
  obtain ⟨name, hname⟩ := Infinite.exists_notMem_finset
    (w.items.filterMap (Argument.named? ctx) |>.map Prod.fst).toFinset
  refine ⟨name, ?_⟩
  have hnone : (w.items.filterMap (Argument.named? ctx)).filter (·.1 = name) = [] := by
    refine List.filter_eq_nil_iff.mpr fun e he hname' ↦ hname ?_
    rw [List.mem_toFinset, ← of_decide_eq_true hname']
    exact List.mem_map_of_mem he
  rw [named?, hnone]
  rfl

/-- What is looked up is the argument that the source has under the name or at the position, exactly
if no argument is counted at a position before its own. -/
theorem Attribute.arg?_declared_eq_iff (w : Attribute) :
    (∀ name position, (w.declared ctx).arg? name position = w.arg? ctx name position) ↔
      w.KeepsPositions ctx := by
  rw [KeepsPositions, ← forall_getElem?_filterMap_iff]
  constructor
  · intro h position
    -- A name that no argument has leaves the position alone to decide.
    obtain ⟨name, hname⟩ := w.exists_named?_eq_none ctx
    have harg := h name position
    rwa [arg?_declared, arg?, hname, Option.none_or, Option.none_or, ← getElem?_positionals] at harg
  · intro h name position
    rw [arg?_declared, arg?, h, getElem?_positionals]

/-- All attributes of a group are read, each with the values of its arguments.  Every argument
without a name is known at the position it is written at exactly if none with a value stands behind
one without; otherwise the positions count only those with a value. -/
theorem AttributeGroup.keepsPositions_iff (g : AttributeGroup) (rest : List Token) :
    ∃ as, readGroup ctx (g.tokens ++ rest) = (as, rest) ∧
      List.Forall₂ (fun w a ↦ a.name = w.name.text ∧
        ((∀ name position, a.arg? name position = w.arg? ctx name position) ↔
          w.KeepsPositions ctx) ∧
        ∀ name position, a.arg? name position
          = (w.named? ctx name).or (w.positionals.filterMap (whole? ctx))[position]?)
        g.attributes.items as := by
  refine ⟨_, g.readGroup_append rest, List.forall₂_map_right_iff.mpr ?_⟩
  exact List.forall₂_same.mpr fun w _ ↦ ⟨rfl, w.arg?_declared_eq_iff, w.arg?_declared⟩

/-- The call of a function, which has no value here. -/
def callArgument : Argument :=
  .positional ⟨[⟨.name "foo", 1⟩, ⟨.punct .parenOpen, 1⟩, ⟨.punct .parenClose, 1⟩],
    .token rfl rfl rfl (nested_group rfl rfl (markFirst .parenOpen) .nil (markFirst .parenClose)),
    List.cons_ne_nil _ _⟩ <| by
  rintro ⟨label, colon, rest, heq, -, hcolon⟩
  obtain ⟨-, rfl, -⟩ := heq
  exact Bool.noConfusion hcolon

def oneArgument : Argument :=
  .positional ⟨[⟨.int 1, 1⟩], .token rfl rfl rfl .nil, List.cons_ne_nil _ _⟩ <| by
  rintro ⟨label, colon, rest, heq, -⟩
  simp at heq

def skippedGroup : AttributeGroup where
  attributes := ⟨[], some ⟨.first "M", some ⟨markFirst .parenOpen,
    ⟨[(callArgument, markFirst .comma)], some oneArgument⟩, markFirst .parenClose,
    by simp [CommaList.items, callArgument, oneArgument, Argument.positional?]⟩⟩⟩
  closer := markFirst .bracketClose

theorem arg?_skippedGroup :
    tokens "#[M(foo(), 1)]" = ⟨.punct .attributeOpen, 1⟩ :: skippedGroup.tokens ∧
      ∃ w a, skippedGroup.attributes.items = [w] ∧
        readGroup bareContext skippedGroup.tokens = ([a], []) ∧
        (w.arg? bareContext "x" 0).isNone = true ∧ (a.arg? "x" 0).isSome = true := by
  have hread : readGroup bareContext (skippedGroup.tokens ++ [])
      = (skippedGroup.attributes.items.map (Attribute.declared bareContext), []) :=
    skippedGroup.readGroup_append []
  rw [List.append_nil] at hread
  exact ⟨by decide +kernel, _, _, rfl, hread, by decide +kernel, by decide +kernel⟩

end Written

end FrontendSync.Php
