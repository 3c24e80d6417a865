import FrontendSync.Php.Brackets
import FrontendSync.Proofs.Php.Literal

/-!
# Nested brackets

Tokens whose brackets are balanced are passed over as a whole: what closes a group, separates
pieces or ends a statement is looked for behind them.
-/

namespace FrontendSync.Php

open Lexeme (ofKind blank commaList AreSeparable)

namespace Brackets

/-- Tokens with balanced brackets; `p` holds of those that are outside of all brackets. -/
inductive Nested : (Token → Prop) → List Token → Prop
  | nil {p : Token → Prop} : Nested p []
  | token {p : Token → Prop} {t : Token} {ts : List Token} : t.opens = false → t.closes = false →
      p t → Nested p ts → Nested p (t :: ts)
  | group {p : Token → Prop} {opener closer : Token} {inside ts : List Token} :
      opener.opens = true → closer.closes = true → Nested (fun _ ↦ True) inside → Nested p ts →
      Nested p (opener :: (inside ++ closer :: ts))

theorem Nested.append {p : Token → Prop} {ts us : List Token} (h : Nested p ts)
    (hu : Nested p us) : Nested p (ts ++ us) := by
  induction h with
  | nil => exact hu
  | token hopens hcloses hp _ ih => exact .token hopens hcloses hp (ih hu)
  | group hopens hcloses hinside _ _ ih =>
    rw [List.cons_append, List.append_assoc, List.cons_append]
    exact .group hopens hcloses hinside (ih hu)

theorem Nested.flatMap {α : Type} {p : Token → Prop} {f : α → List Token} {xs : List α}
    (h : ∀ x ∈ xs, Nested p (f x)) : Nested p (xs.flatMap f) := by
  induction xs with
  | nil => exact .nil
  | cons x xs ih =>
    obtain ⟨hx, hxs⟩ := List.forall_mem_cons.mp h
    exact hx.append (ih hxs)

theorem closes_eq_false_of_opens {t : Token} (h : t.opens = true) : t.closes = false := by
  obtain ⟨kind, line⟩ := t
  cases kind with
  | punct p => cases p <;> simp_all [Token.opens, Token.closes, Punct.opens, Punct.closes]
  | _ => rfl

theorem opens_eq_false_of_closes {t : Token} (h : t.closes = true) : t.opens = false := by
  refine Bool.eq_false_iff.mpr fun hopens ↦ ?_
  simp [closes_eq_false_of_opens hopens] at h

/-- A group is closed behind balanced tokens. -/
theorem group_append_of_nested {p : Token → Prop} {ts : List Token} (h : Nested p ts) (depth : Nat)
    (rest : List Token) :
    group depth (ts ++ rest) = (ts ++ (group depth rest).1, (group depth rest).2) := by
  induction h generalizing depth rest with
  | nil => rfl
  | token hopens hcloses _ _ ih => simp [group, hopens, hcloses, ih]
  | group hopens hcloses _ _ ihInside ih =>
    simp [group, hopens, hcloses, opens_eq_false_of_closes hcloses, ihInside, ih]

theorem group_append_closer {p : Token → Prop} {ts : List Token} (h : Nested p ts) {closer : Token}
    (hcloses : closer.closes = true) (rest : List Token) :
    group 0 (ts ++ closer :: rest) = (ts, rest) := by
  rw [group_append_of_nested h, group, opens_eq_false_of_closes hcloses, hcloses]
  simp

/-- Tokens put before the first of some pieces. -/
def prependTo (ts : List Token) : List (List Token) → List (List Token)
  | [] => [ts]
  | piece :: more => (ts ++ piece) :: more

theorem prependTo_prependTo (ts us : List Token) (pieces : List (List Token)) :
    prependTo ts (prependTo us pieces) = prependTo (ts ++ us) pieces := by
  cases pieces <;> simp [prependTo]

theorem commaPieces_cons {depth : Nat} {t : Token} (ht : (t.isPunct .comma && depth == 0) = false)
    (ts : List Token) : commaPieces depth (t :: ts) = prependTo [t]
      (commaPieces (if t.opens then depth + 1 else if t.closes then depth - 1 else depth) ts) := by
  rw [commaPieces, ht]
  simp only [Bool.false_eq_true, if_false]
  split <;> simp_all [prependTo]

theorem commaPieces_ne_nil (depth : Nat) (ts : List Token) : commaPieces depth ts ≠ [] := by
  cases ts with
  | nil => simp [commaPieces]
  | cons t ts =>
    rw [commaPieces]
    split
    · simp
    · simp only
      split <;> simp

/-- A bracket is no other mark. -/
theorem isPunct_eq_false {p : Punct} (hopens : p.opens = false) (hcloses : p.closes = false)
    {t : Token} (h : t.opens = true ∨ t.closes = true) : t.isPunct p = false := by
  refine Bool.eq_false_iff.mpr fun ht ↦ ?_
  have hkind : t.kind = .punct p := by simpa [Token.isPunct] using ht
  rcases h with h | h
  · simp [Token.opens, hkind, hopens] at h
  · simp [Token.closes, hkind, hcloses] at h

/-- No comma inside of brackets separates pieces. -/
theorem commaPieces_append_of_nested {p : Token → Prop} {ts : List Token} (h : Nested p ts)
    (depth : Nat) (hp : depth = 0 → ∀ t, p t → t.isPunct .comma = false) (rest : List Token) :
    commaPieces depth (ts ++ rest) = prependTo ts (commaPieces depth rest) := by
  induction h generalizing depth rest with
  | nil =>
    rw [List.nil_append]
    cases hpieces : commaPieces depth rest with
    | nil => exact absurd hpieces (commaPieces_ne_nil depth rest)
    | cons _ _ => rfl
  | @token p t ts hopens hcloses hpt _ ih =>
    have ht : (t.isPunct .comma && depth == 0) = false := by
      by_cases hdepth : depth = 0
      · simp [hp hdepth t hpt]
      · simp [hdepth]
    rw [List.cons_append, commaPieces_cons ht]
    simp only [hopens, hcloses, Bool.false_eq_true, if_false]
    rw [ih depth hp, prependTo_prependTo, List.singleton_append]
  | @group p opener closer inside ts hopens hcloses _ _ ihInside ih =>
    have hcomma : opener.isPunct .comma = false := isPunct_eq_false rfl rfl (.inl hopens)
    have hcommas : (opener.isPunct .comma && depth == 0) = false ∧
        (closer.isPunct .comma && depth + 1 == 0) = false := by simp [hcomma]
    rw [List.cons_append, List.append_assoc, commaPieces_cons hcommas.1, if_pos hopens,
      ihInside (depth + 1) (by simp), List.cons_append, commaPieces_cons hcommas.2]
    simp only [opens_eq_false_of_closes hcloses, hcloses, Bool.false_eq_true, if_false, if_true,
      Nat.add_sub_cancel]
    rw [ih depth hp, prependTo_prependTo, prependTo_prependTo, prependTo_prependTo]
    simp

/-- A piece without commas is the first item in front of a comma. -/
theorem items_append_comma {ts : List Token} (h : Nested (fun t ↦ t.isPunct .comma = false) ts)
    (hne : ts ≠ []) {comma : Token} (hcomma : comma.kind = .punct .comma) (rest : List Token) :
    items (ts ++ comma :: rest) = ts :: items rest := by
  have hmark : comma.isPunct .comma = true := by simp [Token.isPunct, hcomma]
  rw [items, commaPieces_append_of_nested h 0 (fun _ _ ht ↦ ht), commaPieces]
  simp [hmark, prependTo, items, hne]

/-- A piece without commas is the only item. -/
theorem items_of_nested {p : Token → Prop} {ts : List Token} (h : Nested p ts) (hne : ts ≠ [])
    (hp : ∀ t, p t → t.isPunct .comma = false) : items ts = [ts] := by
  have hpieces := commaPieces_append_of_nested h 0 (fun _ ↦ hp) []
  rw [List.append_nil, commaPieces, prependTo, List.append_nil] at hpieces
  simp [items, hpieces, hne]

/-- Balanced tokens without attributes are part of a statement, unless a semicolon ends it among
them. -/
theorem statement_append_of_nested {p : Token → Prop} {ts : List Token} (h : Nested p ts)
    (hplain : ∀ t ∈ ts, t.isPunct .attributeOpen = false) (depth : Nat)
    (hp : depth = 0 → ∀ t, p t → t.isPunct .semicolon = false) (rest : List Token) :
    statement depth (ts ++ rest) = (ts ++ (statement depth rest).1, (statement depth rest).2) := by
  induction h generalizing depth rest with
  | nil => rfl
  | @token p t ts hopens hcloses hpt _ ih =>
    have ht : (t.isPunct .semicolon && depth == 0) = false := by
      by_cases hdepth : depth = 0
      · simp [hp hdepth t hpt]
      · simp [hdepth]
    rw [List.forall_mem_cons] at hplain
    simp [statement, opensInStatement, ht, hopens, hcloses, ih hplain.2 depth hp]
  | @group p opener closer inside ts hopens hcloses _ _ ihInside ih =>
    obtain ⟨hopener, hinside⟩ := List.forall_mem_cons.mp hplain
    obtain ⟨hinside, hclosed⟩ := List.forall_mem_append.mp hinside
    have hsemicolons : opener.isPunct .semicolon = false ∧ closer.isPunct .semicolon = false :=
      ⟨isPunct_eq_false rfl rfl (.inl hopens), isPunct_eq_false rfl rfl (.inr hcloses)⟩
    simp [statement, opensInStatement, hsemicolons, hopens, hopener, hcloses,
      opens_eq_false_of_closes hcloses, ihInside hinside (depth + 1) (by simp),
      ih (List.forall_mem_cons.mp hclosed).2 depth hp]

/-- Tokens that a statement has on the way to its end. -/
def Passes (ts : List Token) : Prop :=
  ∀ rest, statement 0 (ts ++ rest) = (ts ++ (statement 0 rest).1, (statement 0 rest).2)

namespace Passes

theorem nil : Passes [] := fun _ ↦ rfl

theorem append {ts us : List Token} (ht : Passes ts) (hu : Passes us) : Passes (ts ++ us) := by
  intro rest
  rw [List.append_assoc, ht, hu, List.append_assoc]

theorem flatMap {α : Type} {xs : List α} {f : α → List Token} (h : ∀ x ∈ xs, Passes (f x)) :
    Passes (xs.flatMap f) := by
  induction xs with
  | nil => exact nil
  | cons x xs ih =>
    obtain ⟨hx, hxs⟩ := List.forall_mem_cons.mp h
    exact hx.append (ih hxs)

/-- A closing bracket without an opening one is passed over, too. -/
theorem cons {t : Token} {ts : List Token} (hopens : opensInStatement t = false)
    (hsemicolon : t.isPunct .semicolon = false) (h : Passes ts) : Passes (t :: ts) := by
  intro rest
  simp [statement, hopens, hsemicolon, h rest]

theorem of_nested {ts : List Token} (h : Nested (fun t ↦ t.isPunct .semicolon = false) ts)
    (hplain : ∀ t ∈ ts, t.isPunct .attributeOpen = false) : Passes ts :=
  statement_append_of_nested h hplain 0 fun _ _ ht ↦ ht

theorem statement_append_semicolon {ts : List Token} (h : Passes ts) {stop : Token}
    (hstop : stop.kind = .punct .semicolon) (rest : List Token) :
    statement 0 (ts ++ stop :: rest) = (ts, rest) := by
  have hsemicolon : stop.isPunct .semicolon = true := by simp [Token.isPunct, hstop]
  rw [h, statement]
  simp [hsemicolon]

end Passes

/-- A statement of tokens that are no brackets ends with its semicolon. -/
theorem statement_append_semicolon {ts : List Token}
    (h : ∀ t ∈ ts, t.opens = false ∧ t.closes = false ∧ t.isPunct .semicolon = false) (line : Nat)
    (rest : List Token) : statement 0 (ts ++ ⟨.punct .semicolon, line⟩ :: rest) = (ts, rest) := by
  refine Passes.statement_append_semicolon ?_ rfl rest
  induction ts with
  | nil => exact .nil
  | cons t ts ih =>
    obtain ⟨⟨hopens, -, hsemicolon⟩, hts⟩ := List.forall_mem_cons.mp h
    exact .cons (by simp [opensInStatement, hopens]) hsemicolon (ih hts)

end Brackets

/-! ## Values -/

section Values

open Brackets

variable {ctx : Context} {write : String → String}

theorem Brackets.Nested.mono {p q : Token → Prop} (h : ∀ t, p t → q t) {ts : List Token}
    (ht : Nested p ts) : Nested q ts := by
  induction ht with
  | nil => exact .nil
  | token hopens hcloses hp _ ih => exact .token hopens hcloses (h _ hp) (ih h)
  | group hopens hcloses hinside _ _ ih => exact .group hopens hcloses hinside (ih h)

/-- Lexemes whose tokens are a piece of their own between commas, wherever they stand. -/
def IsPiece (ls : List Lexeme) : Prop :=
  ∀ line, Nested (fun t ↦ t.isPunct .comma = false) (Lexeme.tokens line ls)

theorem nested_commaList {items : List (List Lexeme)} (h : ∀ i ∈ items, IsPiece i) (line : Nat) :
    Nested (fun _ ↦ True) (Lexeme.tokens line (commaList items)) := by
  induction items generalizing line with
  | nil => exact .nil
  | cons i items ih =>
    obtain ⟨hi, hitems⟩ := List.forall_mem_cons.mp h
    have hi := (hi line).mono fun _ _ ↦ trivial
    cases items with
    | nil => exact hi
    | cons j items =>
      rw [Lexeme.commaList_cons_cons, Lexeme.tokens_append, Lexeme.tokens_ofKind,
        Lexeme.tokens_blank]
      exact hi.append (.token rfl rfl trivial (ih hitems _))

theorem isPiece_ofKind {k : Token.Kind} (h : ∀ p, k ≠ .punct p) : IsPiece [ofKind k] := by
  intro line
  refine .token ?_ ?_ ?_ .nil
  · cases k <;> first | rfl | exact absurd rfl (h _)
  · cases k <;> first | rfl | exact absurd rfl (h _)
  · cases k <;> first | rfl | exact absurd rfl (h _)

theorem IsPiece.append {ls ms : List Lexeme} (hl : IsPiece ls) (hm : IsPiece ms) :
    IsPiece (ls ++ ms) := by
  intro line
  rw [Lexeme.tokens_append]
  exact (hl line).append (hm _)

theorem isPiece_ofInt (n : Int) : IsPiece (Lexeme.ofInt n) := by
  unfold Lexeme.ofInt
  split
  · exact fun line ↦ .token rfl rfl rfl (isPiece_ofKind (by simp) _)
  · exact isPiece_ofKind (by simp)

theorem isPiece_key (k : Key) : IsPiece k.lexemes := by
  cases k with
  | int n => exact isPiece_ofInt n
  | string text => exact isPiece_ofKind (by simp)

theorem isPiece_array {items : List (List Lexeme)} (h : ∀ i ∈ items, IsPiece i) :
    IsPiece (ofKind (.punct .bracketOpen)
      :: (commaList items ++ [ofKind (.punct .bracketClose)])) := by
  intro line
  rw [Lexeme.tokens_ofKind, Lexeme.tokens_append, Lexeme.tokens_ofKind, Lexeme.tokens_nil]
  exact .group rfl rfl (nested_commaList h _) .nil

theorem Value.IsWritable.isPiece {v : Value} (h : v.IsWritable ctx write) :
    IsPiece (v.lexemes write) := by
  induction h with
  | null => exact isPiece_ofKind (by simp)
  | bool b => exact isPiece_ofKind (by simp)
  | int _ => exact isPiece_ofInt _
  | string text => exact isPiece_ofKind (by simp)
  | enumCase _ _ _ _ =>
    exact fun line ↦ .token rfl rfl rfl (.token rfl rfl rfl (.token rfl rfl rfl .nil))
  | @array entries _ _ _ ih =>
    rw [Value.lexemes]
    refine isPiece_array fun i hi ↦ ?_
    rw [Value.entryLexemes_eq_map] at hi
    obtain ⟨e, he, rfl⟩ := List.mem_map.mp hi
    rw [Value.entryLexeme]
    refine (isPiece_key e.1).append fun line ↦ ?_
    exact .token rfl rfl rfl (ih e he _)

end Values

end FrontendSync.Php
