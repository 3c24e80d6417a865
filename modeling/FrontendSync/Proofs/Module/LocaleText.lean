import Mathlib.Data.Set.Function
import FrontendSync.Module.LocaleModule
import FrontendSync.Proofs.Lists
import FrontendSync.Proofs.Locale.Tree
import FrontendSync.Proofs.Module.Envelope
import FrontendSync.Proofs.Module.Quote
import FrontendSync.Proofs.Number.Numeral
import FrontendSync.Proofs.Text.Pieces

/-!
# Locale modules are told apart

Data without floating point numbers is told from all other such data by the module it makes.  No
text of a tree goes on as the text of another one, so two modules that are the same are the same
tree by tree, and neither the rest of the module nor the envelope makes them meet.
-/

namespace FrontendSync.Module

open Tree

/-! ## Texts that are told apart -/

/-- What may follow a key or a literal. -/
def Delimited (r : List Char) : Prop := ∃ c s, r = c :: s ∧ c ∈ [':', ',', '\n', ' ', ';']

theorem delimited_cons {c : Char} (h : c ∈ [':', ',', '\n', ' ', ';']) (s : List Char) :
    Delimited (c :: s) := ⟨c, s, rfl, h⟩

/-- The text of `x` with something behind it is the one of `y` only if they are the same. -/
def Apart {α : Type} (text : α → List Char) (x y : α) : Prop :=
  ∀ ⦃r s⦄, Delimited r → Delimited s → text x ++ r = text y ++ s → x = y ∧ r = s

theorem apart_of_forall {α : Type} {text : α → List Char} {p : Char → Bool}
    (hp : ∀ c ∈ [':', ',', '\n', ' ', ';'], p c = false) {x y : α}
    (hx : ∀ c ∈ text x, p c = true) (hy : ∀ c ∈ text y, p c = true)
    (hinj : text x = text y → x = y) : Apart text x y := by
  rintro r s ⟨c, u, rfl, hc⟩ ⟨d, v, rfl, hd⟩ h
  obtain ⟨htext, hrest⟩ := append_inj_of_forall hx hy (hp c hc) (hp d hd) h
  exact ⟨hinj htext, hrest⟩

/-! ## Keys and numbers -/

theorem apart_intDigits (m n : Int) : Apart Decimal.intDigits m n := by
  have hchars (n : Int) : ∀ c ∈ Decimal.intDigits n, (c.isDigit || c == '.' || c == '-') = true :=
    fun c hc ↦ by simpa [or_assoc] using (Decimal.isNumeral_intDigits n).mem hc
  exact apart_of_forall (by simp) (hchars m) (hchars n) fun h ↦ Decimal.intDigits_injective h

theorem isIdentifierChar_of_isIdentifier {k : String} (h : isIdentifier k = true) {c : Char}
    (hc : c ∈ k.toList) : isIdentifierChar c = true := by
  unfold isIdentifier at h
  split at h
  · exact absurd h (by decide)
  · rename_i d ds hk
    obtain ⟨hd, hds⟩ := Bool.and_eq_true_iff.mp h
    rw [hk] at hc
    rcases List.mem_cons.mp hc with rfl | hc
    · simp only [isIdentifierStart, Bool.or_eq_true] at hd
      simp only [isIdentifierChar, Char.isAlphanum, Bool.or_eq_true]
      exact hd.imp_left (.imp_left .inl)
    · exact List.all_eq_true.mp hds c hc

/-- No identifier starts with a quote. -/
theorem identifier_append_ne_quote {j k : String} (h : isIdentifier j = true)
    (r s : List Char) : j.toList ++ r ≠ (quote k).toList ++ s := by
  obtain ⟨q, f, hq, -, hk⟩ := exists_quoteChars_eq k.toList
  obtain ⟨c, cs, hj⟩ : ∃ c cs, j.toList = c :: cs := by
    cases hj : j.toList with
    | nil => simp [isIdentifier, hj] at h
    | cons c cs => exact ⟨c, cs, rfl⟩
  have hc : isIdentifierChar c = true :=
    isIdentifierChar_of_isIdentifier h (hj ▸ List.mem_cons_self)
  intro heq
  rw [hj, quote, String.toList_ofList, hk, List.cons_append, List.cons_append] at heq
  obtain rfl := (List.cons.inj heq).1
  rcases isQuote_eq_true hq with rfl | rfl | rfl <;> exact absurd hc (by decide)

theorem apart_quote (j k : String) : Apart (fun k ↦ (quote k).toList) j k := by
  intro r s _ _ h
  simp only [quote, String.toList_ofList] at h
  obtain ⟨htext, hrest⟩ := quoteChars_append_inj h
  exact ⟨String.toList_injective htext, hrest⟩

theorem apart_key (j k : String) : Apart (fun k ↦ (key k).toList) j k := by
  intro r s hr hs h
  simp only [key] at h
  by_cases hj : isIdentifier j = true
  · by_cases hk : isIdentifier k = true
    · rw [if_pos hj, if_pos hk] at h
      exact apart_of_forall (p := isIdentifierChar) (by simp [isIdentifierChar])
        (fun c ↦ isIdentifierChar_of_isIdentifier hj) (fun c ↦ isIdentifierChar_of_isIdentifier hk)
        String.toList_injective hr hs h
    · rw [if_pos hj, if_neg hk] at h
      exact absurd h (identifier_append_ne_quote hj r s)
  · by_cases hk : isIdentifier k = true
    · rw [if_neg hj, if_pos hk] at h
      exact absurd h.symm (identifier_append_ne_quote hk s r)
    · rw [if_neg hj, if_neg hk] at h
      exact apart_quote j k hr hs h

namespace LocaleModule

open Text (unlines_cons unlines_singleton)

/-! ## Rows -/

/-- What stands behind a row of a container: the rows after it and the closing bracket. -/
def afterRow (style : Style) (depth : Nat) (closing : String) : List String → List Char
  | [] =>
    (if style.trailingComma then [','] else [])
      ++ '\n' :: (margin depth).toList ++ closing.toList
  | row :: rows =>
    ',' :: '\n' :: (margin (depth + 1)).toList ++ row.toList ++ afterRow style depth closing rows

theorem unlines_rows (style : Style) (depth : Nat) (closing row : String) (rows : List String) :
    (Text.unlines ((style.separated (row :: rows)).map (margin (depth + 1) ++ ·)
        ++ [margin depth ++ closing])).toList
      = (margin (depth + 1)).toList ++ row.toList ++ afterRow style depth closing rows := by
  induction rows generalizing row with
  | nil =>
    rw [Style.separated, List.map_singleton, List.singleton_append, unlines_cons (by simp),
      afterRow]
    cases h : style.trailingComma <;> simp [unlines_singleton]
  | cons next rows ih =>
    rw [Style.separated, List.map_cons, List.cons_append, unlines_cons (by simp), ih, afterRow]
    · simp
    · exact List.cons_ne_nil next rows

theorem block_cons (style : Style) (depth : Nat) (opening closing row : String)
    (rows : List String) :
    (block style depth opening closing (row :: rows)).toList
      = opening.toList ++ '\n' :: ((margin (depth + 1)).toList ++ row.toList
          ++ afterRow style depth closing rows) := by
  rw [block, List.singleton_append, List.cons_append, unlines_cons (by simp), unlines_rows]
  simp

theorem margin_succ (depth : Nat) :
    (margin (depth + 1)).toList = (margin depth).toList ++ [' ', ' '] := by
  simp [margin, Nat.mul_succ, List.replicate_succ']

theorem delimited_afterRow (style : Style) (depth : Nat) (closing : String) (rows : List String)
    (r : List Char) : Delimited (afterRow style depth closing rows ++ r) := by
  cases rows with
  | nil => cases h : style.trailingComma <;> simp [afterRow, h, Delimited]
  | cons row rows => exact delimited_cons (by decide) _

section

variable {α : Type} {row : α → String} {closing : String} {c : Char}

/-- The closing bracket stands where another row would have more of its margin. -/
theorem afterRow_nil_append_ne (hclosing : closing.toList = [c]) (hc : c ≠ ' ') (style : Style)
    (depth : Nat) (next : String) (rows : List String) (r s : List Char) :
    afterRow style depth closing [] ++ r ≠ afterRow style depth closing (next :: rows) ++ s := by
  cases h : style.trailingComma with
  | false => simp [afterRow, h]
  | true => simp [afterRow, h, margin_succ, hclosing, hc]

/-- Rows that are told apart one by one are told apart together. -/
theorem afterRow_append_inj (hclosing : closing.toList = [c]) (hc : c ≠ ' ') {style : Style}
    {depth : Nat} {xs ys : List α}
    (hrow : ∀ x ∈ xs, ∀ y ∈ ys, Apart (fun x ↦ (row x).toList) x y) {r s : List Char}
    (h : afterRow style depth closing (xs.map row) ++ r
      = afterRow style depth closing (ys.map row) ++ s) : xs = ys ∧ r = s := by
  induction xs generalizing ys with
  | nil =>
    cases ys with
    | nil => exact ⟨rfl, List.append_cancel_left h⟩
    | cons y ys => exact absurd h (afterRow_nil_append_ne hclosing hc style depth _ _ r s)
  | cons x xs ih =>
    cases ys with
    | nil => exact absurd h.symm (afterRow_nil_append_ne hclosing hc style depth _ _ s r)
    | cons y ys =>
      simp only [List.map_cons, afterRow, List.cons_append, List.append_assoc, List.cons.injEq,
        true_and, List.append_cancel_left_eq] at h
      obtain ⟨rfl, hrest⟩ := hrow x List.mem_cons_self y List.mem_cons_self
        (delimited_afterRow ..) (delimited_afterRow ..) h
      obtain ⟨rfl, hend⟩ := ih (fun z hz w hw ↦
        hrow z (List.mem_cons_of_mem x hz) w (List.mem_cons_of_mem x hw)) hrest
      exact ⟨rfl, hend⟩

theorem block_append_inj (hclosing : closing.toList = [c]) (hc : c ≠ ' ') (hn : c ≠ '\n')
    {style : Style} {depth : Nat} {opening : String} {xs ys : List α}
    (hrow : ∀ x ∈ xs, ∀ y ∈ ys, Apart (fun x ↦ (row x).toList) x y) {r s : List Char}
    (h : (block style depth opening closing (xs.map row)).toList ++ r
      = (block style depth opening closing (ys.map row)).toList ++ s) : xs = ys ∧ r = s := by
  cases xs with
  | nil =>
    cases ys with
    | nil => exact ⟨rfl, List.append_cancel_left h⟩
    | cons y ys =>
      rw [List.map_cons, block_cons] at h
      simp [block, hclosing, hn] at h
  | cons x xs =>
    cases ys with
    | nil =>
      rw [List.map_cons, block_cons] at h
      simp [block, hclosing, hn.symm] at h
    | cons y ys =>
      simp only [List.map_cons, block_cons, List.append_assoc, List.cons_append, List.cons.injEq,
        true_and, List.append_cancel_left_eq] at h
      obtain ⟨rfl, hrest⟩ := hrow x List.mem_cons_self y List.mem_cons_self
        (delimited_afterRow ..) (delimited_afterRow ..) h
      obtain ⟨rfl, hend⟩ := afterRow_append_inj hclosing hc (fun z hz w hw ↦
        hrow z (List.mem_cons_of_mem x hz) w (List.mem_cons_of_mem x hw)) hrest
      exact ⟨rfl, hend⟩

end

/-! ## Literals -/

theorem itemRows_eq (style : Style) (depth : Nat) (ts : List Tree) :
    itemRows style depth ts = ts.map (literal style depth) := by
  induction ts with
  | nil => rfl
  | cons t ts ih => rw [itemRows, ih, List.map_cons]

/-- The row of a member. -/
def memberRow (style : Style) (depth : Nat) (m : String × Tree) : String :=
  key m.1 ++ ": " ++ literal style depth m.2

theorem memberRows_eq (style : Style) (depth : Nat) (ms : Members) :
    memberRows style depth ms = ms.map (memberRow style depth) := by
  induction ms with
  | nil => rfl
  | cons m ms ih => rw [memberRows, ih, List.map_cons, memberRow]

theorem apart_memberRow {style : Style} {depth : Nat} {l m : String × Tree}
    (h : Apart (fun t ↦ (literal style depth t).toList) l.2 m.2) :
    Apart (fun m ↦ (memberRow style depth m).toList) l m := by
  intro r s hr hs heq
  have hcolon : ": ".toList = [':', ' '] := rfl
  simp only [memberRow, String.toList_append, List.append_assoc, hcolon, List.cons_append,
    List.nil_append] at heq
  obtain ⟨hkey, hvalue⟩ := apart_key l.1 m.1 (delimited_cons (by decide) _)
    (delimited_cons (by decide) _) heq
  simp only [List.cons.injEq, true_and] at hvalue
  obtain ⟨htree, hrest⟩ := h hr hs hvalue
  exact ⟨Prod.ext hkey htree, hrest⟩

/-- What the first character of a literal tells. -/
inductive Kind where
  | null
  | bool (b : Bool)
  | number
  | text
  | list
  | map

def kind : Tree → Kind
  | .null => .null
  | .bool b => .bool b
  | .int _ | .float _ => .number
  | .text _ => .text
  | .list _ => .list
  | .map _ => .map

/-- The kind of the trees whose literals start with a character. -/
def kindOf (c : Char) : Kind :=
  if c.isDigit || c == '-' then .number
  else if Token.isQuote c then .text
  else if c = 'n' then .null
  else if c = 't' then .bool true
  else if c = 'f' then .bool false
  else if c = '[' then .list
  else .map

theorem exists_block_eq (style : Style) (depth : Nat) (opening : String) {c : Char}
    (h : opening.toList = [c]) (closing : String) (rows : List String) :
    ∃ s, (block style depth opening closing rows).toList = c :: s := by
  cases rows with
  | nil => exact ⟨_, by rw [block, String.toList_append, h, List.singleton_append]⟩
  | cons row rows => exact ⟨_, by rw [block_cons, h, List.singleton_append]⟩

/-- The first character of a literal tells its kind. -/
theorem exists_literal_eq (style : Style) {t : Tree} (h : FloatFree t) (depth : Nat) :
    ∃ c s, (literal style depth t).toList = c :: s ∧ kindOf c = kind t := by
  cases h with
  | null => exact ⟨'n', ['u', 'l', 'l'], by simp [literal], rfl⟩
  | bool b =>
    cases b with
    | false => exact ⟨'f', ['a', 'l', 's', 'e'], by simp [literal], rfl⟩
    | true => exact ⟨'t', ['r', 'u', 'e'], by simp [literal], rfl⟩
  | int n =>
    obtain ⟨c, s, hs, hc⟩ := (Decimal.isNumeral_intDigits n).exists_cons
    refine ⟨c, s, by rw [literal, Decimal.ofInt, String.toList_ofList, hs], ?_⟩
    rcases hc with hc | rfl
    · simp [kindOf, hc, kind]
    · rfl
  | text s =>
    obtain ⟨q, f, hq, -, hs⟩ := exists_quoteChars_eq s.toList
    refine ⟨q, _, by rw [literal, quote, String.toList_ofList, hs], ?_⟩
    rcases isQuote_eq_true hq with rfl | rfl | rfl <;> rfl
  | list =>
    obtain ⟨s, hs⟩ := exists_block_eq style depth "[" rfl "]" _
    exact ⟨'[', s, hs, rfl⟩
  | map =>
    obtain ⟨s, hs⟩ := exists_block_eq style depth "\x7b" rfl "\x7d" _
    exact ⟨'\x7b', s, hs, rfl⟩

theorem kind_eq_of_literal {style : Style} {t u : Tree} (ht : FloatFree t) (hu : FloatFree u)
    {depth : Nat} {r s : List Char}
    (h : (literal style depth t).toList ++ r = (literal style depth u).toList ++ s) :
    kind t = kind u := by
  obtain ⟨c, cs, hc, hkind⟩ := exists_literal_eq style ht depth
  obtain ⟨d, ds, hd, hkind'⟩ := exists_literal_eq style hu depth
  rw [hc, hd] at h
  rw [← hkind, ← hkind', (List.cons.inj h).1]

/-- Trees without floating point numbers are told apart by their texts. -/
theorem apart_literal {style : Style} {t u : Tree} (ht : FloatFree t) (hu : FloatFree u)
    (depth : Nat) : Apart (fun t ↦ (literal style depth t).toList) t u := by
  induction ht generalizing u depth with
  | null =>
    intro r s hr hs h
    have hkind := kind_eq_of_literal .null hu h
    cases hu with
    | null => exact ⟨rfl, List.append_cancel_left h⟩
    | _ => cases hkind
  | bool b =>
    intro r s hr hs h
    have hkind := kind_eq_of_literal (.bool b) hu h
    cases hu with
    | bool b' =>
      obtain rfl : b = b' := Kind.bool.inj hkind
      exact ⟨rfl, List.append_cancel_left h⟩
    | _ => cases hkind
  | int m =>
    intro r s hr hs h
    have hkind := kind_eq_of_literal (.int m) hu h
    cases hu with
    | int n =>
      simp only [literal, Decimal.ofInt, String.toList_ofList] at h
      obtain ⟨rfl, hrest⟩ := apart_intDigits m n hr hs h
      exact ⟨rfl, hrest⟩
    | _ => cases hkind
  | text a =>
    intro r s hr hs h
    have hkind := kind_eq_of_literal (.text a) hu h
    cases hu with
    | text b =>
      simp only [literal] at h
      obtain ⟨rfl, hrest⟩ := apart_quote a b hr hs h
      exact ⟨rfl, hrest⟩
    | _ => cases hkind
  | @list ts hts ih =>
    intro r s hr hs h
    have hkind := kind_eq_of_literal (.list hts) hu h
    cases hu with
    | @list us hus =>
      simp only [literal, itemRows_eq] at h
      obtain ⟨rfl, hrest⟩ := block_append_inj rfl (by decide) (by decide)
        (fun x hx y hy ↦ ih x hx (hus y hy) (depth + 1)) h
      exact ⟨rfl, hrest⟩
    | _ => cases hkind
  | @map ms hms ih =>
    intro r s hr hs h
    have hkind := kind_eq_of_literal (.map hms) hu h
    cases hu with
    | @map ns hns =>
      simp only [literal, memberRows_eq] at h
      obtain ⟨rfl, hrest⟩ := block_append_inj rfl (by decide) (by decide)
        (fun x hx y hy ↦ apart_memberRow (ih x hx (hns y hy) (depth + 1))) h
      exact ⟨rfl, hrest⟩
    | _ => cases hkind

/-! ## Line breaks -/

theorem carriageReturn_notMem_quote (s : String) : '\r' ∉ (quote s).toList := by
  rw [quote, String.toList_ofList]
  exact carriageReturn_notMem_quoteChars s.toList

theorem carriageReturn_notMem_key (k : String) : '\r' ∉ (key k).toList := by
  unfold key
  split
  · rename_i hk
    exact fun hr ↦ absurd (isIdentifierChar_of_isIdentifier hk hr) (by decide)
  · exact carriageReturn_notMem_quote k

theorem carriageReturn_notMem_margin (depth : Nat) : '\r' ∉ (margin depth).toList := by
  rw [margin, String.toList_ofList]
  exact fun hr ↦ absurd (List.eq_of_mem_replicate hr) (by decide)

theorem carriageReturn_notMem_afterRow (style : Style) (depth : Nat) {closing : String}
    (hclosing : '\r' ∉ closing.toList) {rows : List String} (h : ∀ row ∈ rows, '\r' ∉ row.toList) :
    '\r' ∉ afterRow style depth closing rows := by
  induction rows with
  | nil =>
    cases hcomma : style.trailingComma <;>
      simp [afterRow, hcomma, hclosing, carriageReturn_notMem_margin]
  | cons row rows ih =>
    obtain ⟨hrow, hrows⟩ := List.forall_mem_cons.mp h
    simp [afterRow, hrow, ih hrows, carriageReturn_notMem_margin]

theorem carriageReturn_notMem_block (style : Style) (depth : Nat) {opening closing : String}
    (hopening : '\r' ∉ opening.toList) (hclosing : '\r' ∉ closing.toList) {rows : List String}
    (h : ∀ row ∈ rows, '\r' ∉ row.toList) :
    '\r' ∉ (block style depth opening closing rows).toList := by
  cases rows with
  | nil => simp [block, hopening, hclosing]
  | cons row rows =>
    obtain ⟨hrow, hrows⟩ := List.forall_mem_cons.mp h
    have hafter := carriageReturn_notMem_afterRow style depth hclosing hrows
    simp [block_cons, hopening, hrow, hafter, carriageReturn_notMem_margin]

theorem carriageReturn_notMem_literal (style : Style) {t : Tree} (h : FloatFree t) (depth : Nat) :
    '\r' ∉ (literal style depth t).toList := by
  induction h generalizing depth with
  | null => simp [literal]
  | bool b => cases b <;> simp [literal]
  | int n =>
    rw [literal, Decimal.ofInt, String.toList_ofList]
    exact fun hr ↦ absurd ((Decimal.isNumeral_intDigits n).mem hr) (by decide)
  | text s =>
    rw [literal]
    exact carriageReturn_notMem_quote s
  | @list ts _ ih =>
    rw [literal, itemRows_eq]
    refine carriageReturn_notMem_block style depth (by decide) (by decide) ?_
    rw [List.forall_mem_map]
    exact fun t ht ↦ ih t ht (depth + 1)
  | @map ms _ ih =>
    rw [literal, memberRows_eq]
    refine carriageReturn_notMem_block style depth (by decide) (by decide) ?_
    rw [List.forall_mem_map]
    intro m hm
    simp [memberRow, carriageReturn_notMem_key, ih m hm (depth + 1)]

theorem carriageReturn_notMem_identifier (locale : String) :
    '\r' ∉ (identifier locale).toList := by
  have hchars : '\r' ∉ locale.toList.map fun c ↦ if isIdentifierChar c then c else '_' := by
    rw [List.mem_map]
    rintro ⟨c, -, hc⟩
    split at hc
    · rename_i hchar
      exact absurd (hc ▸ hchar) (by decide)
    · exact absurd hc (by decide)
  simp only [identifier]
  split
  · decide
  · split
    · rw [String.toList_ofList, List.mem_cons, not_or]
      exact ⟨by decide, hchars⟩
    · rwa [String.toList_ofList]

/-! ## Files -/

/-- A module is the text of its data between two texts that do not depend on the data. -/
theorem exists_text_eq {style : Style} (hformat : style.format ≠ .json) (locale : String) :
    ∃ before after : List Char, '\r' ∉ before ∧ '\r' ∉ after ∧ Delimited (after ++ [';']) ∧
      ∀ data, (text style locale data).toList
        = before ++ ((literal style 0 (.map data)).toList ++ (after ++ [';'])) := by
  have hname := carriageReturn_notMem_identifier locale
  obtain ⟨format, comma⟩ := style
  cases format with
  | json => exact absurd rfl hformat
  | js =>
    refine ⟨("export const " ++ identifier locale ++ " = ").toList, [], ?_, ?_, ?_, ?_⟩
    · simp [hname]
    · simp
    · exact delimited_cons (by decide) _
    · intro data
      simp [text, Style.isTs, Style.asConst]
  | ts =>
    refine ⟨("export const " ++ identifier locale ++ " = ").toList,
      (" as const;\n\nexport type " ++ identifier locale ++ " = typeof "
        ++ identifier locale).toList, ?_, ?_, ?_, ?_⟩
    · simp [hname]
    · simp [hname]
    · simp [Delimited]
    · intro data
      simp [text, Style.isTs, Style.asConst, unlines_cons, unlines_singleton]

/-- Data without floating point numbers is told apart by the files it makes, whatever the name of
the locale, the style and the limit of lines. -/
theorem wrap_text_injOn {style : Style} (hformat : style.format ≠ .json) (locale : String)
    (limit : Option Nat) :
    Set.InjOn (fun data ↦ Envelope.wrap style.format limit (text style locale data))
      {data | FloatFree (.map data)} := by
  intro data hdata data' hdata' h
  obtain ⟨before, after, hbefore, hafter, hdelimited, htext⟩ := exists_text_eq hformat locale
  have hplain {data : Members} (hfree : FloatFree (.map data)) :
      '\r' ∉ before ++ ((literal style 0 (.map data)).toList ++ after) ++ [';'] := by
    simp [hbefore, hafter, carriageReturn_notMem_literal style hfree]
  have hwrapped := String.ofList_injective h
  rw [htext, htext] at hwrapped
  have hfile := Envelope.wrapChars_inj hformat (by decide) (hplain hdata) (hplain hdata')
    (by simpa using hwrapped)
  simp only [List.append_assoc, List.append_cancel_left_eq] at hfile
  obtain ⟨htree, -⟩ := apart_literal hdata hdata' 0 hdelimited hdelimited hfile
  exact Tree.map.inj htree

/-- A text that looks like the marks around a list is no list. -/
theorem wrap_text_ne_listText :
    Envelope.wrap .ts (some 8) (text ⟨.ts, true⟩ "de" [("a", .list [.text "1,\n", .int 1])])
      ≠ Envelope.wrap .ts (some 8) (text ⟨.ts, true⟩ "de" [("a", .text "[\n1,\n]")]) := by
  have hformat : (⟨.ts, true⟩ : Style).format ≠ .json := by decide
  have hinj := wrap_text_injOn hformat "de" (some 8)
  exact hinj.ne (by simp) (by simp) (by simp)

end LocaleModule

end FrontendSync.Module
