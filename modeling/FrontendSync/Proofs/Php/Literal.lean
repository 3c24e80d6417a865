import FrontendSync.Proofs.Php.Evaluation
import FrontendSync.Proofs.Php.Spelling
import FrontendSync.Proofs.Php.Steps

/-!
# Values written as expressions

How a value is written as a constant expression, and that the expression is read as the value.
An array may be written between brackets or as `array(...)`, with a comma behind the last entry,
and without keys if its entries get these keys anyway.
-/

namespace FrontendSync.Php

open Lexeme (ofKind blank)

/-! ## Writing -/

def Lexeme.ofInt (n : Int) : List Lexeme :=
  if n < 0 then [ofKind (.punct .minus), ofKind (.int (-n))] else [ofKind (.int n)]

def Key.lexemes : Key → List Lexeme
  | .int n => Lexeme.ofInt n
  | .string text => [ofKind (.string text)]

/-- Items with a comma and a space between them. -/
def Lexeme.commaList : List (List Lexeme) → List Lexeme
  | [] => []
  | [item] => item
  | item :: items => item ++ ofKind (.punct .comma) :: blank ' ' :: commaList items

theorem Lexeme.commaList_cons_cons (item next : List Lexeme) (items : List (List Lexeme)) :
    commaList (item :: next :: items)
      = item ++ ofKind (.punct .comma) :: blank ' ' :: commaList (next :: items) := rfl

/-- Items with a comma and a space between them, and perhaps a comma behind the last one. -/
def Lexeme.itemList (trailing : Bool) : List (List Lexeme) → List Lexeme
  | [] => []
  | [item] => item ++ if trailing then [ofKind (.punct .comma)] else []
  | item :: items => item ++ ofKind (.punct .comma) :: blank ' ' :: itemList trailing items

theorem Lexeme.itemList_cons_cons (trailing : Bool) (item next : List Lexeme)
    (items : List (List Lexeme)) :
    itemList trailing (item :: next :: items)
      = item ++ ofKind (.punct .comma) :: blank ' ' :: itemList trailing (next :: items) := rfl

theorem Lexeme.commaList_eq_itemList (items : List (List Lexeme)) :
    commaList items = itemList false items := by
  induction items with
  | nil => rfl
  | cons item items ih =>
    cases items with
    | nil => exact (List.append_nil item).symm
    | cons next items => rw [commaList_cons_cons, itemList_cons_cons, ih]

mutual

/-- A value as an expression; `write` names the classes of cases. -/
def Value.lexemes (write : String → String) : Value → List Lexeme
  | .null => [ofKind (.name "null")]
  | .bool b => [ofKind (.name (if b then "true" else "false"))]
  | .int n => Lexeme.ofInt n
  | .float x => [ofKind (.float x)]
  | .string text => [ofKind (.string text)]
  | .array entries =>
    ofKind (.punct .bracketOpen) ::
      (Lexeme.commaList (Value.entryLexemes write entries) ++ [ofKind (.punct .bracketClose)])
  | .enumCase className caseName =>
    [ofKind (.name (write className)), ofKind (.punct .doubleColon), ofKind (.name caseName)]

def Value.entryLexemes (write : String → String) : List (Key × Value) → List (List Lexeme)
  | [] => []
  | e :: es => Value.entryLexeme write e :: Value.entryLexemes write es

def Value.entryLexeme (write : String → String) : Key × Value → List Lexeme
  | (k, v) => k.lexemes ++ blank ' ' :: ofKind (.punct .doubleArrow) :: blank ' ' :: v.lexemes write

end

/-- How an array is written. -/
structure ArrayForm where
  /-- As `array(...)`. -/
  long : Bool
  /-- With a comma behind the last entry. -/
  trailing : Bool
  /-- Without keys. -/
  keyless : Bool

namespace ArrayForm

def opening (f : ArrayForm) : List Lexeme :=
  if f.long then [ofKind (.name "array"), ofKind (.punct .parenOpen)]
  else [ofKind (.punct .bracketOpen)]

def closer (f : ArrayForm) : Punct := if f.long then .parenClose else .bracketClose

def entry (f : ArrayForm) (k : Key) (written : List Lexeme) : List Lexeme :=
  if f.keyless then written
  else k.lexemes ++ blank ' ' :: ofKind (.punct .doubleArrow) :: blank ' ' :: written

def lexemes (f : ArrayForm) (entries : List (List Lexeme)) : List Lexeme :=
  f.opening ++ (Lexeme.itemList f.trailing entries ++ [ofKind (.punct f.closer)])

end ArrayForm

/-- The expressions that stand for a value without floating point numbers.  Each array in it has a
form of its own, and only a list can be written without keys. -/
inductive Value.IsWrittenAs (write : String → String) : Value → List Lexeme → Prop
  | null : IsWrittenAs write .null [ofKind (.name "null")]
  | bool (b : Bool) : IsWrittenAs write (.bool b) [ofKind (.name (if b then "true" else "false"))]
  | int (n : Int) : IsWrittenAs write (.int n) (Lexeme.ofInt n)
  | string (text : String) : IsWrittenAs write (.string text) [ofKind (.string text)]
  | array (f : ArrayForm) {entries : List (Key × Value)} (written : Key × Value → List Lexeme) :
      (f.keyless = true → Value.isList entries = true) →
      (∀ e ∈ entries, IsWrittenAs write e.2 (written e)) →
      IsWrittenAs write (.array entries)
        (f.lexemes (entries.map fun e ↦ f.entry e.1 (written e)))
  | enumCase (className caseName : String) : IsWrittenAs write (.enumCase className caseName)
      [ofKind (.name (write className)), ofKind (.punct .doubleColon), ofKind (.name caseName)]

/-! ## Reading -/

namespace Expression

/-- The marks that continue an expression. -/
def continuing : List Punct := [.dot, .doubleColon, .arrow, .nullsafeArrow, .parenOpen]

/-- No expression before these tokens goes on with them. -/
def Ends (ts : List Token) : Prop :=
  ∀ t ∈ ts.head?, ∀ p ∈ continuing, t.isPunct p = false

theorem ends_nil : Ends [] := by simp [Ends]

theorem ends_punct {p : Punct} (h : p ∉ continuing) (line : Nat) (ts : List Token) :
    Ends (⟨.punct p, line⟩ :: ts) := by
  rintro t ht q hq
  obtain rfl := Option.some.inj ht
  have hne : p ≠ q := by
    rintro rfl
    exact h hq
  simpa [Token.isPunct] using hne

variable {ctx : Context} {write : String → String}

/-- The tokens of lexemes are read as an operand, and nothing of what follows them. -/
def UnaryReads (ctx : Context) (ls : List Lexeme) (v : Value) : Prop :=
  ∀ line rest, Ends rest → (unary ctx (Lexeme.tokens line ls ++ rest)).Is v rest

/-- The tokens of lexemes are read as an expression, and nothing of what follows them. -/
def Reads (ctx : Context) (ls : List Lexeme) (v : Value) : Prop :=
  ∀ line rest, Ends rest → (read ctx (Lexeme.tokens line ls ++ rest)).Is v rest

theorem is_joined_of_ends (v : Value) {ts : List Token} (h : Ends ts) :
    (joined ctx v ts).Is v ts :=
  is_joined_of_head? v fun t ht ↦ h t ht .dot (by simp [continuing])

/-- An operand is an expression. -/
theorem UnaryReads.reads {ls : List Lexeme} {v : Value} (h : UnaryReads ctx ls v) :
    Reads ctx ls v := fun line rest hrest ↦
  is_read_of_is_unary (h line rest hrest) (is_joined_of_ends v hrest)

theorem unaryReads_string (text : String) :
    UnaryReads ctx [ofKind (.string text)] (.string text) := fun _ rest _ ↦ is_unary_string rfl rest

theorem unaryReads_nat (n : Int) : UnaryReads ctx [ofKind (.int n)] (.int n) := fun _ rest _ ↦
  is_unary_int rfl rest

theorem unaryReads_int (n : Int) : UnaryReads ctx (Lexeme.ofInt n) (.int n) := by
  unfold Lexeme.ofInt
  split
  · intro line rest hrest
    rw [Lexeme.tokens_ofKind, List.cons_append]
    exact is_unary_minus rfl (unaryReads_nat (-n) _ rest hrest) (by rw [negate?, neg_neg])
  · exact unaryReads_nat n

theorem unaryReads_word {text : String} {v : Value} (harray : text.toLower ≠ "array")
    (h : ∀ t ts, word t text ts = .value v ts (Nat.lt_succ_self _)) :
    UnaryReads ctx [ofKind (.name text)] v := fun _ _ hrest ↦
  is_unary_word rfl harray (h _) fun t ht ↦ hrest t ht .doubleColon (by simp [continuing])

theorem unaryReads_null : UnaryReads ctx [ofKind (.name "null")] .null := by
  have hlower : "null".toLower = "null" := by decide +kernel
  exact unaryReads_word (by simp [hlower]) fun t ts ↦ by simp [word, hlower]

theorem unaryReads_bool (b : Bool) :
    UnaryReads ctx [ofKind (.name (if b then "true" else "false"))] (.bool b) := by
  cases b with
  | false =>
    have hlower : "false".toLower = "false" := by decide +kernel
    exact unaryReads_word (by simp [hlower]) fun t ts ↦ by simp [word, hlower]
  | true =>
    have hlower : "true".toLower = "true" := by decide +kernel
    exact unaryReads_word (by simp [hlower]) fun t ts ↦ by simp [word, hlower]

theorem is_member_enumCase {className caseName : String} (hcase : caseName.toLower ≠ "class")
    (line : Nat) {rest : List Token} (hrest : Ends rest) :
    (member ctx className (⟨.name caseName, line⟩ :: rest)).Is (.enumCase className caseName)
      rest := by
  have hkeyword : Token.isKeyword "class" ⟨.name caseName, line⟩ = false := by
    rw [Token.isKeyword_eq (t := ⟨.name caseName, line⟩) rfl]
    exact beq_false_of_ne hcase
  refine is_member_of_is_enumCase rfl hkeyword (is_enumCase_of_not_isArrow _ _ fun t ht ↦ ?_)
  simp [IsArrow, hrest t ht .arrow (by simp [continuing]),
    hrest t ht .nullsafeArrow (by simp [continuing])]

theorem unaryReads_enumCase {className written caseName : String}
    (hclass : className? ctx written = some className) (hcase : caseName.toLower ≠ "class") :
    UnaryReads ctx [ofKind (.name written), ofKind (.punct .doubleColon), ofKind (.name caseName)]
      (.enumCase className caseName) := by
  intro line rest hrest
  rw [Lexeme.tokens_ofKind, Lexeme.tokens_ofKind, Lexeme.tokens_ofKind, Lexeme.tokens_nil]
  exact is_unary_member rfl rfl hclass (is_member_enumCase hcase _ hrest)

/-! ## Arrays -/

/-- An entry of an array: its key is its own, or the next index. -/
structure Item where
  lexemes : List Lexeme
  key : Int → Key
  value : Value

namespace Item

/-- An array and its next index with one more entry. -/
def add (s : List (Key × Value) × Int) (i : Item) : List (Key × Value) × Int :=
  (Ordered.insert (i.key s.2) i.value s.1, nextIndex s.2 (i.key s.2))

/-- The entry is read before a comma or the mark that closes the array. -/
def Reads (ctx : Context) (closer : Punct) (i : Item) : Prop :=
  ∀ line entries index rest v left, Ends rest →
    rest.head?.any (Token.isPunct .doubleArrow) = false → rest ≠ [] →
    (afterEntry ctx closer (add (entries, index) i).1 (add (entries, index) i).2 rest).Is v left →
    (array ctx closer entries index (Lexeme.tokens line i.lexemes ++ rest)).Is v left

/-- An entry without a key. -/
def ofValue (ls : List Lexeme) (v : Value) : Item := ⟨ls, .int, v⟩

def ofEntry (key : List Lexeme) (k : Key) (ls : List Lexeme) (v : Value) : Item :=
  ⟨key ++ blank ' ' :: ofKind (.punct .doubleArrow) :: blank ' ' :: ls, fun _ ↦ k, v⟩

variable {closer : Punct} (hcloser : closer ∈ closers)

include hcloser

theorem reads_ofValue {ls : List Lexeme} {v : Value} (h : Expression.Reads ctx ls v) :
    (ofValue ls v).Reads ctx closer := by
  intro line entries index rest w left hends harrow hne hafter
  obtain ⟨r, rest, rfl⟩ := List.exists_cons_of_ne_nil hne
  exact is_array_value hcloser (h line _ hends) harrow hafter

theorem reads_ofEntry {key ls : List Lexeme} {kv v : Value} {k : Key}
    (hkey : Expression.Reads ctx key kv) (hk : kv.key? = some k) (h : Expression.Reads ctx ls v) :
    (ofEntry key k ls v).Reads ctx closer := by
  intro line entries index rest w left hends _ _ hafter
  rw [ofEntry, Lexeme.tokens_append, Lexeme.tokens_blank, Lexeme.tokens_ofKind, Lexeme.tokens_blank,
    List.append_assoc, List.cons_append]
  exact is_array_keyed hcloser (hkey line _ (ends_punct (by decide) _ _)) rfl hk (h _ rest hends)
    hafter

end Item

/-- The entries of an array up to the mark that closes it. -/
theorem is_array_itemList {closer : Punct} (hcloser : closer ∈ closers) (trailing : Bool)
    {items : List Item} (h : ∀ i ∈ items, i.Reads ctx closer) (entries : List (Key × Value))
    (index : Int) (line close : Nat) (rest : List Token) :
    (array ctx closer entries index
      (Lexeme.tokens line (Lexeme.itemList trailing (items.map Item.lexemes))
        ++ ⟨.punct closer, close⟩ :: rest)).Is
      (.array (items.foldl Item.add (entries, index)).1) rest := by
  have hclose : Token.isPunct closer ⟨.punct closer, close⟩ = true := beq_self_eq_true _
  have hends : Ends (⟨.punct closer, close⟩ :: rest) ∧
      Token.isPunct .doubleArrow ⟨.punct closer, close⟩ = false := by
    simp only [closers, List.mem_cons, List.not_mem_nil, or_false] at hcloser
    rcases hcloser with rfl | rfl <;> exact ⟨ends_punct (by decide) _ _, rfl⟩
  induction items generalizing entries index line with
  | nil => exact is_array_closer hclose rest
  | cons i items ih =>
    obtain ⟨hi, hitems⟩ := List.forall_mem_cons.mp h
    cases items with
    | nil =>
      rw [List.map_cons, List.map_nil, Lexeme.itemList, Lexeme.tokens_append, List.append_assoc]
      cases trailing with
      | false =>
        rw [if_neg Bool.false_ne_true, Lexeme.tokens_nil, List.nil_append]
        exact hi line entries index _ _ _ hends.1 hends.2 (by simp)
          (is_afterEntry_closer hclose rest)
      | true =>
        rw [if_pos rfl, Lexeme.tokens_ofKind, Lexeme.tokens_nil, List.cons_append, List.nil_append]
        exact hi line entries index _ _ _ (ends_punct (by decide) _ _) rfl (by simp)
          (is_afterEntry_comma hcloser rfl (is_array_closer hclose rest))
    | cons j items =>
      rw [List.map_cons, List.map_cons, Lexeme.itemList_cons_cons, Lexeme.tokens_append,
        List.append_assoc, Lexeme.tokens_ofKind, Lexeme.tokens_blank, List.cons_append]
      exact hi line entries index _ _ _ (ends_punct (by decide) _ _) rfl (by simp)
        (is_afterEntry_comma hcloser rfl (ih hitems _ _ _))

/-- An array is read as what its entries make of an empty one. -/
theorem unaryReads_form (f : ArrayForm) {items : List Item}
    (h : ∀ i ∈ items, i.Reads ctx f.closer) :
    UnaryReads ctx (f.lexemes (items.map Item.lexemes))
      (.array (items.foldl Item.add ([], 0)).1) := by
  intro line rest _
  obtain ⟨long, trailing, keyless⟩ := f
  cases long with
  | false =>
    have hcloser : Punct.bracketClose ∈ closers := List.mem_cons_self
    change (unary ctx (Lexeme.tokens line (ofKind (.punct .bracketOpen) ::
      (Lexeme.itemList trailing (items.map Item.lexemes) ++ [ofKind (.punct .bracketClose)]))
        ++ rest)).Is _ rest
    rw [Lexeme.tokens_ofKind, List.cons_append, Lexeme.tokens_append, Lexeme.tokens_ofKind,
      Lexeme.tokens_nil, List.append_assoc]
    exact is_unary_list rfl (is_array_itemList hcloser trailing h _ _ _ _ _)
  | true =>
    have hcloser : Punct.parenClose ∈ closers := List.mem_cons_of_mem _ List.mem_cons_self
    change (unary ctx (Lexeme.tokens line (ofKind (.name "array") :: ofKind (.punct .parenOpen) ::
      (Lexeme.itemList trailing (items.map Item.lexemes) ++ [ofKind (.punct .parenClose)]))
        ++ rest)).Is _ rest
    rw [Lexeme.tokens_ofKind, Lexeme.tokens_ofKind, List.cons_append, Lexeme.tokens_append,
      Lexeme.tokens_ofKind, Lexeme.tokens_nil, List.cons_append, List.append_assoc]
    have hlower : "array".toLower = "array" := by decide +kernel
    have hkeyword (l : Nat) : Token.isKeyword "array" ⟨.name "array", l⟩ = true := by
      rw [Token.isKeyword_eq (t := ⟨.name "array", l⟩) rfl]
      exact beq_of_eq hlower
    exact is_unary_array (hkeyword _) rfl (is_array_itemList hcloser trailing h _ _ _ _ _)

theorem unaryReads_array {items : List Item} (h : ∀ i ∈ items, i.Reads ctx .bracketClose) :
    UnaryReads ctx
      (ofKind (.punct .bracketOpen) ::
        (Lexeme.commaList (items.map Item.lexemes) ++ [ofKind (.punct .bracketClose)]))
      (.array (items.foldl Item.add ([], 0)).1) := by
  rw [Lexeme.commaList_eq_itemList]
  exact unaryReads_form ⟨false, false, false⟩ h

/-- Entries under keys of their own, which are all different, stand as they are. -/
theorem foldl_add_of_nodup {items : List Item} {entries : List (Key × Value)}
    (h : List.Forall₂ (fun (i : Item) e ↦ (∀ n, i.key n = e.1) ∧ i.value = e.2) items entries)
    {before : List (Key × Value)} (hnodup : (Ordered.keys (before ++ entries)).Nodup) (index : Int) :
    (items.foldl Item.add (before, index)).1 = before ++ entries := by
  induction h generalizing before index with
  | nil => simp
  | cons hi _ ih =>
    rename_i i e items entries _
    obtain ⟨k, v⟩ := e
    obtain ⟨hkey, hvalue⟩ := hi
    have hnew : k ∉ Ordered.keys before := by
      rw [Ordered.keys, List.map_append, List.map_cons, List.nodup_append] at hnodup
      exact fun hmem ↦ hnodup.2.2 _ hmem _ List.mem_cons_self rfl
    rw [List.foldl_cons, Item.add, hkey, hvalue, Ordered.insert_of_notMem hnew]
    rw [List.append_cons before (k, v) entries] at hnodup ⊢
    exact ih hnodup _

theorem nextIndex_int {n : Nat} (h : (n : Int) < Decimal.maxInt) :
    nextIndex n (.int n) = ((n + 1 : Nat) : Int) := by
  have hlow : Decimal.minInt ≤ (n : Int) + 1 := by
    rw [Decimal.minInt]
    omega
  have hwrap := Decimal.wrap_eq_self (Decimal.fits_iff.mpr ⟨hlow, h⟩)
  rw [nextIndex, if_pos (Int.le_refl _), hwrap]
  rfl

/-- Entries without keys are numbered. -/
theorem foldl_add_ofValue {values : List (List Lexeme × Value)} {before : List (Key × Value)}
    {n : Nat} (hbefore : ∀ k ∈ Ordered.keys before, ∃ m < n, k = .int (m : Nat))
    (hn : ((n + values.length : Nat) : Int) ≤ Decimal.maxInt + 1) :
    ((values.map fun p ↦ Item.ofValue p.1 p.2).foldl Item.add (before, (n : Int))).1
      = before ++ (values.zipIdx n).map fun p ↦ (.int p.2, p.1.2) := by
  induction values generalizing before n with
  | nil => simp
  | cons p values ih =>
    have hnew : Key.int n ∉ Ordered.keys before := by
      intro hmem
      obtain ⟨m, hm, heq⟩ := hbefore _ hmem
      have hmn : (n : Int) = m := Key.int.inj heq
      omega
    have hadd : (Item.add (before, (n : Int)) (Item.ofValue p.1 p.2)).1
        = before ++ [(.int n, p.2)] := Ordered.insert_of_notMem hnew
    rw [List.map_cons, List.foldl_cons]
    cases values with
    | nil => simpa using hadd
    | cons q values =>
      rw [List.length_cons, List.length_cons] at hn
      have hindex : nextIndex n (.int n) = ((n + 1 : Nat) : Int) := nextIndex_int (by omega)
      have hstep : Item.add (before, (n : Int)) (Item.ofValue p.1 p.2)
          = (before ++ [(.int n, p.2)], ((n + 1 : Nat) : Int)) := Prod.ext hadd hindex
      have hbefore' : ∀ k ∈ Ordered.keys (before ++ [(Key.int n, p.2)]),
          ∃ m < n + 1, k = .int (m : Nat) := by
        intro k hk
        rw [Ordered.keys, List.map_append, List.mem_append] at hk
        rcases hk with hk | hk
        · obtain ⟨m, hm, rfl⟩ := hbefore k hk
          exact ⟨m, by omega, rfl⟩
        · obtain rfl := List.mem_singleton.mp hk
          exact ⟨n, by omega, rfl⟩
      have hlength : ((n + 1 + (q :: values).length : Nat) : Int) ≤ Decimal.maxInt + 1 := by
        rw [List.length_cons]
        omega
      rw [hstep, ih hbefore' hlength]
      simp

end Expression

/-- A key that is read as it is written: a text that does not stand for an integer. -/
def Key.IsWritable : Key → Prop
  | .int n => Decimal.IsLiteral n
  | .string text => Decimal.canonicalInt? text.toList = none

/-- A value that is read as it is written: every class in it has a name that stands for it. -/
inductive Value.IsWritable (ctx : Context) (write : String → String) : Value → Prop
  | null : IsWritable ctx write .null
  | bool (b : Bool) : IsWritable ctx write (.bool b)
  | int {n : Int} : Decimal.IsLiteral n → IsWritable ctx write (.int n)
  | string (text : String) : IsWritable ctx write (.string text)
  | array {entries : List (Key × Value)} : (Ordered.keys entries).Nodup →
      (∀ e ∈ entries, e.1.IsWritable) → (∀ e ∈ entries, IsWritable ctx write e.2) →
      IsWritable ctx write (.array entries)
  | enumCase {className caseName : String} :
      Expression.className? ctx (write className) = some className →
      IsName (write className).toList → IsName caseName.toList → caseName.toLower ≠ "class" →
      IsWritable ctx write (.enumCase className caseName)

section Reads

open Expression

variable {ctx : Context} {write : String → String}

theorem Value.entryLexemes_eq_map (entries : List (Key × Value)) :
    Value.entryLexemes write entries = entries.map (Value.entryLexeme write) := by
  induction entries with
  | nil => rfl
  | cons e es ih => rw [Value.entryLexemes, List.map_cons, ih]

/-- A key is written as the value that becomes it. -/
theorem Key.IsWritable.reads {k : Key} (h : k.IsWritable) :
    ∃ v : Value, v.key? = some k ∧ Expression.Reads ctx k.lexemes v := by
  cases k with
  | int n => exact ⟨.int n, rfl, (unaryReads_int n).reads⟩
  | string text =>
    refine ⟨.string text, ?_, (unaryReads_string text).reads⟩
    have hnone : Decimal.canonicalInt? text.toList = none := h
    simp [Value.key?, Key.ofString, hnone]

/-- The keys of a list are as many as the integers that can be keys. -/
theorem length_le_of_areFrom {ks : List Key} {n : Nat} (h : Value.areFrom n ks = true)
    (hks : ∀ k ∈ ks, k.IsWritable) (hn : (n : Int) ≤ Decimal.maxInt + 1) :
    ((n + ks.length : Nat) : Int) ≤ Decimal.maxInt + 1 := by
  induction ks generalizing n with
  | nil => exact hn
  | cons k ks ih =>
    rw [Value.areFrom, Bool.and_eq_true, beq_iff_eq] at h
    obtain ⟨rfl, h⟩ := h
    obtain ⟨hk, hks⟩ := List.forall_mem_cons.mp hks
    have hmax : (n : Int) ≤ Decimal.maxInt := hk.2
    have hrest := ih h hks (by omega)
    rw [List.length_cons]
    omega

theorem map_zipIdx_of_areFrom {entries : List (Key × Value)} {n : Nat}
    (h : Value.areFrom n (Ordered.keys entries) = true) :
    (entries.zipIdx n).map (fun p ↦ (Key.int p.2, p.1.2)) = entries := by
  induction entries generalizing n with
  | nil => rfl
  | cons e entries ih =>
    obtain ⟨k, v⟩ := e
    change (k == .int n && Value.areFrom (n + 1) (Ordered.keys entries)) = true at h
    rw [Bool.and_eq_true, beq_iff_eq] at h
    obtain ⟨rfl, h⟩ := h
    rw [List.zipIdx_cons, List.map_cons, ih h]

/-- The entry of an array as it is written in a form. -/
def Expression.Item.of (f : ArrayForm) (written : Key × Value → List Lexeme) (e : Key × Value) :
    Expression.Item :=
  if f.keyless then .ofValue (written e) e.2 else .ofEntry e.1.lexemes e.1 (written e) e.2

section Form

variable {f : ArrayForm} {written : Key × Value → List Lexeme} {entries : List (Key × Value)}

theorem Expression.Item.lexemes_of (e : Key × Value) :
    (Item.of f written e).lexemes = f.entry e.1 (written e) := by
  rw [Item.of, ArrayForm.entry]
  split <;> rfl

theorem Expression.Item.reads_of {e : Key × Value} (hkey : e.1.IsWritable)
    (h : UnaryReads ctx (written e) e.2) : (Item.of f written e).Reads ctx f.closer := by
  have hcloser : f.closer ∈ closers := by
    rw [ArrayForm.closer]
    split <;> simp [closers]
  rw [Item.of]
  split
  · exact Item.reads_ofValue hcloser h.reads
  · obtain ⟨v, hv, hkey⟩ := hkey.reads
    exact Item.reads_ofEntry hcloser hkey hv h.reads

/-- The entries of an array are those that are written for it. -/
theorem foldl_add_of (hlist : f.keyless = true → Value.isList entries = true)
    (hnodup : (Ordered.keys entries).Nodup) (hkeys : ∀ e ∈ entries, e.1.IsWritable) :
    ((entries.map (Item.of f written)).foldl Item.add ([], 0)).1 = entries := by
  cases hkeyless : f.keyless with
  | true =>
    have hlist := hlist hkeyless
    have hitems : entries.map (Item.of f written)
        = (entries.map fun e ↦ (written e, e.2)).map fun p ↦ Item.ofValue p.1 p.2 := by
      rw [List.map_map]
      exact List.map_congr_left fun e _ ↦ if_pos hkeyless
    have hlength : ((0 + (entries.map fun e ↦ (written e, e.2)).length : Nat) : Int)
        ≤ Decimal.maxInt + 1 := by
      have hall : ∀ k ∈ Ordered.keys entries, k.IsWritable := by
        intro k hk
        obtain ⟨e, he, rfl⟩ := List.mem_map.mp hk
        exact hkeys e he
      simpa [Ordered.keys] using length_le_of_areFrom hlist hall (by decide)
    have hbefore : ∀ k ∈ Ordered.keys ([] : List (Key × Value)), ∃ m < 0, k = .int (m : Nat) := by
      intro k hk
      contradiction
    have hfold := foldl_add_ofValue hbefore hlength
    rw [List.nil_append, List.zipIdx_map] at hfold
    rw [hitems]
    refine hfold.trans ?_
    rw [List.map_map]
    exact map_zipIdx_of_areFrom hlist
  | false =>
    have hentries : List.Forall₂ (fun (i : Item) e ↦ (∀ n, i.key n = e.1) ∧ i.value = e.2)
        (entries.map (Item.of f written)) entries := by
      rw [List.forall₂_map_left_iff, List.forall₂_same]
      intro e _
      rw [Item.of, hkeyless]
      exact ⟨fun _ ↦ rfl, rfl⟩
    have hnodup' : (Ordered.keys ([] ++ entries)).Nodup := hnodup
    exact foldl_add_of_nodup hentries hnodup' 0

end Form

/-- However a value is written, the expression is read as the value. -/
theorem Value.IsWritable.unaryReads_of_isWrittenAs {v : Value} (h : v.IsWritable ctx write)
    {ls : List Lexeme} (hls : v.IsWrittenAs write ls) : UnaryReads ctx ls v := by
  induction hls with
  | null => exact unaryReads_null
  | bool b => exact unaryReads_bool b
  | int => exact unaryReads_int _
  | string text => exact unaryReads_string text
  | enumCase =>
    cases h with
    | enumCase hclass _ _ hcase => exact unaryReads_enumCase hclass hcase
  | @array f entries written hlist _ ih =>
    cases h with
    | array hnodup hkeys hvalues =>
      have hitems : ∀ i ∈ entries.map (Item.of f written), i.Reads ctx f.closer := by
        intro i hi
        obtain ⟨e, he, rfl⟩ := List.mem_map.mp hi
        exact Item.reads_of (hkeys e he) (ih e he (hvalues e he))
      have harray := unaryReads_form f hitems
      rw [foldl_add_of hlist hnodup hkeys, List.map_map] at harray
      have hlexemes : entries.map (Item.lexemes ∘ Item.of f written)
          = entries.map fun e ↦ f.entry e.1 (written e) :=
        List.map_congr_left fun e _ ↦ Item.lexemes_of e
      rwa [hlexemes] at harray

/-- Values are usually written with all keys and between brackets. -/
theorem Value.IsWritable.isWrittenAs {v : Value} (h : v.IsWritable ctx write) :
    v.IsWrittenAs write (v.lexemes write) := by
  induction h with
  | null => exact .null
  | bool b => exact .bool b
  | int => exact .int _
  | string text => exact .string text
  | enumCase => exact .enumCase _ _
  | @array entries _ _ _ ih =>
    have hentry : Value.entryLexeme write
        = fun e ↦ ArrayForm.entry ⟨false, false, false⟩ e.1 (e.2.lexemes write) := by
      funext e
      obtain ⟨k, v⟩ := e
      rw [Value.entryLexeme]
      rfl
    have hkeyless : false = true → Value.isList entries = true := fun h ↦ Bool.noConfusion h
    have harray := Value.IsWrittenAs.array ⟨false, false, false⟩ (fun e ↦ e.2.lexemes write)
      hkeyless ih
    rw [Value.lexemes, Value.entryLexemes_eq_map, hentry, Lexeme.commaList_eq_itemList]
    exact harray

theorem Value.IsWritable.unaryReads {v : Value} (h : v.IsWritable ctx write) :
    UnaryReads ctx (v.lexemes write) v := h.unaryReads_of_isWrittenAs h.isWrittenAs

end Reads

/-! ## Separating -/

namespace Lexeme

/-- What follows continues neither a name nor a number. -/
def Breaks (rest : List Char) : Prop :=
  ∀ c ∈ rest.head?, isNameChar c = false ∧ c ≠ '\\' ∧ c ≠ '.'

theorem breaks_cons {c : Char} (h : isNameChar c = false ∧ c ≠ '\\' ∧ c ≠ '.') (s : List Char) :
    Breaks (c :: s) := by
  rintro d hd
  obtain rfl := Option.some.inj hd
  exact h

/-- Lexemes that are read before whatever breaks the last of them. -/
def AreSeparable (ls : List Lexeme) : Prop := ∀ rest, Breaks rest → AreReadBefore ls rest

theorem areSeparable_name {text : String} (h : IsName text.toList) :
    AreSeparable [ofKind (.name text)] := fun _ hrest ↦
  ⟨isReadBefore_name h fun c hc ↦ ⟨(hrest c hc).1, (hrest c hc).2.1⟩, trivial⟩

theorem areSeparable_string (text : String) : AreSeparable [ofKind (.string text)] :=
  fun _ _ ↦ ⟨isReadBefore_string _ _, trivial⟩

theorem areSeparable_ofInt {n : Int} (h : Decimal.IsLiteral n) : AreSeparable (ofInt n) := by
  obtain ⟨hlow, hhigh⟩ := h
  have hnat {m : Int} (hm : 0 ≤ m) (hmax : m ≤ Decimal.maxInt) :
      AreSeparable [ofKind (.int m)] := fun _ hrest ↦
    ⟨isReadBefore_int ⟨hm, hmax⟩ fun c hc ↦ ⟨(hrest c hc).1, (hrest c hc).2.2⟩, trivial⟩
  unfold ofInt
  split
  · intro rest hrest
    have hspelled : (Token.Kind.int (-n)).IsSpelled := ⟨by omega, by omega⟩
    refine ⟨isReadBefore_punct ?_, hnat hspelled.1 hspelled.2 rest hrest⟩
    obtain ⟨m, hm⟩ := Int.eq_ofNat_of_zero_le hspelled.1
    obtain ⟨d, ds, hds⟩ := List.exists_cons_of_ne_nil (Decimal.digits_ne_nil m)
    have hdigit : d.isDigit = true :=
      Decimal.isDigit_of_mem_digits (hds ▸ List.mem_cons_self : d ∈ Decimal.digits m)
    have htext : textOf [ofKind (.int (-n))] ++ rest = d :: (ds ++ rest) := by
      rw [hm]
      simp only [textOf_cons, textOf_nil, List.append_nil, ofKind, Token.Kind.spelling]
      exact congrArg (· ++ rest) hds
    rw [htext]
    intro hhead
    obtain rfl := Option.some.inj hhead
    simp at hdigit
  · exact hnat (by omega) hhigh

theorem areSeparable_itemList {items : List (List Lexeme)} (h : ∀ i ∈ items, AreSeparable i)
    (trailing : Bool) : AreSeparable (itemList trailing items) := by
  intro rest hrest
  induction items with
  | nil => trivial
  | cons i items ih =>
    obtain ⟨hi, hitems⟩ := List.forall_mem_cons.mp h
    cases items with
    | nil =>
      rw [itemList, areReadBefore_append]
      cases trailing with
      | false => exact ⟨hi rest hrest, trivial⟩
      | true => exact ⟨hi _ (breaks_cons (by decide) _), isReadBefore_punct trivial, trivial⟩
    | cons j items =>
      rw [itemList_cons_cons, areReadBefore_append]
      refine ⟨hi _ (breaks_cons (by decide) _), isReadBefore_punct trivial, ?_⟩
      exact ⟨isReadBefore_blank (by decide) _, ih hitems⟩

theorem areSeparable_commaList {items : List (List Lexeme)} (h : ∀ i ∈ items, AreSeparable i) :
    AreSeparable (commaList items) := by
  rw [commaList_eq_itemList]
  exact areSeparable_itemList h false

end Lexeme

section Separable

open Lexeme

variable {ctx : Context} {write : String → String}

theorem Key.IsWritable.areSeparable {k : Key} (h : k.IsWritable) : AreSeparable k.lexemes := by
  cases k with
  | int n => exact areSeparable_ofInt h
  | string text => exact areSeparable_string text

theorem ArrayForm.areSeparable (f : ArrayForm) {entries : List (List Lexeme)}
    (h : ∀ ls ∈ entries, AreSeparable ls) : AreSeparable (f.lexemes entries) := by
  intro rest hrest
  obtain ⟨long, trailing, keyless⟩ := f
  have hentries {c : Char} (hc : isNameChar c = false ∧ c ≠ '\\' ∧ c ≠ '.') :=
    areSeparable_itemList h trailing (c :: rest) (breaks_cons hc rest)
  cases long with
  | false =>
    change AreReadBefore (ofKind (.punct .bracketOpen) ::
      (itemList trailing entries ++ [ofKind (.punct .bracketClose)])) rest
    refine ⟨isReadBefore_punct trivial, areReadBefore_append.mpr ⟨?_, ?_⟩⟩
    · exact hentries (c := ']') (by decide)
    · exact ⟨isReadBefore_punct trivial, trivial⟩
  | true =>
    change AreReadBefore (ofKind (.name "array") :: ofKind (.punct .parenOpen) ::
      (itemList trailing entries ++ [ofKind (.punct .parenClose)])) rest
    refine ⟨isReadBefore_name (isName_of_isIdentifier (by decide)) ?_, isReadBefore_punct trivial,
      areReadBefore_append.mpr ⟨?_, ?_⟩⟩
    · rintro c hc
      obtain rfl := Option.some.inj hc
      decide
    · exact hentries (c := ')') (by decide)
    · exact ⟨isReadBefore_punct trivial, trivial⟩

theorem Value.IsWritable.areSeparable_of_isWrittenAs {v : Value} (h : v.IsWritable ctx write)
    {ls : List Lexeme} (hls : v.IsWrittenAs write ls) : AreSeparable ls := by
  induction hls with
  | null => exact areSeparable_name (isName_of_isIdentifier (by decide))
  | bool b =>
    refine areSeparable_name (isName_of_isIdentifier ?_)
    cases b <;> decide
  | int =>
    cases h with
    | int hn => exact areSeparable_ofInt hn
  | string text => exact areSeparable_string text
  | enumCase =>
    cases h with
    | enumCase _ hclass hcase _ =>
      intro rest hrest
      refine ⟨(areSeparable_name hclass _ (breaks_cons (by decide) _)).1, ?_⟩
      exact ⟨isReadBefore_punct trivial, areSeparable_name hcase rest hrest⟩
  | @array f entries written _ _ ih =>
    cases h with
    | array _ hkeys hvalues =>
      apply f.areSeparable
      intro ls hls
      obtain ⟨e, he, rfl⟩ := List.mem_map.mp hls
      have hvalue := ih e he (hvalues e he)
      rw [ArrayForm.entry]
      split
      · exact hvalue
      · intro rest hrest
        rw [areReadBefore_append]
        refine ⟨(hkeys e he).areSeparable _ (breaks_cons (by decide) _), ?_⟩
        refine ⟨isReadBefore_blank (by decide) _, isReadBefore_punct trivial, ?_⟩
        exact ⟨isReadBefore_blank (by decide) _, hvalue rest hrest⟩

theorem Value.IsWritable.areSeparable {v : Value} (h : v.IsWritable ctx write) :
    AreSeparable (v.lexemes write) := h.areSeparable_of_isWrittenAs h.isWrittenAs

end Separable

end FrontendSync.Php
