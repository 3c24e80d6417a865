import FrontendSync.Php.Expression

/-!
# Steps of the readers

What each reader of expressions reads when the readers below it read what they do, one lemma for
each way that a reader goes on.
-/

namespace FrontendSync.Php

/-! ## Tokens -/

namespace Token

theorem isPunct_iff {t : Token} {p : Punct} : t.isPunct p = true ↔ t.kind = .punct p := by
  simp [isPunct]

theorem isPunct_eq_false {t : Token} {p q : Punct} (h : t.isPunct p = true) (hne : p ≠ q) :
    t.isPunct q = false := by
  rw [isPunct_iff] at h
  simp [isPunct, h, hne]

theorem name?_of_isPunct {t : Token} {p : Punct} (h : t.isPunct p = true) : t.name? = none := by
  rw [isPunct_iff] at h
  simp [name?, h]

theorem name?_eq_some_iff {t : Token} {text : String} :
    t.name? = some text ↔ t.kind = .name text := by
  unfold name?
  split
  · rename_i name h
    rw [h, Option.some.injEq, Kind.name.injEq]
  · rename_i h
    exact ⟨fun hnone ↦ (nomatch hnone), fun hname ↦ absurd hname (h text)⟩

theorem isKeyword_eq {t : Token} {text : String} (h : t.name? = some text) (word : String) :
    t.isKeyword word = (text.toLower == word) := by
  simp [isKeyword, keyword?, h]

theorem exists_of_isKeyword {t : Token} {word : String} (h : t.isKeyword word = true) :
    ∃ text, t.name? = some text ∧ text.toLower = word := by
  simpa [isKeyword, keyword?] using h

end Token

/-! ## Readings -/

/-- A reading of a value that leaves the given tokens. -/
def Reading.Is {n : Nat} (r : Reading Value n) (v : Value) (rest : List Token) : Prop :=
  ∃ h, r = .value v rest h

namespace Reading

variable {m n : Nat} {v w : Value} {rest left : List Token}

theorem is_value (h : rest.length < n) : (Reading.value v rest h : Reading Value n).Is v rest :=
  ⟨h, rfl⟩

theorem Is.unique {r : Reading Value n} (hv : r.Is v rest) (hw : r.Is w left) : v = w := by
  obtain ⟨_, rfl⟩ := hv
  obtain ⟨_, hw⟩ := hw
  exact (Reading.value.inj hw).1

theorem Is.widen {r : Reading Value m} (h : r.Is v rest) (hle : m ≤ n) :
    (r.widen hle).Is v rest := by
  obtain ⟨hlt, rfl⟩ := h
  exact ⟨_, rfl⟩

@[simp] theorem is_value_iff (h : rest.length < n) :
    (Reading.value v rest h : Reading Value n).Is w left ↔ v = w ∧ rest = left := by
  constructor
  · rintro ⟨_, heq⟩
    exact ⟨(Reading.value.inj heq).1, (Reading.value.inj heq).2⟩
  · rintro ⟨rfl, rfl⟩
    exact is_value h

@[simp] theorem not_is_error (e : EvalError) :
    ¬ (Reading.error e rest : Reading Value n).Is w left := fun ⟨_, heq⟩ ↦ nomatch heq

@[simp] theorem is_widen_iff {r : Reading Value m} (h : m ≤ n) :
    (r.widen h).Is v rest ↔ r.Is v rest := by
  cases r with
  | value => simp [widen]
  | error => simp [widen]

end Reading

namespace Expression

variable {ctx : Context} {ts rest left : List Token} {t : Token} {v w : Value}

/-! ## Operands -/

theorem unary_eq_primary {t : Token} (hplus : t.isPunct .plus = false)
    (hminus : t.isPunct .minus = false) (ts : List Token) :
    unary ctx (t :: ts) = primary ctx t ts := by
  rw [unary.eq_def]
  simp [hplus, hminus]

theorem is_read_of_is_unary (h : (unary ctx ts).Is v rest)
    (hjoined : (joined ctx v rest).Is w left) : (read ctx ts).Is w left := by
  obtain ⟨_, hunary⟩ := h
  rw [read.eq_def, hunary]
  exact hjoined.widen _

theorem is_joined_of_head? (v : Value) (h : ∀ t ∈ rest.head?, t.isPunct .dot = false) :
    (joined ctx v rest).Is v rest := by
  rw [joined.eq_def]
  cases rest with
  | nil => exact Reading.is_value _
  | cons t rest =>
    have hdot : t.isPunct .dot = false := h t rfl
    simp [hdot]

theorem is_joined_dot {l r : String} (ht : t.isPunct .dot = true) (h : (unary ctx ts).Is w rest)
    (hl : v.joinText? = some l) (hr : w.joinText? = some r) {x : Value}
    (hjoined : (joined ctx (.string (l ++ r)) rest).Is x left) :
    (joined ctx v (t :: ts)).Is x left := by
  obtain ⟨_, hunary⟩ := h
  rw [joined.eq_def]
  simp only [ht, if_true, hunary, hl, hr]
  exact hjoined.widen _

theorem is_unary_plus (ht : t.isPunct .plus = true) (h : (unary ctx ts).Is v rest) :
    (unary ctx (t :: ts)).Is v rest := by
  rw [unary.eq_def]
  simp only [ht, if_true]
  exact h.widen _

theorem is_unary_minus (ht : t.isPunct .minus = true) (h : (unary ctx ts).Is v rest)
    (hw : negate? v = some w) : (unary ctx (t :: ts)).Is w rest := by
  have hplus : t.isPunct .plus = false := Token.isPunct_eq_false ht (by decide)
  obtain ⟨_, hunary⟩ := h
  rw [unary.eq_def]
  simp only [hplus, ht, if_true, hunary, hw, Bool.false_eq_true, if_false]
  exact Reading.is_value _

/-- Only a sign keeps an operand from being primary. -/
theorem is_unary_of_is_primary (ht : ∀ p, t.isPunct p = true → p ≠ .plus ∧ p ≠ .minus)
    (h : (primary ctx t ts).Is v rest) : (unary ctx (t :: ts)).Is v rest := by
  rw [unary_eq_primary]
  · exact h
  · exact Bool.eq_false_iff.mpr fun hp ↦ (ht _ hp).1 rfl
  · exact Bool.eq_false_iff.mpr fun hp ↦ (ht _ hp).2 rfl

theorem ne_sign_of_name? {text : String} (h : t.name? = some text) (p : Punct)
    (hp : t.isPunct p = true) : p ≠ .plus ∧ p ≠ .minus := by
  rw [Token.name?_of_isPunct hp] at h
  exact absurd h (by simp)

/-! ## Literals -/

theorem is_unary_string {s : String} (h : t.kind = .string s) (rest : List Token) :
    (unary ctx (t :: rest)).Is (.string s) rest := by
  refine is_unary_of_is_primary (fun p hp ↦ ?_) ?_
  · simp [Token.isPunct, h] at hp
  · rw [primary.eq_def]
    simp [h]

theorem is_unary_int {n : Int} (h : t.kind = .int n) (rest : List Token) :
    (unary ctx (t :: rest)).Is (.int n) rest := by
  refine is_unary_of_is_primary (fun p hp ↦ ?_) ?_
  · simp [Token.isPunct, h] at hp
  · rw [primary.eq_def]
    simp [h]

theorem is_unary_float {x : Binary64} (h : t.kind = .float x) (rest : List Token) :
    (unary ctx (t :: rest)).Is (.float x) rest := by
  refine is_unary_of_is_primary (fun p hp ↦ ?_) ?_
  · simp [Token.isPunct, h] at hp
  · rw [primary.eq_def]
    simp [h]

/-- A literal that is a name, unless it is the name of a class. -/
theorem is_unary_word {text : String} (ht : t.name? = some text) (harray : text.toLower ≠ "array")
    (h : ∀ ts, word t text ts = .value v ts (Nat.lt_succ_self _))
    (hrest : ∀ u ∈ rest.head?, u.isPunct .doubleColon = false) :
    (unary ctx (t :: rest)).Is v rest := by
  refine is_unary_of_is_primary (ne_sign_of_name? ht) ?_
  rw [primary.eq_def]
  simp only [Token.name?_eq_some_iff.mp ht]
  cases rest with
  | nil => exact ⟨_, h []⟩
  | cons u rest =>
    have hcolon : u.isPunct .doubleColon = false := hrest u rfl
    simp only [hcolon, harray, Bool.false_eq_true, if_false, false_and]
    exact ⟨_, h _⟩

/-! ## Members of classes -/

def IsArrow (t : Token) : Prop := t.isPunct .arrow = true ∨ t.isPunct .nullsafeArrow = true

theorem IsArrow.isPunct_doubleColon {t : Token} (h : IsArrow t) :
    t.isPunct .doubleColon = false := by
  rcases h with h | h
  · exact Token.isPunct_eq_false h (by decide)
  · exact Token.isPunct_eq_false h (by decide)

theorem is_unary_member {text className : String} {n d : Token} (hn : n.name? = some text)
    (hd : d.isPunct .doubleColon = true) (hclass : className? ctx text = some className)
    (h : (member ctx className ts).Is v rest) : (unary ctx (n :: d :: ts)).Is v rest := by
  refine is_unary_of_is_primary (ne_sign_of_name? hn) ?_
  rw [primary.eq_def]
  simp only [Token.name?_eq_some_iff.mp hn, hd, if_true, hclass]
  exact h.widen _

theorem is_member_class {className : String} (h : t.isKeyword "class" = true) (ts : List Token) :
    (member ctx className (t :: ts)).Is (.string className) ts := by
  obtain ⟨text, ht, hlower⟩ := Token.exists_of_isKeyword h
  simp only [member, ht, hlower, if_true]
  exact Reading.is_value _

theorem is_member_of_is_enumCase {className caseName : String} (ht : t.name? = some caseName)
    (hcase : t.isKeyword "class" = false) (h : (enumCase ctx className caseName ts).Is v rest) :
    (member ctx className (t :: ts)).Is v rest := by
  have hlower : caseName.toLower ≠ "class" := by simpa [Token.isKeyword_eq ht] using hcase
  simp only [member, ht, if_neg hlower]
  exact h

theorem is_enumCase_of_not_isArrow (className caseName : String)
    (h : ∀ t ∈ rest.head?, ¬ IsArrow t) :
    (enumCase ctx className caseName rest).Is (.enumCase className caseName) rest := by
  unfold enumCase
  cases rest with
  | nil => exact Reading.is_value _
  | cons t rest =>
    have harrow : (t.isPunct .arrow || t.isPunct .nullsafeArrow) = false := by
      simpa [IsArrow] using h t rfl
    simp [harrow]

theorem is_enumCase_of_is_property {className caseName : String} (ht : IsArrow t)
    (h : (property ctx className caseName ts).Is v rest) :
    (enumCase ctx className caseName (t :: ts)).Is v rest := by
  have harrow : (t.isPunct .arrow || t.isPunct .nullsafeArrow) = true := by
    simpa [IsArrow] using ht
  simp only [enumCase, harrow, if_true]
  exact h.widen _

/-! ## Brackets -/

theorem is_close_iff {mark : Punct} {v w : Value} {ts rest : List Token} :
    (close mark v ts).Is w rest ↔ v = w ∧ ∃ c, c.isPunct mark = true ∧ ts = c :: rest := by
  unfold close
  split
  · simp
  · rename_i t ts
    split
    · rename_i ht
      simp only [Reading.is_value_iff, List.cons.injEq]
      refine and_congr_right fun _ ↦ ⟨?_, ?_⟩
      · rintro rfl
        exact ⟨t, ht, rfl, rfl⟩
      · rintro ⟨c, -, -, rfl⟩
        rfl
    · rename_i ht
      simp only [Reading.not_is_error, false_iff, not_and, not_exists, List.cons.injEq]
      rintro - c hc rfl -
      exact ht hc

theorem is_unary_parens {o c : Token} (ho : o.isPunct .parenOpen = true)
    (hc : c.isPunct .parenClose = true) (h : (read ctx ts).Is v (c :: rest)) :
    (unary ctx (o :: ts)).Is v rest := by
  have hkind := Token.isPunct_iff.mp ho
  refine is_unary_of_is_primary (fun p hp ↦ ?_) ?_
  · obtain rfl : Punct.parenOpen = p := by simpa [Token.isPunct, hkind] using hp
    decide
  · obtain ⟨_, hread⟩ := h
    rw [primary.eq_def]
    simp only [hkind, hread]
    exact (is_close_iff.mpr ⟨rfl, c, hc, rfl⟩).widen _

theorem is_unary_list {o : Token} (ho : o.isPunct .bracketOpen = true)
    (h : (array ctx .bracketClose [] 0 ts).Is v rest) : (unary ctx (o :: ts)).Is v rest := by
  have hkind := Token.isPunct_iff.mp ho
  refine is_unary_of_is_primary (fun p hp ↦ ?_) ?_
  · obtain rfl : Punct.bracketOpen = p := by simpa [Token.isPunct, hkind] using hp
    decide
  · rw [primary.eq_def]
    simp only [hkind]
    exact h.widen _

theorem is_unary_array {a o : Token} (ha : a.isKeyword "array" = true)
    (ho : o.isPunct .parenOpen = true) (h : (array ctx .parenClose [] 0 ts).Is v rest) :
    (unary ctx (a :: o :: ts)).Is v rest := by
  obtain ⟨text, hname, hlower⟩ := Token.exists_of_isKeyword ha
  have hcolon : o.isPunct .doubleColon = false := Token.isPunct_eq_false ho (by decide)
  refine is_unary_of_is_primary (ne_sign_of_name? hname) ?_
  rw [primary.eq_def]
  simp only [Token.name?_eq_some_iff.mp hname, hcolon, Bool.false_eq_true, if_false, hlower, ho,
    and_self, if_true]
  exact h.widen _

/-! ## Entries -/

theorem not_is_read_nil {v : Value} {rest : List Token} : ¬ (read ctx []).Is v rest := by
  rintro ⟨_, h⟩
  rw [read.eq_def, unary.eq_def] at h
  simp at h

/-- Nothing is read from a mark that starts no operand. -/
theorem isPunct_eq_false_of_is_read {p : Punct}
    (hp : p ∈ [Punct.bracketClose, .parenClose, .ellipsis]) {t : Token} {ts : List Token}
    {v : Value} {rest : List Token} (h : (read ctx (t :: ts)).Is v rest) : t.isPunct p = false := by
  refine Bool.eq_false_iff.mpr fun ht ↦ ?_
  have hkind : t.kind = .punct p := by simpa [Token.isPunct] using ht
  obtain ⟨_, h⟩ := h
  have hplus : t.isPunct .plus = false := by
    simp only [List.mem_cons, List.not_mem_nil, or_false] at hp
    rcases hp with rfl | rfl | rfl <;> simp [Token.isPunct, hkind]
  have hminus : t.isPunct .minus = false := by
    simp only [List.mem_cons, List.not_mem_nil, or_false] at hp
    rcases hp with rfl | rfl | rfl <;> simp [Token.isPunct, hkind]
  rw [read.eq_def, unary_eq_primary hplus hminus, primary.eq_def] at h
  simp only [List.mem_cons, List.not_mem_nil, or_false] at hp
  rcases hp with rfl | rfl | rfl <;> simp [hkind] at h

/-- The marks that close an array. -/
def closers : List Punct := [.bracketClose, .parenClose]

section Entries

variable {closer : Punct} {entries : List (Key × Value)} {index : Int}

theorem isPunct_closer_eq_false_of_is_read (hcloser : closer ∈ closers)
    (h : (read ctx (t :: ts)).Is v rest) : t.isPunct closer = false := by
  refine isPunct_eq_false_of_is_read ?_ h
  simp only [closers, List.mem_cons, List.not_mem_nil, or_false] at hcloser
  rcases hcloser with rfl | rfl <;> simp

theorem is_array_closer (h : t.isPunct closer = true) (rest : List Token) :
    (array ctx closer entries index (t :: rest)).Is (.array entries) rest := by
  rw [array.eq_def]
  simp [h]

theorem is_afterEntry_closer (h : t.isPunct closer = true) (rest : List Token) :
    (afterEntry ctx closer entries index (t :: rest)).Is (.array entries) rest := by
  rw [afterEntry.eq_def]
  simp [h]

theorem is_afterEntry_comma (hcloser : closer ∈ closers) (ht : t.isPunct .comma = true)
    (h : (array ctx closer entries index ts).Is v rest) :
    (afterEntry ctx closer entries index (t :: ts)).Is v rest := by
  have hopen : t.isPunct closer = false :=
    Token.isPunct_eq_false ht (by rintro rfl; exact absurd hcloser (by decide))
  rw [afterEntry.eq_def]
  simp only [hopen, ht, Bool.false_eq_true, if_false, if_true]
  exact h.widen _

/-- An entry without a key gets the next index. -/
theorem is_array_value (hcloser : closer ∈ closers) (h : (read ctx ts).Is v (t :: rest))
    (ht : t.isPunct .doubleArrow = false)
    (hafter : (afterEntry ctx closer (Ordered.insert (.int index) v entries)
      (nextIndex index (.int index)) (t :: rest)).Is w left) :
    (array ctx closer entries index ts).Is w left := by
  cases ts with
  | nil => exact absurd h not_is_read_nil
  | cons u ts =>
    have hclose := isPunct_closer_eq_false_of_is_read hcloser h
    have hellipsis : u.isPunct .ellipsis = false := isPunct_eq_false_of_is_read (by simp) h
    obtain ⟨_, hread⟩ := h
    rw [array.eq_def]
    simp only [hclose, hellipsis, Bool.false_eq_true, if_false, hread, ht]
    exact hafter.widen _

theorem is_array_keyed (hcloser : closer ∈ closers) {k : Value} {key : Key} {a : Token}
    {more : List Token} (h : (read ctx ts).Is k (a :: more)) (ha : a.isPunct .doubleArrow = true)
    (hkey : k.key? = some key) (hvalue : (read ctx more).Is v rest)
    (hafter : (afterEntry ctx closer (Ordered.insert key v entries) (nextIndex index key)
      rest).Is w left) :
    (array ctx closer entries index ts).Is w left := by
  cases ts with
  | nil => exact absurd h not_is_read_nil
  | cons u ts =>
    have hclose := isPunct_closer_eq_false_of_is_read hcloser h
    have hellipsis : u.isPunct .ellipsis = false := isPunct_eq_false_of_is_read (by simp) h
    obtain ⟨_, hread⟩ := h
    obtain ⟨_, hvalue⟩ := hvalue
    rw [array.eq_def]
    simp only [hclose, hellipsis, Bool.false_eq_true, if_false, hread, ha, if_true, hkey, hvalue]
    exact hafter.widen _

end Entries

end Expression

end FrontendSync.Php
