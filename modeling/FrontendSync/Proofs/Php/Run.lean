import FrontendSync.Proofs.Php.Grammar

/-!
# Runs of the readers

What the readers of expressions do, as a relation: a run of a reader leads from some tokens to a
value and the tokens that are left.  There is a rule for each way that a reader goes on, and a rule
says everything that the reader looks at on this way.  A reader answers with a value exactly when
it has a run, so what holds of expressions follows by induction on runs.
-/

namespace FrontendSync.Php.Expression

/-! ## Readers -/

/-- A mark that closes an array. -/
abbrev Closer := {p : Punct // p ∈ closers}

namespace Closer

def bracket : Closer := ⟨.bracketClose, by decide⟩

def paren : Closer := ⟨.parenClose, by decide⟩

end Closer

/-- What there is a reader for: an expression, what is joined to a value, an operand, and the rest
of an array before an entry and behind one. -/
inductive Reader where
  | expression
  | joined (v : Value)
  | operand
  | array (closer : Closer) (entries : List (Key × Value)) (index : Int)
  | afterEntry (closer : Closer) (entries : List (Key × Value)) (index : Int)

/-- A reader answers with a value and leaves some tokens. -/
def Reader.Answers (ctx : Context) : Reader → List Token → Value → List Token → Prop
  | .expression, ts, v, rest => (read ctx ts).Is v rest
  | .joined u, ts, v, rest => (Expression.joined ctx u ts).Is v rest
  | .operand, ts, v, rest => (unary ctx ts).Is v rest
  | .array closer entries index, ts, v, rest =>
    (Expression.array ctx closer entries index ts).Is v rest
  | .afterEntry closer entries index, ts, v, rest =>
    (Expression.afterEntry ctx closer entries index ts).Is v rest

/-- A name that is a literal. -/
inductive NamesLiteral (t : Token) : Value → Prop
  | null : t.isKeyword "null" = true → NamesLiteral t .null
  | false : t.isKeyword "false" = true → NamesLiteral t (.bool false)
  | true : t.isKeyword "true" = true → NamesLiteral t (.bool true)

/-! ## Rules -/

/-- A reader leads from tokens to a value and the tokens that are left. -/
inductive Run (ctx : Context) : Reader → List Token → Value → List Token → Prop
  | expression {ts more rest : List Token} {v w : Value} : Run ctx .operand ts v more →
      Run ctx (.joined v) more w rest → Run ctx .expression ts w rest
  | alone {rest : List Token} {v : Value} : (∀ t ∈ rest.head?, t.isPunct .dot = false) →
      Run ctx (.joined v) rest v rest
  | dot {t : Token} {ts more rest : List Token} {v w x : Value} {l r : String} :
      t.isPunct .dot = true → Run ctx .operand ts w more → v.joinText? = some l →
      w.joinText? = some r → Run ctx (.joined (.string (l ++ r))) more x rest →
      Run ctx (.joined v) (t :: ts) x rest
  | plus {t : Token} {ts rest : List Token} {v : Value} : t.isPunct .plus = true →
      Run ctx .operand ts v rest → Run ctx .operand (t :: ts) v rest
  | minus {t : Token} {ts rest : List Token} {v w : Value} : t.isPunct .minus = true →
      Run ctx .operand ts v rest → negate? v = some w → Run ctx .operand (t :: ts) w rest
  | string {t : Token} {rest : List Token} {s : String} : t.kind = .string s →
      Run ctx .operand (t :: rest) (.string s) rest
  | int {t : Token} {rest : List Token} {n : Int} : t.kind = .int n →
      Run ctx .operand (t :: rest) (.int n) rest
  | float {t : Token} {rest : List Token} {x : Binary64} : t.kind = .float x →
      Run ctx .operand (t :: rest) (.float x) rest
  | word {t : Token} {rest : List Token} {v : Value} : NamesLiteral t v →
      (∀ u ∈ rest.head?, u.isPunct .doubleColon = false) → Run ctx .operand (t :: rest) v rest
  | parens {o c : Token} {ts rest : List Token} {v : Value} : o.isPunct .parenOpen = true →
      Run ctx .expression ts v (c :: rest) → c.isPunct .parenClose = true →
      Run ctx .operand (o :: ts) v rest
  | list {o : Token} {ts rest : List Token} {v : Value} : o.isPunct .bracketOpen = true →
      Run ctx (.array .bracket [] 0) ts v rest → Run ctx .operand (o :: ts) v rest
  | array {a o : Token} {ts rest : List Token} {v : Value} : a.isKeyword "array" = true →
      o.isPunct .parenOpen = true → Run ctx (.array .paren [] 0) ts v rest →
      Run ctx .operand (a :: o :: ts) v rest
  | className {className : String} {n d m : Token} {rest : List Token} :
      NamesClass ctx className n d → m.isKeyword "class" = true →
      Run ctx .operand (n :: d :: m :: rest) (.string className) rest
  | enumCase {className caseName : String} {n d m : Token} {rest : List Token} :
      NamesClass ctx className n d → m.name? = some caseName → m.isKeyword "class" = false →
      (∀ a ∈ rest.head?, ¬ IsArrow a) →
      Run ctx .operand (n :: d :: m :: rest) (.enumCase className caseName) rest
  | caseName {className caseName : String} {n d m a p : Token} {rest : List Token} :
      NamesClass ctx className n d → m.name? = some caseName → m.isKeyword "class" = false →
      IsArrow a → p.name? = some "name" →
      Run ctx .operand (n :: d :: m :: a :: p :: rest) (.string caseName) rest
  | caseValue {className caseName : String} {n d m a p : Token} {rest : List Token} {v : Value} :
      NamesClass ctx className n d → m.name? = some caseName → m.isKeyword "class" = false →
      IsArrow a → p.name? = some "value" → ctx.caseValue className caseName = some v →
      Run ctx .operand (n :: d :: m :: a :: p :: rest) v rest
  | closed {closer : Closer} {entries : List (Key × Value)} {index : Int} {c : Token}
      {rest : List Token} : c.isPunct closer = true →
      Run ctx (.array closer entries index) (c :: rest) (.array entries) rest
  | keyed {closer : Closer} {entries : List (Key × Value)} {index : Int} {k v w : Value} {key : Key}
      {a : Token} {ts after more rest : List Token} : Run ctx .expression ts k (a :: after) →
      a.isPunct .doubleArrow = true → k.key? = some key → Run ctx .expression after v more →
      Run ctx (.afterEntry closer (Ordered.insert key v entries) (nextIndex index key)) more w
        rest →
      Run ctx (.array closer entries index) ts w rest
  | listed {closer : Closer} {entries : List (Key × Value)} {index : Int} {v w : Value} {a : Token}
      {ts after rest : List Token} : Run ctx .expression ts v (a :: after) →
      a.isPunct .doubleArrow = false →
      Run ctx (.afterEntry closer (Ordered.insert (.int index) v entries)
        (nextIndex index (.int index))) (a :: after) w rest →
      Run ctx (.array closer entries index) ts w rest
  | ended {closer : Closer} {entries : List (Key × Value)} {index : Int} {c : Token}
      {rest : List Token} : c.isPunct closer = true →
      Run ctx (.afterEntry closer entries index) (c :: rest) (.array entries) rest
  | comma {closer : Closer} {entries : List (Key × Value)} {index : Int} {t : Token}
      {ts rest : List Token} {v : Value} : t.isPunct .comma = true →
      Run ctx (.array closer entries index) ts v rest →
      Run ctx (.afterEntry closer entries index) (t :: ts) v rest

variable {ctx : Context} {r : Reader} {t : Token} {ts rest : List Token} {v : Value}

/-- A reader leaves the end of its tokens. -/
theorem Run.suffix (h : Run ctx r ts v rest) : rest <:+ ts := by
  induction h with
  | alone => exact List.suffix_refl _
  | expression _ _ ih ih' => exact ih'.trans ih
  | listed _ _ _ ih ih' => exact ih'.trans ih
  | dot _ _ _ _ _ ih ih' => exact (ih'.trans ih).trans (List.suffix_cons _ _)
  | parens _ _ _ ih => exact ((List.suffix_cons _ _).trans ih).trans (List.suffix_cons _ _)
  | keyed _ _ _ _ _ ih ih' ih'' => exact (ih''.trans ih').trans ((List.suffix_cons _ _).trans ih)
  | plus _ _ ih | minus _ _ _ ih | list _ _ ih | comma _ _ ih =>
    exact ih.trans (List.suffix_cons _ _)
  | @array a o _ _ _ _ _ _ ih => exact ih.trans ⟨[a, o], rfl⟩
  | string | int | float | word | closed | ended => exact List.suffix_cons _ _
  | @className _ n d m => exact ⟨[n, d, m], rfl⟩
  | @enumCase _ _ n d m => exact ⟨[n, d, m], rfl⟩
  | @caseName _ _ n d m a p | @caseValue _ _ n d m a p => exact ⟨[n, d, m, a, p], rfl⟩

/-! ## Readers follow the rules -/

theorem NamesLiteral.exists_word (h : NamesLiteral t v) :
    ∃ text, t.name? = some text ∧ text.toLower ≠ "array" ∧
      ∀ ts, word t text ts = .value v ts (Nat.lt_succ_self _) := by
  cases h with
  | null h | false h | true h =>
    obtain ⟨text, ht, hlower⟩ := Token.exists_of_isKeyword h
    exact ⟨text, ht, by simp [hlower], fun ts ↦ by simp [word, hlower]⟩

theorem namesLiteral_of_word {text : String} (ht : t.name? = some text)
    (h : (word t text ts).Is v rest) : ts = rest ∧ NamesLiteral t v := by
  unfold word at h
  split at h
  · rename_i hlower
    obtain ⟨rfl, rfl⟩ := (Reading.is_value_iff _).mp h
    exact ⟨rfl, .true (by simp [Token.isKeyword_eq ht, hlower])⟩
  · rename_i hlower
    obtain ⟨rfl, rfl⟩ := (Reading.is_value_iff _).mp h
    exact ⟨rfl, .false (by simp [Token.isKeyword_eq ht, hlower])⟩
  · rename_i hlower
    obtain ⟨rfl, rfl⟩ := (Reading.is_value_iff _).mp h
    exact ⟨rfl, .null (by simp [Token.isKeyword_eq ht, hlower])⟩
  · simp at h

section Member

variable {className caseName : String} {n d m a : Token}

theorem run_of_property (hclass : NamesClass ctx className n d) (hm : m.name? = some caseName)
    (hcase : m.isKeyword "class" = false) (ha : IsArrow a)
    (h : (property ctx className caseName ts).Is v rest) :
    Run ctx .operand (n :: d :: m :: a :: ts) v rest := by
  unfold property at h
  split at h
  · simp at h
  · split at h
    · rename_i hp
      obtain ⟨rfl, rfl⟩ := (Reading.is_value_iff _).mp h
      exact .caseName hclass hm hcase ha hp
    · rename_i hp
      split at h
      · rename_i hv
        obtain ⟨rfl, rfl⟩ := (Reading.is_value_iff _).mp h
        exact .caseValue hclass hm hcase ha hp hv
      · simp at h
    · simp at h

theorem run_of_enumCase (hclass : NamesClass ctx className n d) (hm : m.name? = some caseName)
    (hcase : m.isKeyword "class" = false) (h : (enumCase ctx className caseName ts).Is v rest) :
    Run ctx .operand (n :: d :: m :: ts) v rest := by
  unfold enumCase at h
  split at h
  · obtain ⟨rfl, rfl⟩ := (Reading.is_value_iff _).mp h
    exact .enumCase hclass hm hcase (by simp)
  · split at h
    · rename_i ha
      exact run_of_property hclass hm hcase (by simpa [IsArrow] using ha)
        ((Reading.is_widen_iff _).mp h)
    · rename_i ha
      obtain ⟨rfl, rfl⟩ := (Reading.is_value_iff _).mp h
      exact .enumCase hclass hm hcase (by simpa [IsArrow] using ha)

theorem run_of_member (hclass : NamesClass ctx className n d)
    (h : (member ctx className ts).Is v rest) : Run ctx .operand (n :: d :: ts) v rest := by
  unfold member at h
  split at h
  · simp at h
  · split at h
    · simp at h
    · rename_i caseName hm
      split at h
      · rename_i hlower
        obtain ⟨rfl, rfl⟩ := (Reading.is_value_iff _).mp h
        exact .className hclass (by simp [Token.isKeyword_eq hm, hlower])
      · rename_i hlower
        exact run_of_enumCase hclass hm (by simp [Token.isKeyword_eq hm, hlower]) h

end Member

mutual

theorem run_of_read {ts : List Token} {v : Value} {rest : List Token}
    (h : (read ctx ts).Is v rest) : Run ctx .expression ts v rest := by
  rw [read.eq_def] at h
  split at h
  · simp at h
  · rename_i w more hlt heq
    exact .expression (run_of_unary ⟨hlt, heq⟩) (run_of_joined ((Reading.is_widen_iff _).mp h))
termination_by 6 * ts.length + 3

theorem run_of_joined {ts : List Token} {v w : Value} {rest : List Token}
    (h : (joined ctx v ts).Is w rest) : Run ctx (.joined v) ts w rest := by
  rw [joined.eq_def] at h
  split at h
  · obtain ⟨rfl, rfl⟩ := (Reading.is_value_iff _).mp h
    exact .alone (by simp)
  · rename_i t ts
    split at h
    · rename_i hdot
      split at h
      · simp at h
      · rename_i u more hlt heq
        split at h
        · rename_i l r hl hr
          exact .dot hdot (run_of_unary ⟨hlt, heq⟩) hl hr
            (run_of_joined ((Reading.is_widen_iff _).mp h))
        · simp at h
    · rename_i hdot
      obtain ⟨rfl, rfl⟩ := (Reading.is_value_iff _).mp h
      exact .alone (by simpa using hdot)
termination_by 6 * ts.length + 3
decreasing_by all_goals (subst_vars; decreasing_tactic)

theorem run_of_unary {ts : List Token} {v : Value} {rest : List Token}
    (h : (unary ctx ts).Is v rest) : Run ctx .operand ts v rest := by
  rw [unary.eq_def] at h
  split at h
  · simp at h
  · rename_i t ts
    split at h
    · rename_i hplus
      exact .plus hplus (run_of_unary ((Reading.is_widen_iff _).mp h))
    · split at h
      · rename_i hminus
        split at h
        · simp at h
        · rename_i w more hlt heq
          split at h
          · rename_i u hu
            obtain ⟨rfl, rfl⟩ := (Reading.is_value_iff _).mp h
            exact .minus hminus (run_of_unary ⟨hlt, heq⟩) hu
          · simp at h
      · exact run_of_primary h
termination_by 6 * ts.length + 2
decreasing_by all_goals (subst_vars; decreasing_tactic)

theorem run_of_primary {t : Token} {ts : List Token} {v : Value} {rest : List Token}
    (h : (primary ctx t ts).Is v rest) : Run ctx .operand (t :: ts) v rest := by
  rw [primary.eq_def] at h
  split at h
  · rename_i s hkind
    obtain ⟨rfl, rfl⟩ := (Reading.is_value_iff _).mp h
    exact .string hkind
  · rename_i n hkind
    obtain ⟨rfl, rfl⟩ := (Reading.is_value_iff _).mp h
    exact .int hkind
  · rename_i x hkind
    obtain ⟨rfl, rfl⟩ := (Reading.is_value_iff _).mp h
    exact .float hkind
  · rename_i hkind
    exact .list (Token.isPunct_iff.mpr hkind) (run_of_array .bracket ((Reading.is_widen_iff _).mp h))
  · rename_i hkind
    split at h
    · simp at h
    · rename_i w more hlt heq
      obtain ⟨rfl, c, hc, rfl⟩ := is_close_iff.mp ((Reading.is_widen_iff _).mp h)
      exact .parens (Token.isPunct_iff.mpr hkind) (run_of_read ⟨hlt, heq⟩) hc
  · rename_i name hkind
    have hname := Token.name?_eq_some_iff.mpr hkind
    split at h
    · obtain ⟨rfl, hword⟩ := namesLiteral_of_word hname h
      exact .word hword (by simp)
    · rename_i next more
      split at h
      · rename_i hcolon
        split at h
        · simp at h
        · rename_i className hclass
          exact run_of_member ⟨hcolon, name, hname, hclass⟩ ((Reading.is_widen_iff _).mp h)
      · rename_i hcolon
        split at h
        · rename_i harray
          exact .array (by simp [Token.isKeyword_eq hname, harray.1]) harray.2
            (run_of_array .paren ((Reading.is_widen_iff _).mp h))
        · obtain ⟨rfl, hword⟩ := namesLiteral_of_word hname h
          exact .word hword (by simpa using hcolon)
  · simp at h
termination_by 6 * ts.length + 5
decreasing_by all_goals (subst_vars; decreasing_tactic)

theorem run_of_array {ts : List Token} (closer : Closer) {entries : List (Key × Value)}
    {index : Int} {v : Value} {rest : List Token}
    (h : (array ctx closer entries index ts).Is v rest) :
    Run ctx (.array closer entries index) ts v rest := by
  rw [array.eq_def] at h
  split at h
  · simp at h
  · rename_i t ts
    split at h
    · rename_i hc
      obtain ⟨rfl, rfl⟩ := (Reading.is_value_iff _).mp h
      exact .closed hc
    · split at h
      · simp at h
      · split at h
        · simp at h
        · simp at h
        · rename_i k a after hlt heq
          have hshorter : after.length < (t :: ts).length := Nat.lt_of_succ_lt hlt
          have hfirst := run_of_read ⟨hlt, heq⟩
          simp only at h
          split at h
          · rename_i harrow
            split at h
            · simp at h
            · rename_i key hkey
              split at h
              · simp at h
              · rename_i w more hlt' heq'
                have hmore : more.length < (t :: ts).length := Nat.lt_trans hlt' hshorter
                exact .keyed hfirst harrow hkey (run_of_read ⟨hlt', heq'⟩)
                  (run_of_afterEntry closer ((Reading.is_widen_iff _).mp h))
          · rename_i harrow
            exact .listed hfirst (by simpa using harrow)
              (run_of_afterEntry closer ((Reading.is_widen_iff _).mp h))
termination_by 6 * ts.length + 4
decreasing_by all_goals (subst_vars; omega)

theorem run_of_afterEntry {ts : List Token} (closer : Closer) {entries : List (Key × Value)}
    {index : Int} {v : Value} {rest : List Token}
    (h : (afterEntry ctx closer entries index ts).Is v rest) :
    Run ctx (.afterEntry closer entries index) ts v rest := by
  rw [afterEntry.eq_def] at h
  split at h
  · simp at h
  · split at h
    · rename_i hc
      obtain ⟨rfl, rfl⟩ := (Reading.is_value_iff _).mp h
      exact .ended hc
    · split at h
      · rename_i hcomma
        exact .comma hcomma (run_of_array closer ((Reading.is_widen_iff _).mp h))
      · simp at h
termination_by 6 * ts.length + 1
decreasing_by all_goals (subst_vars; decreasing_tactic)

end

/-! ## Rules are what readers do -/

theorem NamesClass.is_unary {className : String} {n d : Token} (h : NamesClass ctx className n d)
    (hmember : (member ctx className ts).Is v rest) : (unary ctx (n :: d :: ts)).Is v rest := by
  obtain ⟨hd, text, hn, hclass⟩ := h
  exact is_unary_member hn hd hclass hmember

theorem Run.answers (h : Run ctx r ts v rest) : r.Answers ctx ts v rest := by
  induction h with
  | expression _ _ ih ih' => exact is_read_of_is_unary ih ih'
  | alone hrest => exact is_joined_of_head? _ hrest
  | dot ht _ hl hr _ ih ih' => exact is_joined_dot ht ih hl hr ih'
  | plus ht _ ih => exact is_unary_plus ht ih
  | minus ht _ hw ih => exact is_unary_minus ht ih hw
  | string ht => exact is_unary_string ht _
  | int ht => exact is_unary_int ht _
  | float ht => exact is_unary_float ht _
  | word ht hrest =>
    obtain ⟨text, hname, harray, hword⟩ := ht.exists_word
    exact is_unary_word hname harray hword hrest
  | parens ho _ hc ih => exact is_unary_parens ho hc ih
  | list ho _ ih => exact is_unary_list ho ih
  | array ha ho _ ih => exact is_unary_array ha ho ih
  | className hclass hm => exact hclass.is_unary (is_member_class hm _)
  | enumCase hclass hm hcase hrest =>
    exact hclass.is_unary (is_member_of_is_enumCase hm hcase (is_enumCase_of_not_isArrow _ _ hrest))
  | caseName hclass hm hcase ha hp =>
    refine hclass.is_unary (is_member_of_is_enumCase hm hcase (is_enumCase_of_is_property ha ?_))
    simp [property, hp]
  | caseValue hclass hm hcase ha hp hv =>
    refine hclass.is_unary (is_member_of_is_enumCase hm hcase (is_enumCase_of_is_property ha ?_))
    simp [property, hp, hv]
  | closed hc => exact is_array_closer hc _
  | keyed _ ha hkey _ _ ih ih' ih'' =>
    exact is_array_keyed (Subtype.property _) ih ha hkey ih' ih''
  | listed _ ha _ ih ih' => exact is_array_value (Subtype.property _) ih ha ih'
  | ended hc => exact is_afterEntry_closer hc _
  | comma ht _ ih => exact is_afterEntry_comma (Subtype.property _) ht ih

/-- A reader answers with a value exactly when it has a run that leads there. -/
theorem run_iff : Run ctx r ts v rest ↔ r.Answers ctx ts v rest := by
  refine ⟨Run.answers, fun h ↦ ?_⟩
  cases r with
  | expression => exact run_of_read h
  | joined => exact run_of_joined h
  | operand => exact run_of_unary h
  | array closer => exact run_of_array closer h
  | afterEntry closer => exact run_of_afterEntry closer h

/-- An operand has tokens. -/
theorem Run.ne_nil {us : List Token} (h : Run ctx .operand (us ++ rest) v rest) : us ≠ [] := by
  rintro rfl
  obtain ⟨hlt, -⟩ : (unary ctx rest).Is v rest := h.answers
  exact Nat.lt_irrefl _ hlt

end FrontendSync.Php.Expression
