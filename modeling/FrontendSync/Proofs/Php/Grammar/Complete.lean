import FrontendSync.Proofs.Php.Constant
import FrontendSync.Proofs.Php.Grammar.Sound

/-!
# Expressions of the grammar are read

Tokens that stand for a value are read as this value, and nothing of what follows them, unless the
token behind them is one with which they go on.  The proof follows the grammar.
-/

namespace FrontendSync.Php.Expression

variable {ctx : Context} {ts rest : List Token} {t : Token} {v : Value}

/-- A form of the grammar is read as what it stands for. -/
def Accepted (ctx : Context) : Form → List Token → Prop
  | .expression v, us => ∀ rest, NoLastKey ctx (us ++ rest) → OperandStops us rest →
      ∀ w left, (joined ctx v rest).Is w left → (read ctx (us ++ rest)).Is w left
  | .operand v, us | .primary v, us => ∀ rest, NoLastKey ctx (us ++ rest) → OperandStops us rest →
      (unary ctx (us ++ rest)).Is v rest
  | .entry e, us => ∀ closer ∈ closers, ∀ t rest,
      (t.isPunct closer = true ∨ t.isPunct .comma = true) → NoLastKey ctx (us ++ t :: rest) →
      ∀ entries index w left,
        (afterEntry ctx closer (enter (entries, index) e).1 (enter (entries, index) e).2
          (t :: rest)).Is w left →
        (array ctx closer entries index (us ++ t :: rest)).Is w left
  | .entries es, us => ∀ closer ∈ closers, ∀ c rest, c.isPunct closer = true →
      NoLastKey ctx (us ++ c :: rest) → ∀ entries index,
        (array ctx closer entries index (us ++ c :: rest)).Is
          (.array (es.foldl enter (entries, index)).1) rest

/-- Nothing goes on with the mark behind an entry. -/
theorem stops_behind_entry {closer : Punct} (hcloser : closer ∈ closers)
    (ht : t.isPunct closer = true ∨ t.isPunct .comma = true) (us rest : List Token) :
    Stops us (t :: rest) := by
  have hclosers : closer ∉ Punct.dot :: memberMarks := by
    revert hcloser
    cases closer <;> decide
  exact ht.elim (fun ht ↦ stops_cons ht hclosers us rest) fun ht ↦ stops_cons ht (by decide) us rest

theorem isPunct_doubleArrow_behind_entry {closer : Punct} (hcloser : closer ∈ closers)
    (ht : t.isPunct closer = true ∨ t.isPunct .comma = true) :
    t.isPunct .doubleArrow = false := by
  refine ht.elim (fun ht ↦ Token.isPunct_eq_false ht ?_) fun ht ↦ Token.isPunct_eq_false ht ?_
  · rintro rfl
    exact absurd hcloser (by decide)
  · decide

theorem isPunct_doubleColon_of_operandStops {text : String} (ht : t.name? = some text)
    (h : OperandStops [t] rest) (u : Token) (hu : u ∈ rest.head?) :
    u.isPunct .doubleColon = false := by
  simpa [operandGoesOn, ht] using h u hu

namespace Accepted

variable {us ws : List Token}

/-- An expression is read in front of a mark that goes on with none. -/
theorem is_read_append (h : Accepted ctx (.expression v) us) (hkeys : NoLastKey ctx (us ++ rest))
    (hstops : Stops us rest) : (read ctx (us ++ rest)).Is v rest := by
  obtain ⟨hdot, hoperand⟩ := stops_iff.mp hstops
  exact h rest hkeys hoperand v rest (is_joined_of_head? v hdot)

theorem join {w : Value} {l r : String} (hv : Accepted ctx (.expression v) us)
    (ht : t.isPunct .dot = true) (hw : Accepted ctx (.operand w) ws) (hne : ws ≠ [])
    (hl : v.joinText? = some l) (hr : w.joinText? = some r) :
    Accepted ctx (.expression (.string (l ++ r))) (us ++ t :: ws) := by
  intro rest hkeys hstops x left hx
  rw [List.append_assoc] at hkeys ⊢
  have hright : (unary ctx (ws ++ rest)).Is w rest :=
    hw rest (hkeys.of_suffix ⟨us ++ [t], by simp⟩)
      ((operandStops_append_cons ht (by decide) hne).mp hstops)
  exact hv _ hkeys (operandStops_cons ht (by decide) _ _) x left
    (is_joined_dot ht hright hl hr hx)

theorem plus (ht : t.isPunct .plus = true) (h : Accepted ctx (.operand v) us) (hne : us ≠ []) :
    Accepted ctx (.operand v) (t :: us) := by
  intro rest hkeys hstops
  have hstops : OperandStops us rest := (operandStops_cons_iff ht (by decide) hne).mp hstops
  exact is_unary_plus ht (h rest (hkeys.of_suffix (List.suffix_cons _ _)) hstops)

theorem minus {w : Value} (ht : t.isPunct .minus = true) (h : Accepted ctx (.operand v) us)
    (hne : us ≠ []) (hw : negate? v = some w) : Accepted ctx (.operand w) (t :: us) := by
  intro rest hkeys hstops
  have hstops : OperandStops us rest := (operandStops_cons_iff ht (by decide) hne).mp hstops
  exact is_unary_minus ht (h rest (hkeys.of_suffix (List.suffix_cons _ _)) hstops) hw

theorem word (ht : NamesLiteral t v) : Accepted ctx (.primary v) [t] := by
  intro rest _ hstops
  obtain ⟨text, hname, -⟩ := ht.exists_word
  exact (Run.word ht (isPunct_doubleColon_of_operandStops hname hstops)).answers

theorem keyed {k : Value} {key : Key} {ks : List Token} {a : Token}
    (hk : Accepted ctx (.expression k) ks) (hkey : IsKey k key)
    (ha : a.isPunct .doubleArrow = true) (hv : Accepted ctx (.expression v) us) :
    Accepted ctx (.entry (some key, v)) (ks ++ a :: us) := by
  intro closer hcloser t rest ht hkeys entries index w left hafter
  rw [List.append_assoc] at hkeys ⊢
  have hleft : (read ctx (ks ++ (a :: us ++ t :: rest))).Is k (a :: us ++ t :: rest) :=
    hk.is_read_append hkeys (stops_cons ha (by decide) _ _)
  have hright : (read ctx (us ++ t :: rest)).Is v (t :: rest) :=
    hv.is_read_append (hkeys.of_suffix ⟨ks ++ [a], by simp⟩) (stops_behind_entry hcloser ht _ _)
  exact is_array_keyed hcloser hleft ha (key?_eq_some_iff.mpr hkey) hright hafter

theorem more {e : WrittenEntry} {es : List WrittenEntry} (he : Accepted ctx (.entry e) us)
    (ht : t.isPunct .comma = true) (hes : Accepted ctx (.entries es) ws) :
    Accepted ctx (.entries (e :: es)) (us ++ t :: ws) := by
  intro closer hcloser c rest hc hkeys entries index
  rw [List.append_assoc] at hkeys ⊢
  exact he closer hcloser t _ (.inr ht) hkeys entries index _ _
    (is_afterEntry_comma hcloser ht (hes closer hcloser c rest hc
      (hkeys.of_suffix ⟨us ++ [t], by simp⟩) _ _))

end Accepted

/-- Everything that stands for something is read as what it stands for. -/
theorem Derives.accepted {form : Form} {us : List Token} (h : Derives ctx form us) :
    Accepted ctx form us := by
  induction h with
  | operand _ ih =>
    intro rest hkeys hstops w left hw
    exact is_read_of_is_unary (ih rest hkeys hstops) hw
  | join _ hdot hw hl hr ihv ihw =>
    exact ihv.join hdot ihw (hw.ne_nil fun _ ↦ Form.noConfusion) hl hr
  | plus ht hv ih => exact ih.plus ht (hv.ne_nil fun _ ↦ Form.noConfusion)
  | minusInt ht hv ih => exact ih.minus ht (hv.ne_nil fun _ ↦ Form.noConfusion) rfl
  | minusFloat ht hv ih => exact ih.minus ht (hv.ne_nil fun _ ↦ Form.noConfusion) rfl
  | primary _ ih => exact ih
  | string ht => exact fun rest _ _ ↦ is_unary_string ht rest
  | int ht => exact fun rest _ _ ↦ is_unary_int ht rest
  | float ht => exact fun rest _ _ ↦ is_unary_float ht rest
  | null ht => exact .word (.null ht)
  | false ht => exact .word (.false ht)
  | true ht => exact .word (.true ht)
  | @parens v us o c ho hv hc ih =>
    intro rest hkeys _
    rw [List.append_assoc] at hkeys ⊢
    exact is_unary_parens ho hc (ih.is_read_append (hkeys.of_suffix (List.suffix_cons _ _))
      (stops_cons hc (by decide) _ _))
  | @list is entries us o c ho hes hc hentries ih =>
    intro rest hkeys _
    rw [List.append_assoc] at hkeys ⊢
    have hread := is_unary_list ho (ih .bracketClose (by decide) c rest hc
      (hkeys.of_suffix (List.suffix_cons _ _)) [] 0)
    have hlast := hkeys _ (List.suffix_refl _) _ _ hread
    rwa [(denotes_foldl_enter_iff hlast).mp hentries] at hread
  | @array is entries us a o c ha ho hes hc hentries ih =>
    intro rest hkeys _
    rw [List.append_assoc] at hkeys ⊢
    have hread := is_unary_array ha ho (ih .parenClose (by decide) c rest hc
      (hkeys.of_suffix ⟨[a, o], rfl⟩) [] 0)
    have hlast := hkeys _ (List.suffix_refl _) _ _ hread
    rwa [(denotes_foldl_enter_iff hlast).mp hentries] at hread
  | className hclass hm => exact fun rest _ _ ↦ (Run.className hclass hm).answers
  | enumCase hclass hm hcase =>
    intro rest _ hstops
    refine (Run.enumCase hclass hm hcase fun t ht ↦ ?_).answers
    simpa [operandGoesOn, hm, hclass.1, hcase] using hstops t ht
  | caseName hclass hm hcase ha hp =>
    exact fun rest _ _ ↦ (Run.caseName hclass hm hcase ha hp).answers
  | caseValue hclass hm hcase ha hp hv =>
    exact fun rest _ _ ↦ (Run.caseValue hclass hm hcase ha hp hv).answers
  | value hv ih =>
    intro closer hcloser t rest ht hkeys entries index w left hafter
    exact is_array_value hcloser (ih.is_read_append hkeys (stops_behind_entry hcloser ht _ _))
      (isPunct_doubleArrow_behind_entry hcloser ht) hafter
  | keyed _ hkey ha _ ihk ihv => exact ihk.keyed hkey ha ihv
  | none => exact fun closer _ c rest hc _ entries index ↦ is_array_closer hc rest
  | last he ih =>
    intro closer hcloser c rest hc hkeys entries index
    exact ih closer hcloser c rest (.inl hc) hkeys entries index _ _ (is_afterEntry_closer hc rest)
  | more _ hcomma _ ihe ihes => exact ihe.more hcomma ihes

/-- An array with a key and without one, a comma behind its last entry, and a semicolon after it. -/
def sampleTokens : List Token :=
  [⟨.punct .bracketOpen, 1⟩, ⟨.string "k", 1⟩, ⟨.punct .doubleArrow, 1⟩, ⟨.punct .minus, 1⟩,
    ⟨.int 7, 1⟩, ⟨.punct .comma, 1⟩, ⟨.string "a", 2⟩, ⟨.punct .dot, 2⟩, ⟨.name "TRUE", 2⟩,
    ⟨.punct .comma, 2⟩, ⟨.punct .bracketClose, 3⟩, ⟨.punct .semicolon, 3⟩]

def sampleEntries : List (Key × Value) :=
  [(.string "k", .int (-7)), (.int 0, .string ("a" ++ "1"))]

theorem denotes_sampleEntries :
    Denotes [(some (.string "k"), .int (-7)), (none, .string ("a" ++ "1"))] sampleEntries := by
  have hzero : IsLeast (freeIndices ([] ++ [(Key.string "k", Value.int (-7))])) 0 := by
    rw [freeIndices_string]
    exact isLeast_freeIndices_nil
  exact ⟨_, Keyed.nil.given.next hzero, kept_iff.mpr rfl⟩

end FrontendSync.Php.Expression
