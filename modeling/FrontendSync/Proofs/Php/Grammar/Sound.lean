import FrontendSync.Proofs.Php.Grammar.Arrays
import FrontendSync.Proofs.Php.Run

/-!
# Expressions that are read are in the grammar

The tokens that an expression is read from stand for its value.  The proof is an induction on the
runs of the readers: what each of them uses up is a form of the grammar, and the token behind it is
one with which this form does not go on.
-/

namespace FrontendSync.Php.Expression

variable {ctx : Context}

/-! ## Pieces -/

/-- A piece of a list of tokens that stands for something, and the rest with which it does not go
on. -/
def Piece (ctx : Context) (form : Form) (before ts rest : List Token) : Prop :=
  ∃ us, ts = us ++ rest ∧ Derives ctx form (before ++ us) ∧ OperandStops (before ++ us) rest

/-- Nothing goes on behind a closing bracket. -/
theorem piece_of_closer {form : Form} {before : List Token} (us : List Token) {c : Token}
    {p : Punct} (hc : c.isPunct p = true) (h : Derives ctx form (before ++ us ++ [c]))
    (rest : List Token) :
    Piece ctx form before (us ++ c :: rest) rest := by
  refine ⟨us ++ [c], by simp, by simpa using h, ?_⟩
  rw [← List.append_assoc]
  exact operandStops_append_singleton (before ++ us) (Token.name?_of_isPunct hc) rest

/-! ## Arrays -/

/-- The entries of an array that is read, if one is. -/
def entriesOf {n : Nat} : Reading Value n → List (Key × Value)
  | .value (.array entries) _ _ => entries
  | _ => []

theorem exists_of_entriesOf {n : Nat} {r : Reading Value n} (h : entriesOf r ≠ []) :
    ∃ entries rest, r.Is (.array entries) rest ∧ entriesOf r = entries := by
  unfold entriesOf at h ⊢
  split at h
  · exact ⟨_, _, Reading.is_value _, rfl⟩
  · exact absurd rfl h

/-- No array that is an operand of the tokens has the last integer of 64 bits as a key. -/
def NoLastKey (ctx : Context) (ts : List Token) : Prop :=
  ∀ us, us <:+ ts → ∀ entries rest, (unary ctx us).Is (.array entries) rest → HasNoLastKey entries

instance (ctx : Context) (ts : List Token) : Decidable (NoLastKey ctx ts) :=
  decidable_of_iff (∀ us ∈ ts.tails, HasNoLastKey (entriesOf (unary ctx us))) <| by
    refine ⟨fun h us hus entries rest ⟨hlt, hread⟩ ↦ ?_, fun h us hus ↦ ?_⟩
    · have hentries := h us ((List.mem_tails us ts).mpr hus)
      rwa [hread] at hentries
    · cases hread : unary ctx us with
      | error => exact hasNoLastKey_nil
      | value v rest hlt =>
        cases v with
        | array entries => exact h us ((List.mem_tails us ts).mp hus) entries rest ⟨hlt, hread⟩
        | _ => exact hasNoLastKey_nil

theorem NoLastKey.of_suffix {us ts : List Token} (h : NoLastKey ctx ts) (hus : us <:+ ts) :
    NoLastKey ctx us := fun vs hvs ↦ h vs (hvs.trans hus)

/-! ## Expressions -/

theorem exists_of_negate? {v w : Value} (h : negate? v = some w) :
    (∃ n, v = .int n ∧ w = .int (-n)) ∨ ∃ x, v = .float x ∧ w = .float (-x) := by
  cases v with
  | int n => exact .inl ⟨n, rfl, (Option.some.inj h).symm⟩
  | float x => exact .inr ⟨x, rfl, (Option.some.inj h).symm⟩
  | _ => exact absurd h (by simp [negate?])

theorem NamesLiteral.derives {t : Token} {v : Value} (h : NamesLiteral t v) :
    Derives ctx (.primary v) [t] := by
  cases h with
  | null h => exact .null h
  | false h => exact .false h
  | true h => exact .true h

/-- The entries that a reader of arrays finds up to the closing bracket: with them it gets from the
entries before to those of the value. -/
def FindsEntries (closer : Closer) (entries : List (Key × Value)) (index : Int)
    (derives : List WrittenEntry → List Token → Prop) (ts : List Token) (v : Value)
    (rest : List Token) : Prop :=
  ∃ us c is, ts = us ++ c :: rest ∧ c.isPunct closer = true ∧ derives is us ∧
    v = .array (is.foldl enter (entries, index)).1

/-- What a reader finds: its tokens are a form of the grammar, and they are complete. -/
def Reader.Finds (ctx : Context) : Reader → List Token → Value → List Token → Prop
  | .expression, ts, v, rest =>
    ∃ us, ts = us ++ rest ∧ Derives ctx (.expression v) us ∧ Stops us rest
  | .joined v, ts, w, rest => ∀ us, Derives ctx (.expression v) us → OperandStops us ts →
    ∃ ws, ts = ws ++ rest ∧ Derives ctx (.expression w) (us ++ ws) ∧ Stops (us ++ ws) rest
  | .operand, ts, v, rest => Piece ctx (.operand v) [] ts rest
  | .array closer entries index, ts, v, rest =>
    FindsEntries closer entries index (fun is us ↦ Derives ctx (.entries is) us) ts v rest
  | .afterEntry closer entries index, ts, v, rest =>
    FindsEntries closer entries index (fun is us ↦ ∀ e ws, Derives ctx (.entry e) ws →
      Derives ctx (.entries (e :: is)) (ws ++ us)) ts v rest

section Finds

variable {t : Token} {ts rest : List Token} {v w : Value}

theorem finds_sign {p : Punct} (ht : t.isPunct p = true) (hp : p ∉ memberMarks)
    (h : Reader.operand.Finds ctx ts v rest)
    (hw : ∀ us, Derives ctx (.operand v) us → Derives ctx (.operand w) (t :: us)) :
    Reader.operand.Finds ctx (t :: ts) w rest := by
  obtain ⟨us, rfl, hus, hstops⟩ := h
  have hne : us ≠ [] := hus.ne_nil fun _ ↦ Form.noConfusion
  exact ⟨t :: us, rfl, hw us hus, (operandStops_cons_iff ht hp hne).mpr hstops⟩

/-- A token that is no name is an operand by itself. -/
theorem finds_literal (hname : t.name? = none) (h : Derives ctx (.primary v) [t])
    (rest : List Token) : Reader.operand.Finds ctx (t :: rest) v rest :=
  ⟨[t], rfl, .primary h, operandStops_append_singleton [] hname rest⟩

theorem finds_dot {l r : String} {more : List Token} {x : Value} (ht : t.isPunct .dot = true)
    (h : Reader.operand.Finds ctx ts w more) (hl : v.joinText? = some l) (hr : w.joinText? = some r)
    (hjoined : (Reader.joined (.string (l ++ r))).Finds ctx more x rest) :
    (Reader.joined v).Finds ctx (t :: ts) x rest := by
  intro us hv hstops
  obtain ⟨ws, rfl, hw, hwstops⟩ := h
  have hne : ws ≠ [] := hw.ne_nil fun _ ↦ Form.noConfusion
  obtain ⟨xs, rfl, hxs, hxstops⟩ := hjoined _ (hv.join ht hw hl hr)
    ((operandStops_append_cons ht (by decide) hne).mpr hwstops)
  exact ⟨t :: ws ++ xs, by simp, by simpa using hxs, by simpa using hxstops⟩

section Array

variable {closer : Closer} {entries : List (Key × Value)} {index : Int} {a : Token}
  {after more : List Token}

theorem finds_keyed {k : Value} {key : Key} (hk : Reader.expression.Finds ctx ts k (a :: after))
    (ha : a.isPunct .doubleArrow = true) (hkey : k.key? = some key)
    (hv : Reader.expression.Finds ctx after v more)
    (hafter : (Reader.afterEntry closer (Ordered.insert key v entries) (nextIndex index key)).Finds
      ctx more w rest) : (Reader.array closer entries index).Finds ctx ts w rest := by
  obtain ⟨ks, rfl, hk, -⟩ := hk
  obtain ⟨ws, rfl, hv, -⟩ := hv
  obtain ⟨us, c, is, rfl, hc, hus, rfl⟩ := hafter
  exact ⟨ks ++ a :: ws ++ us, c, (some key, v) :: is, by simp, hc,
    hus _ _ (.keyed hk (key?_eq_some_iff.mp hkey) ha hv), rfl⟩

theorem finds_listed (hv : Reader.expression.Finds ctx ts v more)
    (hafter : (Reader.afterEntry closer (Ordered.insert (.int index) v entries)
      (nextIndex index (.int index))).Finds ctx more w rest) :
    (Reader.array closer entries index).Finds ctx ts w rest := by
  obtain ⟨ks, rfl, hv, -⟩ := hv
  obtain ⟨us, c, is, rfl, hc, hus, rfl⟩ := hafter
  exact ⟨ks ++ us, c, (none, v) :: is, by simp, hc, hus _ _ (.value hv), rfl⟩

end Array

end Finds

theorem Run.finds {r : Reader} {ts rest : List Token} {v : Value} (h : Run ctx r ts v rest)
    (hkeys : NoLastKey ctx ts) : r.Finds ctx ts v rest := by
  induction h with
  | expression hv _ ih ih' =>
    obtain ⟨us, rfl, hus, hstops⟩ := ih hkeys
    obtain ⟨ws, rfl, hws⟩ := ih' (hkeys.of_suffix hv.suffix) us (.operand hus) hstops
    exact ⟨us ++ ws, by simp, hws⟩
  | alone hdot =>
    intro us hv hstops
    exact ⟨[], rfl, by simpa using hv, stops_iff.mpr ⟨hdot, by simpa using hstops⟩⟩
  | dot ht hw hl hr _ ih ih' =>
    have htail := hkeys.of_suffix (List.suffix_cons _ _)
    exact finds_dot ht (ih htail) hl hr (ih' (htail.of_suffix hw.suffix))
  | plus ht _ ih =>
    exact finds_sign ht (by decide) (ih (hkeys.of_suffix (List.suffix_cons _ _))) fun _ ↦ .plus ht
  | minus ht _ hw ih =>
    refine finds_sign ht (by decide) (ih (hkeys.of_suffix (List.suffix_cons _ _))) fun _ hv ↦ ?_
    obtain ⟨n, rfl, rfl⟩ | ⟨x, rfl, rfl⟩ := exists_of_negate? hw
    · exact .minusInt ht hv
    · exact .minusFloat ht hv
  | string ht => exact finds_literal (by simp [Token.name?, ht]) (.string ht) _
  | int ht => exact finds_literal (by simp [Token.name?, ht]) (.int ht) _
  | float ht => exact finds_literal (by simp [Token.name?, ht]) (.float ht) _
  | @word t rest v ht hrest =>
    refine ⟨[t], rfl, .primary ht.derives, fun u hu ↦ ?_⟩
    simp [operandGoesOn, hrest u hu]
  | @parens o c ts rest v ho _ hc ih =>
    obtain ⟨us, rfl, hus, -⟩ := ih (hkeys.of_suffix (List.suffix_cons _ _))
    exact piece_of_closer (o :: us) hc (.primary (.parens ho hus hc)) rest
  | @list o ts rest v ho harray ih =>
    have hunary := (Run.list ho harray).answers
    obtain ⟨us, c, is, rfl, hc, hus, rfl⟩ := ih (hkeys.of_suffix (List.suffix_cons _ _))
    have hlast := hkeys _ (List.suffix_refl _) _ _ hunary
    exact piece_of_closer (o :: us) hc
      (.primary (.list ho hus hc ((denotes_foldl_enter_iff hlast).mpr rfl))) rest
  | @array a o ts rest v ha ho harray ih =>
    have hunary := (Run.array ha ho harray).answers
    obtain ⟨us, c, is, rfl, hc, hus, rfl⟩ := ih (hkeys.of_suffix ⟨[a, o], rfl⟩)
    have hlast := hkeys _ (List.suffix_refl _) _ _ hunary
    exact piece_of_closer (a :: o :: us) hc
      (.primary (.array ha ho hus hc ((denotes_foldl_enter_iff hlast).mpr rfl))) rest
  | className hclass hm =>
    exact ⟨[_, _, _], rfl, .primary (.className hclass hm), fun t _ ↦ by
      simp [operandGoesOn, hclass.1, hm]⟩
  | enumCase hclass hm hcase hrest =>
    exact ⟨[_, _, _], rfl, .primary (.enumCase hclass hm hcase), fun t ht ↦ by
      simp [operandGoesOn, hclass.1, hrest t ht]⟩
  | caseName hclass hm hcase ha hp =>
    exact ⟨[_, _, _, _, _], rfl, .primary (.caseName hclass hm hcase ha hp), fun t _ ↦ by
      simp [operandGoesOn, ha, ha.isPunct_doubleColon]⟩
  | caseValue hclass hm hcase ha hp hv =>
    exact ⟨[_, _, _, _, _], rfl, .primary (.caseValue hclass hm hcase ha hp hv), fun t _ ↦ by
      simp [operandGoesOn, ha, ha.isPunct_doubleColon]⟩
  | @closed closer entries index c rest hc => exact ⟨[], c, [], rfl, hc, .none, rfl⟩
  | keyed hk ha hkey hv _ ih ih' ih'' =>
    have hafter := (hkeys.of_suffix hk.suffix).of_suffix (List.suffix_cons _ _)
    exact finds_keyed (ih hkeys) ha hkey (ih' hafter) (ih'' (hafter.of_suffix hv.suffix))
  | listed hv _ _ ih ih' => exact finds_listed (ih hkeys) (ih' (hkeys.of_suffix hv.suffix))
  | @ended closer entries index c rest hc =>
    exact ⟨[], c, [], rfl, hc, fun e ws he ↦ by simpa using he.last, rfl⟩
  | @comma closer entries index t ts rest v ht _ ih =>
    obtain ⟨us, c, is, rfl, hc, hus, rfl⟩ := ih (hkeys.of_suffix (List.suffix_cons _ _))
    exact ⟨t :: us, c, is, rfl, hc, fun e ws he ↦ he.more ht hus, rfl⟩

theorem piece_of_read {ts : List Token} (hkeys : NoLastKey ctx ts) {v : Value} {rest : List Token}
    (h : (read ctx ts).Is v rest) :
    ∃ us, ts = us ++ rest ∧ Derives ctx (.expression v) us ∧ Stops us rest :=
  (run_of_read h).finds hkeys

end FrontendSync.Php.Expression
