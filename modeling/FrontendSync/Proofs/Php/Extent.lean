import FrontendSync.Proofs.Php.Grammar.Sound
import FrontendSync.Proofs.Php.Nesting

/-!
# How far expressions reach

An expression is read from the tokens up to one with which it does not go on.  What stands behind
them does not count, and neither do the lines that they stand on: tokens of the same kinds are read
as the same value before whatever the expression does not go on with.
-/

namespace FrontendSync.Php

open Brackets (Nested)

/-- What holds of all tokens holds of those outside of brackets. -/
theorem Brackets.Nested.of_forall {p q : Token → Prop} {us : List Token} (h : Nested p us)
    (hq : ∀ t ∈ us, q t) : Nested q us := by
  induction h with
  | nil => exact .nil
  | token hopens hcloses _ _ ih =>
    obtain ⟨ht, hts⟩ := List.forall_mem_cons.mp hq
    exact .token hopens hcloses ht (ih hts)
  | group hopens hcloses hinside _ _ ih =>
    obtain ⟨-, hq⟩ := List.forall_mem_cons.mp hq
    obtain ⟨-, hq⟩ := List.forall_mem_append.mp hq
    exact .group hopens hcloses hinside (ih (List.forall_mem_cons.mp hq).2)

namespace Token

/-- The marks that constant expressions are made of. -/
def constantMarks : List Punct :=
  [.parenOpen, .parenClose, .bracketOpen, .bracketClose, .comma, .doubleColon, .doubleArrow,
    .arrow, .nullsafeArrow, .dot, .minus, .plus]

/-- The kinds of tokens that constant expressions are made of. -/
def Kind.isConstant : Kind → Bool
  | .name _ | .string _ | .int _ | .float _ => true
  | .punct p => constantMarks.contains p
  | .var _ | .docComment _ | .symbol _ => false

/-- Tokens of expressions, with balanced brackets. -/
structure AreConstant (us : List Token) : Prop where
  nested : Nested (fun _ ↦ True) us
  kinds : ∀ t ∈ us, t.kind.isConstant = true

namespace AreConstant

variable {us ws : List Token} {t c : Token}

theorem nil : AreConstant [] := ⟨.nil, by simp⟩

theorem append (hus : AreConstant us) (hws : AreConstant ws) : AreConstant (us ++ ws) :=
  ⟨hus.nested.append hws.nested, fun t ht ↦ (List.mem_append.mp ht).elim (hus.kinds t)
    (hws.kinds t)⟩

theorem cons (hopens : t.opens = false) (hcloses : t.closes = false)
    (ht : t.kind.isConstant = true) (h : AreConstant us) : AreConstant (t :: us) :=
  ⟨.token hopens hcloses trivial h.nested, List.forall_mem_cons.mpr ⟨ht, h.kinds⟩⟩

theorem cons_name {text : String} (ht : t.name? = some text) (h : AreConstant us) :
    AreConstant (t :: us) := by
  have hkind : t.kind = .name text := Token.name?_eq_some_iff.mp ht
  exact h.cons (by simp [Token.opens, hkind]) (by simp [Token.closes, hkind])
    (by simp [Kind.isConstant, hkind])

theorem cons_punct {p : Punct} (ht : t.isPunct p = true)
    (hp : p ∈ constantMarks ∧ p.opens = false ∧ p.closes = false) (h : AreConstant us) :
    AreConstant (t :: us) := by
  have hkind : t.kind = .punct p := Token.isPunct_iff.mp ht
  exact h.cons (by simp [Token.opens, hkind, hp]) (by simp [Token.closes, hkind, hp])
    (by simp [Kind.isConstant, hkind, hp])

theorem group {p q : Punct} (ht : t.isPunct p = true) (hc : c.isPunct q = true)
    (hp : p ∈ constantMarks ∧ p.opens = true) (hq : q ∈ constantMarks ∧ q.closes = true)
    (h : AreConstant us) : AreConstant (t :: (us ++ [c])) := by
  have hkind : t.kind = .punct p := Token.isPunct_iff.mp ht
  have hkind' : c.kind = .punct q := Token.isPunct_iff.mp hc
  refine ⟨.group (by simp [Token.opens, hkind, hp]) (by simp [Token.closes, hkind', hq])
    h.nested .nil, List.forall_mem_cons.mpr ⟨by simp [Kind.isConstant, hkind, hp], ?_⟩⟩
  refine List.forall_mem_append.mpr ⟨h.kinds, List.forall_mem_singleton.mpr ?_⟩
  simp [Kind.isConstant, hkind', hq]

theorem isPunct_eq_false (h : AreConstant us) {p : Punct} (hp : p ∉ constantMarks) (ht : t ∈ us) :
    t.isPunct p = false := by
  refine Bool.eq_false_iff.mpr fun hmark ↦ hp ?_
  simpa [Token.isPunct_iff.mp hmark, Kind.isConstant] using h.kinds t ht

/-- No statement ends inside of an expression. -/
theorem passes (h : AreConstant us) : Brackets.Passes us :=
  .of_nested (h.nested.of_forall fun _ ↦ h.isPunct_eq_false (by decide))
    fun _ ↦ h.isPunct_eq_false (by decide)

end AreConstant

/-- The same tokens, perhaps on other lines. -/
def SameKinds (us ws : List Token) : Prop := us.map kind = ws.map kind

namespace SameKinds

variable {us ws vs : List Token} {t : Token}

theorem exists_cons (h : SameKinds vs (t :: us)) :
    ∃ u ws, vs = u :: ws ∧ u.kind = t.kind ∧ SameKinds ws us := by
  obtain ⟨u, ws, rfl, hu, hws⟩ := List.map_eq_cons_iff.mp (h : vs.map kind = t.kind :: us.map kind)
  exact ⟨u, ws, rfl, hu, hws⟩

theorem exists_append (h : SameKinds vs (us ++ ws)) :
    ∃ xs ys, vs = xs ++ ys ∧ SameKinds xs us ∧ SameKinds ys ws := by
  rw [SameKinds, List.map_append] at h
  obtain ⟨xs, ys, rfl, hxs, hys⟩ := List.map_eq_append_iff.mp h
  exact ⟨xs, ys, rfl, hxs, hys⟩

/-- Before marks of one kind the same tokens have heads of one kind. -/
theorem exists_head {c d a : Token} {rest after : List Token} (left : List Token)
    (h : SameKinds vs us) (hd : d.kind = c.kind) (hus : us ++ c :: rest = a :: after) :
    ∃ b more, vs ++ d :: left = b :: more ∧ b.kind = a.kind := by
  cases us with
  | nil =>
    obtain rfl := List.map_eq_nil_iff.mp h
    obtain ⟨rfl, rfl⟩ := List.cons.inj hus
    exact ⟨d, left, rfl, hd⟩
  | cons u us =>
    obtain ⟨rfl, -⟩ := List.cons.inj hus
    obtain ⟨b, vs, rfl, hb, -⟩ := h.exists_cons
    exact ⟨b, vs ++ d :: left, rfl, hb⟩

theorem exists_singleton (h : SameKinds vs [t]) : ∃ u, vs = [u] ∧ u.kind = t.kind := by
  obtain ⟨u, ws, rfl, hu, hws⟩ := h.exists_cons
  exact ⟨u, by rw [List.map_eq_nil_iff.mp hws], hu⟩

end SameKinds

theorem isPunct_congr {t u : Token} (h : u.kind = t.kind) (p : Punct) :
    u.isPunct p = t.isPunct p := by
  rw [isPunct, isPunct, h]

theorem name?_congr {t u : Token} (h : u.kind = t.kind) : u.name? = t.name? := by
  rw [name?, name?, h]

theorem isKeyword_congr {t u : Token} (h : u.kind = t.kind) (word : String) :
    u.isKeyword word = t.isKeyword word := by
  rw [isKeyword, isKeyword, keyword?, keyword?, name?_congr h]

end Token

namespace Expression

open Token (AreConstant SameKinds)

variable {ctx : Context}

theorem isArrow_congr {t u : Token} (h : u.kind = t.kind) : IsArrow u ↔ IsArrow t := by
  rw [IsArrow, IsArrow, Token.isPunct_congr h, Token.isPunct_congr h]

/-- Only the kind of the token behind an expression decides whether it goes on. -/
theorem stops_congr {us rest left : List Token} {t u : Token} (hu : u.kind = t.kind)
    (h : Stops us (t :: rest)) : Stops us (u :: left) := by
  have hoperand : operandGoesOn us.reverse u ↔ operandGoesOn us.reverse t := by
    match us.reverse with
    | [] => exact Iff.rfl
    | [n] => simp only [operandGoesOn, Token.isPunct_congr hu]
    | n :: d :: _ => simp only [operandGoesOn, Token.isPunct_congr hu, isArrow_congr hu]
  rintro v hv
  obtain rfl := Option.some.inj hv
  rw [GoesOn, Token.isPunct_congr hu, hoperand]
  exact h t rfl

/-- An expression that stops before some tokens and a mark stops before the same ones. -/
theorem stops_before {ks us vs rest left : List Token} {c d : Token} {mark : Punct}
    (hvs : SameKinds vs us) (hd : d.isPunct mark = true) (hc : c.isPunct mark = true)
    (h : Stops ks (us ++ c :: rest)) : Stops ks (vs ++ d :: left) := by
  obtain ⟨a, after, hus⟩ : ∃ a after, us ++ c :: rest = a :: after :=
    List.exists_cons_of_ne_nil (by simp)
  obtain ⟨b, more, hmore, hb⟩ := hvs.exists_head left
    ((Token.isPunct_iff.mp hd).trans (Token.isPunct_iff.mp hc).symm) hus
  rw [hmore]
  exact stops_congr hb (hus ▸ h)

/-- A reader uses up some tokens of an expression in front of the rest, and it uses up the same
tokens in front of anything else that is a stop for them. -/
def Takes (reads : List Token → List Token → Prop) (stops : List Token → List Token → Prop)
    (before ts rest : List Token) : Prop :=
  ∃ us, ts = us ++ rest ∧ AreConstant us ∧ stops (before ++ us) rest ∧
    ∀ vs left, SameKinds vs us → stops (before ++ us) left → reads (vs ++ left) left

/-- A reader uses up the tokens up to a mark. -/
def TakesUpTo (mark : Punct) (reads : List Token → List Token → Prop) (ts rest : List Token) :
    Prop :=
  ∃ us c, ts = us ++ c :: rest ∧ c.isPunct mark = true ∧ AreConstant us ∧
    ∀ vs d left, SameKinds vs us → d.isPunct mark = true → reads (vs ++ d :: left) left

/-! ## Operands -/

section Operand

variable {t : Token} {ts rest : List Token} {v w : Value}

/-- A token that is an operand by itself and is no name. -/
theorem takes_literal (hname : t.name? = none) (ht : t.kind.isConstant = true)
    (hmark : t.opens = false ∧ t.closes = false)
    (h : ∀ u left, u.kind = t.kind → (unary ctx (u :: left)).Is v left) (rest : List Token) :
    Takes (fun ts rest ↦ (unary ctx ts).Is v rest) OperandStops [] (t :: rest) rest := by
  refine ⟨[t], rfl, .cons hmark.1 hmark.2 ht .nil, operandStops_append_singleton [] hname rest,
    fun vs left hvs _ ↦ ?_⟩
  obtain ⟨u, rfl, hu⟩ := hvs.exists_singleton
  exact h u left hu

theorem NamesLiteral.congr {u : Token} (h : NamesLiteral t v) (hu : u.kind = t.kind) :
    NamesLiteral u v := by
  cases h with
  | null h => exact .null ((Token.isKeyword_congr hu _).trans h)
  | false h => exact .false ((Token.isKeyword_congr hu _).trans h)
  | true h => exact .true ((Token.isKeyword_congr hu _).trans h)

/-- A word that is no class name is an operand. -/
theorem takes_word (ht : NamesLiteral t v)
    (hrest : ∀ u ∈ rest.head?, u.isPunct .doubleColon = false) :
    Takes (fun ts rest ↦ (unary ctx ts).Is v rest) OperandStops [] (t :: rest) rest := by
  obtain ⟨text, hname, -⟩ := ht.exists_word
  have hstops {rest : List Token} : OperandStops [t] rest ↔
      ∀ u ∈ rest.head?, u.isPunct .doubleColon = false := by
    simp [OperandStops, operandGoesOn, hname]
  refine ⟨[t], rfl, .cons_name hname .nil, hstops.mpr hrest, fun vs left hvs hleft ↦ ?_⟩
  obtain ⟨u, rfl, hu⟩ := hvs.exists_singleton
  exact (Run.word (ht.congr hu) (hstops.mp hleft)).answers

/-- A sign belongs to the operand behind it. -/
theorem takes_sign {p : Punct} (ht : t.isPunct p = true)
    (hmark : p ∈ Token.constantMarks ∧ p.opens = false ∧ p.closes = false)
    (hp : p ∉ memberMarks) (h : Run ctx .operand ts v rest)
    (htakes : Takes (fun ts rest ↦ (unary ctx ts).Is v rest) OperandStops [] ts rest)
    (hreads : ∀ u ws left, u.isPunct p = true → (unary ctx ws).Is v left →
      (unary ctx (u :: ws)).Is w left) :
    Takes (fun ts rest ↦ (unary ctx ts).Is w rest) OperandStops [] (t :: ts) rest := by
  obtain ⟨us, rfl, hus, hstops, hunary⟩ := htakes
  have hsigned {rest : List Token} := @operandStops_cons_iff us t p ht hp h.ne_nil rest
  refine ⟨t :: us, rfl, hus.cons_punct ht hmark, hsigned.mpr hstops, fun vs left hvs hleft ↦ ?_⟩
  obtain ⟨u, vs, rfl, hu, hvs⟩ := hvs.exists_cons
  exact hreads u _ left ((Token.isPunct_congr hu _).trans ht)
    (hunary vs left hvs (hsigned.mp hleft))

/-- A dot joins the operand behind it to an expression. -/
theorem takes_dot {l r : String} {x : Value} {more : List Token} (ht : t.isPunct .dot = true)
    (h : Run ctx .operand ts w more)
    (htakes : Takes (fun ts rest ↦ (unary ctx ts).Is w rest) OperandStops [] ts more)
    (hl : v.joinText? = some l) (hr : w.joinText? = some r)
    (hjoined : ∀ us, OperandStops us more →
      Takes (fun ts rest ↦ OperandStops us ts ∧ (joined ctx (.string (l ++ r)) ts).Is x rest) Stops
        us more rest) (us : List Token) :
    Takes (fun ts rest ↦ OperandStops us ts ∧ (joined ctx v ts).Is x rest) Stops us (t :: ts)
      rest := by
  obtain ⟨ws, rfl, hws, hwstops, hunary⟩ := htakes
  have happend {rest : List Token} :=
    @operandStops_append_cons us ws t .dot ht (by decide) h.ne_nil rest
  obtain ⟨xs, rfl, hxs, hxstops, hjoined⟩ := hjoined _ (happend.mpr hwstops)
  refine ⟨t :: ws ++ xs, by simp, (hws.cons_punct ht (by decide)).append hxs, ?_, ?_⟩
  · simpa using hxstops
  · intro vs left hvs hleft
    obtain ⟨ys, zs, rfl, hys, hzs⟩ := hvs.exists_append
    obtain ⟨e, ys, rfl, he, hys⟩ := hys.exists_cons
    obtain ⟨hoperand, hread⟩ := hjoined zs left hzs (by simpa using hleft)
    have he : e.isPunct .dot = true := (Token.isPunct_congr he _).trans ht
    rw [List.append_assoc, List.cons_append]
    exact ⟨operandStops_cons he (by decide) _ _,
      is_joined_dot he (hunary ys _ hys (happend.mp hoperand)) hl hr hread⟩

end Operand

/-! ## Members of classes -/

section Member

variable {className caseName : String} {n d m a p : Token} {rest : List Token} {v : Value}

theorem NamesClass.congr {n' d' : Token} (h : NamesClass ctx className n d) (hn : n'.kind = n.kind)
    (hd : d'.kind = d.kind) : NamesClass ctx className n' d' := by
  rwa [NamesClass, Token.isPunct_congr hd, Token.name?_congr hn]

theorem NamesClass.areConstant {us : List Token} (h : NamesClass ctx className n d)
    (hus : AreConstant us) : AreConstant (n :: d :: us) := by
  obtain ⟨hd, text, hn, -⟩ := h
  exact (hus.cons_punct hd (by decide)).cons_name hn

theorem IsArrow.areConstant {us : List Token} (h : IsArrow a) (hus : AreConstant us) :
    AreConstant (a :: us) :=
  h.elim (fun ha ↦ hus.cons_punct ha (by decide)) fun ha ↦ hus.cons_punct ha (by decide)

/-- A member of a class without a property. -/
theorem takes_member {text : String} (hclass : NamesClass ctx className n d)
    (hm : m.name? = some text) (hstops : OperandStops [n, d, m] rest)
    (h : ∀ n' d' m' left, NamesClass ctx className n' d' → m'.kind = m.kind →
      OperandStops [n, d, m] left → (unary ctx (n' :: d' :: m' :: left)).Is v left) :
    Takes (fun ts rest ↦ (unary ctx ts).Is v rest) OperandStops [] (n :: d :: m :: rest) rest := by
  refine ⟨[n, d, m], rfl, hclass.areConstant (.cons_name hm .nil), hstops,
    fun vs left hvs hleft ↦ ?_⟩
  obtain ⟨n', vs, rfl, hn', hvs⟩ := hvs.exists_cons
  obtain ⟨d', vs, rfl, hd', hvs⟩ := hvs.exists_cons
  obtain ⟨m', rfl, hm'⟩ := hvs.exists_singleton
  exact h n' d' m' left (hclass.congr hn' hd') hm' hleft

/-- A property of a case.  Nothing that follows it belongs to it. -/
theorem takes_property {text : String} (hclass : NamesClass ctx className n d)
    (hm : m.name? = some caseName) (hcase : m.isKeyword "class" = false) (ha : IsArrow a)
    (hp : p.name? = some text) (rest : List Token)
    (h : ∀ {n d m a p left}, NamesClass ctx className n d → m.name? = some caseName →
      m.isKeyword "class" = false → IsArrow a → p.name? = some text →
      Run ctx .operand (n :: d :: m :: a :: p :: left) v left) :
    Takes (fun ts rest ↦ (unary ctx ts).Is v rest) OperandStops [] (n :: d :: m :: a :: p :: rest)
      rest := by
  have hconstant : AreConstant [n, d, m, a, p] :=
    hclass.areConstant (.cons_name hm (ha.areConstant (.cons_name hp .nil)))
  refine ⟨[n, d, m, a, p], rfl, hconstant, fun t _ ↦ ?_, fun vs left hvs _ ↦ ?_⟩
  · simp [operandGoesOn, ha, ha.isPunct_doubleColon]
  · obtain ⟨n', vs, rfl, hn', hvs⟩ := hvs.exists_cons
    obtain ⟨d', vs, rfl, hd', hvs⟩ := hvs.exists_cons
    obtain ⟨m', vs, rfl, hm', hvs⟩ := hvs.exists_cons
    obtain ⟨a', vs, rfl, ha', hvs⟩ := hvs.exists_cons
    obtain ⟨p', rfl, hp'⟩ := hvs.exists_singleton
    exact (h (hclass.congr hn' hd') ((Token.name?_congr hm').trans hm)
      ((Token.isKeyword_congr hm' _).trans hcase) ((isArrow_congr ha').mpr ha)
      ((Token.name?_congr hp').trans hp)).answers

end Member

/-! ## Brackets -/

/-- A group of brackets is an operand. -/
theorem takes_group {opener mark : Punct} {t : Token} {ts rest : List Token} {v : Value}
    {reads : List Token → List Token → Prop} (front : List Token) (hfront : AreConstant front)
    (ht : t.isPunct opener = true)
    (hopener : opener ∈ Token.constantMarks ∧ opener.opens = true)
    (hmark : mark ∈ Token.constantMarks ∧ mark.closes = true) (h : TakesUpTo mark reads ts rest)
    (hreads : ∀ vs u ws left, SameKinds vs front → u.isPunct opener = true → reads ws left →
      (unary ctx (vs ++ u :: ws)).Is v left) :
    Takes (fun ts rest ↦ (unary ctx ts).Is v rest) OperandStops [] (front ++ t :: ts) rest := by
  obtain ⟨us, c, rfl, hc, hus, hinside⟩ := h
  refine ⟨front ++ t :: (us ++ [c]), by simp,
    hfront.append (.group ht hc hopener hmark hus), ?_, ?_⟩
  · have hstops := operandStops_append_singleton (front ++ t :: us) (Token.name?_of_isPunct hc) rest
    simpa using hstops
  · intro vs left hvs _
    obtain ⟨xs, ys, rfl, hxs, hys⟩ := hvs.exists_append
    obtain ⟨u, ys, rfl, hu, hys⟩ := hys.exists_cons
    obtain ⟨ws, zs, rfl, hws, hzs⟩ := hys.exists_append
    obtain ⟨e, rfl, he⟩ := hzs.exists_singleton
    rw [List.append_assoc, List.cons_append, List.append_assoc, List.singleton_append]
    exact hreads xs u _ left hxs ((Token.isPunct_congr hu _).trans ht)
      (hinside ws e left hws ((Token.isPunct_congr he _).trans hc))

section Entry

variable {closer : Punct} (hcloser : closer ∈ closers) {entries : List (Key × Value)} {index : Int}
  {ts after more rest : List Token} {a : Token} {k v w : Value}

include hcloser

/-- The rest of an array before an entry with a key. -/
theorem takes_keyed (hkey : Takes (fun ts rest ↦ (read ctx ts).Is k rest) Stops [] ts (a :: after))
    (harrow : a.isPunct .doubleArrow = true) {key : Key} (hkeyOf : k.key? = some key)
    (hvalue : Takes (fun ts rest ↦ (read ctx ts).Is w rest) Stops [] after more)
    (h : TakesUpTo closer (fun ts rest ↦ (afterEntry ctx closer (Ordered.insert key w entries)
      (nextIndex index key) ts).Is v rest) more rest) :
    TakesUpTo closer (fun ts rest ↦ (array ctx closer entries index ts).Is v rest) ts rest := by
  obtain ⟨ks, rfl, hkconst, -, hkey⟩ := hkey
  obtain ⟨ws, rfl, hwconst, hwstops, hvalue⟩ := hvalue
  obtain ⟨us, c, rfl, hc, huconst, hafter⟩ := h
  refine ⟨ks ++ a :: (ws ++ us), c, by simp, hc,
    hkconst.append ((hwconst.append huconst).cons_punct harrow (by decide)), ?_⟩
  intro vs d left hvs hd
  obtain ⟨ks', vs, rfl, hks', hvs⟩ := hvs.exists_append
  obtain ⟨a', vs, rfl, ha', hvs⟩ := hvs.exists_cons
  obtain ⟨ws', us', rfl, hws', hus'⟩ := hvs.exists_append
  have harrow' : a'.isPunct .doubleArrow = true := (Token.isPunct_congr ha' _).trans harrow
  rw [List.append_assoc, List.cons_append, List.append_assoc]
  exact is_array_keyed hcloser (hkey ks' _ hks' (stops_cons harrow' (by decide) _ _)) harrow'
    hkeyOf (hvalue ws' _ hws' (stops_before hus' hd hc hwstops)) (hafter us' d left hus' hd)

/-- The rest of an array before an entry without a key. -/
theorem takes_listed
    (hvalue : Takes (fun ts rest ↦ (read ctx ts).Is w rest) Stops [] ts (a :: after))
    (harrow : a.isPunct .doubleArrow = false)
    (h : TakesUpTo closer (fun ts rest ↦ (afterEntry ctx closer
      (Ordered.insert (.int index) w entries) (nextIndex index (.int index)) ts).Is v rest)
      (a :: after) rest) :
    TakesUpTo closer (fun ts rest ↦ (array ctx closer entries index ts).Is v rest) ts rest := by
  obtain ⟨ws, rfl, hwconst, hwstops, hvalue⟩ := hvalue
  obtain ⟨us, c, hus, hc, huconst, hafter⟩ := h
  refine ⟨ws ++ us, c, by simp [hus], hc, hwconst.append huconst, ?_⟩
  intro vs d left hvs hd
  obtain ⟨ws', us', rfl, hws', hus'⟩ := hvs.exists_append
  -- What follows the value begins with a token of the same kind, which is no arrow.
  obtain ⟨b, more, hmore, hb⟩ := hus'.exists_head left
    ((Token.isPunct_iff.mp hd).trans (Token.isPunct_iff.mp hc).symm) hus.symm
  have hstops : Stops ([] ++ ws) (b :: more) := stops_congr hb hwstops
  have hrest := hafter us' d left hus' hd
  rw [hmore] at hrest
  rw [List.append_assoc, hmore]
  exact is_array_value hcloser (hvalue ws' _ hws' hstops)
    ((Token.isPunct_congr hb _).trans harrow) hrest

end Entry

/-! ## Expressions -/

/-- A reader uses up tokens that it also uses up in front of whatever stops it. -/
def Reader.Reaches (ctx : Context) : Reader → List Token → Value → List Token → Prop
  | .expression, ts, v, rest => Takes (fun ts rest ↦ (read ctx ts).Is v rest) Stops [] ts rest
  | .joined v, ts, w, rest => ∀ us, OperandStops us ts →
    Takes (fun ts rest ↦ OperandStops us ts ∧ (Expression.joined ctx v ts).Is w rest) Stops us ts
      rest
  | .operand, ts, v, rest =>
    Takes (fun ts rest ↦ (unary ctx ts).Is v rest) OperandStops [] ts rest
  | .array closer entries index, ts, v, rest => TakesUpTo closer
    (fun ts rest ↦ (Expression.array ctx closer entries index ts).Is v rest) ts rest
  | .afterEntry closer entries index, ts, v, rest => TakesUpTo closer
    (fun ts rest ↦ (Expression.afterEntry ctx closer entries index ts).Is v rest) ts rest

theorem Run.reaches {r : Reader} {ts rest : List Token} {v : Value} (h : Run ctx r ts v rest) :
    r.Reaches ctx ts v rest := by
  induction h with
  | expression _ _ ih ih' =>
    obtain ⟨us, rfl, hus, hstops, hunary⟩ := ih
    obtain ⟨ws, rfl, hws, hwstops, hjoined⟩ := ih' _ hstops
    refine ⟨us ++ ws, by simp, hus.append hws, hwstops, fun vs left hvs hleft ↦ ?_⟩
    obtain ⟨xs, ys, rfl, hxs, hys⟩ := hvs.exists_append
    obtain ⟨hoperand, hread⟩ := hjoined ys left hys hleft
    rw [List.append_assoc]
    exact is_read_of_is_unary (hunary xs _ hxs hoperand) hread
  | @alone rest v hdot =>
    intro us hus
    have hstops : Stops (us ++ []) rest := by
      rw [List.append_nil]
      exact stops_iff.mpr ⟨hdot, hus⟩
    refine ⟨[], rfl, .nil, hstops, fun vs left hvs hleft ↦ ?_⟩
    obtain rfl := List.map_eq_nil_iff.mp hvs
    rw [List.append_nil] at hleft
    exact ⟨(stops_iff.mp hleft).2, is_joined_of_head? _ (stops_iff.mp hleft).1⟩
  | dot ht hw hl hr _ ih ih' => exact fun us _ ↦ takes_dot ht hw ih hl hr ih' us
  | plus ht hv ih =>
    exact takes_sign ht (by decide) (by decide) hv ih fun _ _ _ ↦ is_unary_plus
  | minus ht hv hw ih =>
    exact takes_sign ht (by decide) (by decide) hv ih fun _ _ _ hu h ↦ is_unary_minus hu h hw
  | string ht =>
    exact takes_literal (by simp [Token.name?, ht]) (by rw [ht]; rfl)
      (by simp [Token.opens, Token.closes, ht]) (fun _ _ hu ↦ is_unary_string (hu.trans ht) _) _
  | int ht =>
    exact takes_literal (by simp [Token.name?, ht]) (by rw [ht]; rfl)
      (by simp [Token.opens, Token.closes, ht]) (fun _ _ hu ↦ is_unary_int (hu.trans ht) _) _
  | float ht =>
    exact takes_literal (by simp [Token.name?, ht]) (by rw [ht]; rfl)
      (by simp [Token.opens, Token.closes, ht]) (fun _ _ hu ↦ is_unary_float (hu.trans ht) _) _
  | word ht hrest => exact takes_word ht hrest
  | @parens o c ts rest v ho _ hc ih =>
    obtain ⟨us, rfl, hus, -, hread⟩ := ih
    have hinside : TakesUpTo .parenClose
        (fun ts rest ↦ ∃ c, c.isPunct .parenClose = true ∧ (read ctx ts).Is v (c :: rest))
        (us ++ c :: rest) rest := by
      refine ⟨us, c, rfl, hc, hus, fun vs d left hvs hd ↦ ⟨d, hd, ?_⟩⟩
      exact hread vs (d :: left) hvs (stops_cons hd (by decide) _ _)
    refine takes_group [] .nil ho (by decide) (by decide) hinside ?_
    rintro vs u ws left hvs hu ⟨d, hd, hreads⟩
    obtain rfl := List.map_eq_nil_iff.mp hvs
    exact is_unary_parens hu hd hreads
  | @list o ts rest v ho _ ih =>
    have hinside : TakesUpTo .bracketClose
        (fun ts rest ↦ (Expression.array ctx .bracketClose [] 0 ts).Is v rest) ts rest := ih
    refine takes_group [] .nil ho (by decide) (by decide) hinside
      fun vs u ws left hvs hu hreads ↦ ?_
    obtain rfl := List.map_eq_nil_iff.mp hvs
    exact is_unary_list hu hreads
  | @array a o ts rest v ha ho _ ih =>
    obtain ⟨text, hname, -⟩ := Token.exists_of_isKeyword ha
    have hinside : TakesUpTo .parenClose
        (fun ts rest ↦ (Expression.array ctx .parenClose [] 0 ts).Is v rest) ts rest := ih
    refine takes_group [a] (.cons_name hname .nil) ho (by decide) (by decide) hinside
      fun vs u ws left hvs hu hreads ↦ ?_
    obtain ⟨b, rfl, hb⟩ := hvs.exists_singleton
    exact is_unary_array ((Token.isKeyword_congr hb _).trans ha) hu hreads
  | className hclass hm =>
    obtain ⟨text, hname, -⟩ := Token.exists_of_isKeyword hm
    refine takes_member hclass hname (fun t _ ↦ by simp [operandGoesOn, hclass.1, hm]) ?_
    exact fun _ _ _ _ hclass hm' _ ↦
      (Run.className hclass ((Token.isKeyword_congr hm' _).trans hm)).answers
  | @enumCase _ _ n d m _ hclass hm hcase hrest =>
    have hstops {rest : List Token} : OperandStops [n, d, m] rest ↔
        ∀ a ∈ rest.head?, ¬ IsArrow a := by
      simp [OperandStops, operandGoesOn, hm, hclass.1, hcase]
    refine takes_member hclass hm (hstops.mpr hrest) fun _ _ _ _ hclass hm' hleft ↦ ?_
    exact (Run.enumCase hclass ((Token.name?_congr hm').trans hm)
      ((Token.isKeyword_congr hm' _).trans hcase) (hstops.mp hleft)).answers
  | caseName hclass hm hcase ha hp =>
    exact takes_property hclass hm hcase ha hp _ fun h hm hcase ha hp ↦ .caseName h hm hcase ha hp
  | caseValue hclass hm hcase ha hp hv =>
    exact takes_property hclass hm hcase ha hp _
      fun h hm hcase ha hp ↦ .caseValue h hm hcase ha hp hv
  | @closed _ _ _ c _ hc =>
    refine ⟨[], c, rfl, hc, .nil, fun vs d left hvs hd ↦ ?_⟩
    obtain rfl := List.map_eq_nil_iff.mp hvs
    exact is_array_closer hd left
  | keyed _ ha hkey _ _ ih ih' ih'' => exact takes_keyed (Subtype.property _) ih ha hkey ih' ih''
  | listed _ ha _ ih ih' => exact takes_listed (Subtype.property _) ih ha ih'
  | @ended _ _ _ c _ hc =>
    refine ⟨[], c, rfl, hc, .nil, fun vs d left hvs hd ↦ ?_⟩
    obtain rfl := List.map_eq_nil_iff.mp hvs
    exact is_afterEntry_closer hd left
  | @comma _ _ _ t _ _ _ ht _ ih =>
    obtain ⟨us, c, rfl, hc, hus, hinside⟩ := ih
    refine ⟨t :: us, c, rfl, hc, hus.cons_punct ht (by decide), fun vs d left hvs hd ↦ ?_⟩
    obtain ⟨e, vs, rfl, he, hvs⟩ := hvs.exists_cons
    exact is_afterEntry_comma (Subtype.property _) ((Token.isPunct_congr he _).trans ht)
      (hinside vs d left hvs hd)

theorem takes_read {ts : List Token} {v : Value} {rest : List Token}
    (h : (read ctx ts).Is v rest) :
    Takes (fun ts rest ↦ (read ctx ts).Is v rest) Stops [] ts rest :=
  (run_of_read h).reaches

/-! ## Whole expressions -/

/-- Tokens that are an expression of a value as a whole: nothing is left of them.  They stand for
the value in the grammar, unless an array uses up all keys. -/
structure IsWhole (ctx : Context) (v : Value) (us : List Token) : Prop where
  read : (Expression.read ctx us).Is v []
  derives : NoLastKey ctx us → Derives ctx (.expression v) us

theorem isWhole_of_is_read {us : List Token} {v : Value} (h : (read ctx us).Is v []) :
    IsWhole ctx v us := by
  refine ⟨h, fun hkeys ↦ ?_⟩
  obtain ⟨ws, rfl, hws, -⟩ := piece_of_read hkeys h
  rwa [List.append_nil]

namespace IsWhole

variable {v w : Value} {us vs rest : List Token}

theorem unique (hv : IsWhole ctx v us) (hw : IsWhole ctx w us) : v = w := hv.read.unique hw.read

theorem areConstant (h : IsWhole ctx v us) : AreConstant us := by
  obtain ⟨ws, rfl, hws, -⟩ := takes_read h.read
  rwa [List.append_nil]

/-- Expressions of one value have the same entries. -/
theorem entriesOf_eq (hus : IsWhole ctx v us) (hvs : IsWhole ctx v vs) :
    entriesOf (Expression.read ctx us) = entriesOf (Expression.read ctx vs) := by
  obtain ⟨_, hread⟩ := hus.read
  obtain ⟨_, hread'⟩ := hvs.read
  rw [hread, hread']
  cases v <;> rfl

/-- An expression is read before whatever it does not go on with. -/
theorem is_read_append (h : IsWhole ctx v us) (hstops : Stops us rest) :
    (Expression.read ctx (us ++ rest)).Is v rest := by
  obtain ⟨ws, hws, -, -, hreads⟩ := takes_read h.read
  obtain rfl : us = ws := by rwa [List.append_nil] at hws
  exact hreads us rest rfl hstops

/-- The lines of its tokens change nothing of an expression. -/
theorem of_sameKinds (h : IsWhole ctx v us) (hvs : SameKinds vs us) : IsWhole ctx v vs := by
  obtain ⟨ws, hws, -, -, hreads⟩ := takes_read h.read
  obtain rfl : us = ws := by rwa [List.append_nil] at hws
  have hread := hreads vs [] hvs (by simp [Stops])
  rw [List.append_nil] at hread
  exact isWhole_of_is_read hread

end IsWhole

/-- A value that uses up all tokens. -/
def isComplete {n : Nat} : Reading Value n → Bool
  | .value _ rest _ => rest.isEmpty
  | .error _ _ => false

theorem exists_isWhole_iff {us : List Token} :
    (∃ v, IsWhole ctx v us) ↔ isComplete (read ctx us) = true := by
  constructor
  · rintro ⟨v, ⟨hlt, hread⟩, -⟩
    rw [hread]
    rfl
  · intro h
    cases hread : read ctx us with
    | error e rest => simp [hread, isComplete] at h
    | value v rest hlt =>
      rw [hread] at h
      obtain rfl : rest = [] := List.isEmpty_iff.mp h
      exact ⟨v, isWhole_of_is_read ⟨hlt, hread⟩⟩

instance (us : List Token) : Decidable (∃ v, IsWhole ctx v us) :=
  decidable_of_iff _ exists_isWhole_iff.symm

/-- What is read is an expression, and the rest is something that it does not go on with. -/
theorem exists_isWhole_of_is_read {ts rest : List Token} {v : Value}
    (h : (read ctx ts).Is v rest) : ∃ us, ts = us ++ rest ∧ IsWhole ctx v us ∧ Stops us rest := by
  obtain ⟨us, hus, -, hstops, hreads⟩ := takes_read h
  have hread := hreads us [] rfl (by simp [Stops])
  rw [List.append_nil] at hread
  exact ⟨us, hus, isWhole_of_is_read hread, hstops⟩

end Expression

end FrontendSync.Php
