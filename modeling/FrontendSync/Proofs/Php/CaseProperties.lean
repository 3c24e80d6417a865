import FrontendSync.Proofs.Php.Extent
import FrontendSync.Proofs.Php.Grammar.Complete
import FrontendSync.Proofs.Registry

/-!
# Properties of cases

An expression may ask a case for its name or for its value.  Each arrow in an expression that has a
value stands in such a reference.  A value is looked up in the registry, so there is one only for a
case that some enum of the registry declares; the name is what the source writes, and nothing is
looked up for it.
-/

namespace FrontendSync

namespace Php

/-! ## References -/

/-- The context knows a property of a constant. -/
def Context.HasProperty (ctx : Context) (className caseName property : String) : Prop :=
  property = "name" ∨ property = "value" ∧ ∃ v, ctx.caseValue className caseName = some v

namespace Expression

variable {ctx : Context} {className caseName prop : String} {ref ts us ws rest : List Token}

/-- Tokens that ask a constant of a class for a property. -/
inductive IsReference (ctx : Context) (className caseName prop : String) : List Token → Prop
  | mk {n d m a p : Token} : NamesClass ctx className n d → m.name? = some caseName →
      m.isKeyword "class" = false → IsArrow a → p.name? = some prop →
      IsReference ctx className caseName prop [n, d, m, a, p]

theorem NamesClass.unique {c c' : String} {n d : Token} (h : NamesClass ctx c n d)
    (h' : NamesClass ctx c' n d) : c = c' := by
  obtain ⟨-, text, hn, hc⟩ := h
  obtain ⟨-, text', hn', hc'⟩ := h'
  obtain rfl := Option.some.inj (hn.symm.trans hn')
  exact Option.some.inj (hc.symm.trans hc')

theorem IsArrow.name?_eq_none {a : Token} (h : IsArrow a) : a.name? = none :=
  h.elim Token.name?_of_isPunct Token.name?_of_isPunct

theorem not_isArrow_of_name? {t : Token} {text : String} (h : t.name? = some text) :
    ¬ IsArrow t := fun harrow ↦ by simp [harrow.name?_eq_none] at h

theorem not_isArrow_of_isPunct {t : Token} {p : Punct} (h : t.isPunct p = true)
    (hp : p ≠ .arrow ∧ p ≠ .nullsafeArrow) : ¬ IsArrow t := by
  rintro (harrow | harrow)
  · exact Bool.noConfusion ((Token.isPunct_eq_false h hp.1).symm.trans harrow)
  · exact Bool.noConfusion ((Token.isPunct_eq_false h hp.2).symm.trans harrow)

theorem ne_arrow_of_mem {p : Punct} (h : p ∈ closers) : p ≠ .arrow ∧ p ≠ .nullsafeArrow := by
  constructor
  · rintro rfl
    exact absurd h (by decide)
  · rintro rfl
    exact absurd h (by decide)

namespace IsReference

theorem length_eq (h : IsReference ctx className caseName prop ref) : ref.length = 5 := by
  cases h
  rfl

theorem unique {c n q : String} (h : IsReference ctx className caseName prop ref)
    (h' : IsReference ctx c n q ref) : className = c ∧ caseName = n ∧ prop = q := by
  obtain ⟨hclass, hm, -, -, hp⟩ := h
  obtain ⟨hclass', hm', -, -, hp'⟩ := h'
  exact ⟨hclass.unique hclass', Option.some.inj (hm.symm.trans hm'),
    Option.some.inj (hp.symm.trans hp')⟩

theorem is_unary_name (h : IsReference ctx className caseName "name" ref) (rest : List Token) :
    (unary ctx (ref ++ rest)).Is (.string caseName) rest := by
  obtain ⟨hclass, hm, hcase, ha, hp⟩ := h
  exact (Run.caseName hclass hm hcase ha hp).answers

theorem is_unary_value (h : IsReference ctx className caseName "value" ref) {v : Value}
    (hv : ctx.caseValue className caseName = some v) (rest : List Token) :
    (unary ctx (ref ++ rest)).Is v rest := by
  obtain ⟨hclass, hm, hcase, ha, hp⟩ := h
  exact (Run.caseValue hclass hm hcase ha hp hv).answers

theorem answer_unary_value (h : IsReference ctx className caseName "value" ref)
    (hv : ctx.caseValue className caseName = none) (rest : List Token) :
    (unary ctx (ref ++ rest)).answer = .error (.unresolvedCase className caseName) := by
  obtain ⟨⟨hd, text, hn, hclass⟩, hm, hcase, ha, hp⟩ := h
  have hsign := ne_sign_of_name? hn
  have hlower : caseName.toLower ≠ "class" := by simpa [Token.isKeyword_eq hm] using hcase
  rw [IsArrow, ← Bool.or_eq_true] at ha
  rw [List.cons_append, List.cons_append,
    unary_eq_primary (Bool.eq_false_iff.mpr fun hplus ↦ (hsign _ hplus).1 rfl)
      (Bool.eq_false_iff.mpr fun hminus ↦ (hsign _ hminus).2 rfl), primary.eq_def]
  simp [Token.name?_eq_some_iff.mp hn, hd, hclass, member, hm, hlower, enumCase, ha, property, hp,
    hv, Reading.answer, Reading.widen]

end IsReference

/-! ## Arrows -/

/-- Each arrow among the tokens stands in a reference to a property that is known. -/
def ArrowsResolve (ctx : Context) (us : List Token) : Prop :=
  ∀ pre a post, us = pre ++ a :: post → IsArrow a →
    ∃ className caseName prop front ref back, IsReference ctx className caseName prop ref ∧
      ctx.HasProperty className caseName prop ∧ us = front ++ (ref ++ back) ∧
      pre.length = front.length + 3

namespace ArrowsResolve

theorem of_forall (h : ∀ t ∈ us, ¬ IsArrow t) : ArrowsResolve ctx us := by
  rintro pre a post rfl ha
  exact absurd ha (h a (by simp))

theorem append (hus : ArrowsResolve ctx us) (hws : ArrowsResolve ctx ws) :
    ArrowsResolve ctx (us ++ ws) := by
  intro pre a post hsplit ha
  -- The arrow is among the tokens behind, or among those in front, whole reference and all.
  rcases List.append_eq_append_iff.mp hsplit with ⟨xs, rfl, hpost⟩ | ⟨xs, hpre, hpost⟩
  · obtain ⟨c, n, q, front, ref, back, href, hprop, hfront, hlength⟩ := hws xs a post hpost ha
    exact ⟨c, n, q, us ++ front, ref, back, href, hprop, by rw [hfront, List.append_assoc],
      by simp [hlength, Nat.add_assoc]⟩
  · cases xs with
    | nil =>
      obtain ⟨c, n, q, front, ref, back, href, hprop, hfront, hlength⟩ :=
        hws [] a post hpost.symm ha
      simp at hlength
    | cons x xs =>
      obtain ⟨rfl, rfl⟩ := List.cons.inj hpost
      obtain ⟨c, n, q, front, ref, back, href, hprop, hfront, hlength⟩ := hus pre a xs hpre ha
      exact ⟨c, n, q, front, ref, back ++ ws, href, hprop, by rw [hfront]; simp, hlength⟩

theorem of_isReference (h : IsReference ctx className caseName prop ref)
    (hprop : ctx.HasProperty className caseName prop) : ArrowsResolve ctx ref := by
  intro pre a post hsplit ha
  refine ⟨className, caseName, prop, [], ref, [], h, hprop, by simp, ?_⟩
  obtain ⟨⟨hd, text, hn, -⟩, hm, -, -, hp⟩ := h
  -- Only the fourth token can be the arrow.
  rcases pre with _ | ⟨_, _ | ⟨_, _ | ⟨_, _ | ⟨_, _ | ⟨_, pre⟩⟩⟩⟩⟩
  · obtain ⟨rfl, -⟩ := List.cons.inj hsplit
    exact absurd ha (not_isArrow_of_name? hn)
  · simp only [List.cons_append, List.nil_append, List.cons.injEq] at hsplit
    obtain ⟨-, rfl, -⟩ := hsplit
    exact absurd ha (not_isArrow_of_isPunct hd (by decide))
  · simp only [List.cons_append, List.nil_append, List.cons.injEq] at hsplit
    obtain ⟨-, -, rfl, -⟩ := hsplit
    exact absurd ha (not_isArrow_of_name? hm)
  · rfl
  · simp only [List.cons_append, List.nil_append, List.cons.injEq] at hsplit
    obtain ⟨-, -, -, -, rfl, -⟩ := hsplit
    exact absurd ha (not_isArrow_of_name? hp)
  · simp at hsplit

/-- A reference among the tokens is to a property that is known. -/
theorem hasProperty (h : ArrowsResolve ctx us) (href : IsReference ctx className caseName prop ref)
    (hin : ref <:+: us) : ctx.HasProperty className caseName prop := by
  -- The arrow of the reference stands in a reference that is known, at the same place.
  obtain ⟨front, back, rfl⟩ := hin
  have hwhole := href
  obtain ⟨-, -, -, ha, -⟩ := href
  rename_i n d m a p
  obtain ⟨c, k, q, front', ref', back', href', hprop, hsplit, hlength⟩ :=
    h (front ++ [n, d, m]) a (p :: back) (by simp) ha
  have hfront : front.length = front'.length := by simpa using hlength
  rw [List.append_assoc] at hsplit
  obtain ⟨-, hsplit⟩ := List.append_inj hsplit hfront
  obtain ⟨rfl, -⟩ := List.append_inj hsplit (hwhole.length_eq.trans href'.length_eq.symm)
  obtain ⟨rfl, rfl, rfl⟩ := hwhole.unique href'
  exact hprop

end ArrowsResolve

/-! ## Readers

What a reader uses up has only arrows that resolve.  The proof is an induction on its run: each token
that is used up by itself is no arrow, apart from the one behind a class and a constant. -/

/-- The tokens before the rest have only arrows that resolve. -/
def UsesUp (ctx : Context) (ts rest : List Token) : Prop :=
  ∃ us, ts = us ++ rest ∧ ArrowsResolve ctx us

namespace UsesUp

variable {t : Token}

theorem refl (ts : List Token) : UsesUp ctx ts ts := ⟨[], rfl, .of_forall (by simp)⟩

theorem trans (h : UsesUp ctx ts us) (h' : UsesUp ctx us rest) : UsesUp ctx ts rest := by
  obtain ⟨ws, rfl, hws⟩ := h
  obtain ⟨xs, rfl, hxs⟩ := h'
  exact ⟨ws ++ xs, by simp, hws.append hxs⟩

theorem cons (ht : ¬ IsArrow t) (h : UsesUp ctx ts rest) : UsesUp ctx (t :: ts) rest :=
  trans ⟨[t], rfl, .of_forall (by simpa using ht)⟩ h

theorem cons_name {text : String} (ht : t.name? = some text) (h : UsesUp ctx ts rest) :
    UsesUp ctx (t :: ts) rest :=
  h.cons (not_isArrow_of_name? ht)

theorem cons_punct {p : Punct} (ht : t.isPunct p = true) (h : UsesUp ctx ts rest)
    (hp : p ≠ .arrow ∧ p ≠ .nullsafeArrow) : UsesUp ctx (t :: ts) rest :=
  h.cons (not_isArrow_of_isPunct ht hp)

end UsesUp

theorem not_isArrow_of_kind {t : Token} {kind : Token.Kind} (ht : t.kind = kind)
    (hkind : ∀ p, kind ≠ .punct p) : ¬ IsArrow t := by
  rintro (ha | ha)
  · exact hkind _ (ht.symm.trans (Token.isPunct_iff.mp ha))
  · exact hkind _ (ht.symm.trans (Token.isPunct_iff.mp ha))

theorem usesUp_constant {n d m : Token} {text : String} (hclass : NamesClass ctx className n d)
    (hm : m.name? = some text) (rest : List Token) : UsesUp ctx (n :: d :: m :: rest) rest := by
  obtain ⟨hd, name, hn, -⟩ := hclass
  exact (((UsesUp.refl rest).cons_name hm).cons_punct hd (by decide)).cons_name hn

theorem Run.usesUp {r : Reader} {v : Value} (h : Run ctx r ts v rest) : UsesUp ctx ts rest := by
  induction h with
  | expression _ _ ih ih' => exact ih.trans ih'
  | alone => exact .refl _
  | dot ht _ _ _ _ ih ih' => exact (ih.trans ih').cons_punct ht (by decide)
  | plus ht _ ih => exact ih.cons_punct ht (by decide)
  | minus ht _ _ ih => exact ih.cons_punct ht (by decide)
  | string ht => exact (UsesUp.refl _).cons (not_isArrow_of_kind ht (by simp))
  | int ht => exact (UsesUp.refl _).cons (not_isArrow_of_kind ht (by simp))
  | float ht => exact (UsesUp.refl _).cons (not_isArrow_of_kind ht (by simp))
  | word ht =>
    obtain ⟨text, hname, -⟩ := ht.exists_word
    exact (UsesUp.refl _).cons_name hname
  | @parens o c ts rest v ho _ hc ih =>
    have hclosed : UsesUp ctx (c :: rest) rest := (UsesUp.refl rest).cons_punct hc (by decide)
    exact (ih.trans hclosed).cons_punct ho (by decide)
  | list ho _ ih => exact ih.cons_punct ho (by decide)
  | array ha ho _ ih =>
    obtain ⟨text, hname, -⟩ := Token.exists_of_isKeyword ha
    exact (ih.cons_punct ho (by decide)).cons_name hname
  | className hclass hm =>
    obtain ⟨text, hname, -⟩ := Token.exists_of_isKeyword hm
    exact usesUp_constant hclass hname _
  | enumCase hclass hm => exact usesUp_constant hclass hm _
  | caseName hclass hm hcase ha hp =>
    exact ⟨[_, _, _, _, _], rfl, .of_isReference (.mk hclass hm hcase ha hp) (.inl rfl)⟩
  | caseValue hclass hm hcase ha hp hv =>
    exact ⟨[_, _, _, _, _], rfl, .of_isReference (.mk hclass hm hcase ha hp) (.inr ⟨rfl, _, hv⟩)⟩
  | closed hc | ended hc =>
    exact (UsesUp.refl _).cons (not_isArrow_of_isPunct hc (ne_arrow_of_mem (Subtype.property _)))
  | keyed _ ha _ _ _ ih ih' ih'' =>
    exact ih.trans ((ih'.trans ih'').cons_punct ha (by decide))
  | listed _ _ _ ih ih' => exact ih.trans ih'
  | comma ht _ ih => exact ih.cons_punct ht (by decide)

theorem usesUp_read {v : Value} (h : (read ctx ts).Is v rest) : UsesUp ctx ts rest :=
  (run_of_read h).usesUp

/-- What a reference inside of an expression asks for is known. -/
theorem IsWhole.hasProperty {v : Value} (h : IsWhole ctx v us)
    (href : IsReference ctx className caseName prop ref) (hin : ref <:+: us) :
    ctx.HasProperty className caseName prop := by
  obtain ⟨ws, hws, hresolve⟩ := usesUp_read h.read
  obtain rfl : us = ws := by rwa [List.append_nil] at hws
  exact hresolve.hasProperty href hin

end Expression

end Php

/-! ## Registered cases -/

namespace Registry

open Php Expression

/-- An enum of the registry with that name, in letters of either case, has the case. -/
def Declares (r : Registry) (className caseName : String) (c : CaseDecl) : Prop :=
  ∃ e ∈ r.enums, Name.same e.qualified (Name.dropRoot className) = true ∧ c ∈ e.cases ∧
    c.name = caseName

theorem exists_declares_of_caseValue {r : Registry} {className caseName : String} {v : Value}
    (h : r.caseValue className caseName = some v) :
    ∃ c, r.Declares className caseName c ∧ c.value = some (.ok v) := by
  unfold caseValue at h
  split at h
  · rename_i w hw
    obtain rfl := Option.some.inj h
    obtain ⟨c, hc, hvalue⟩ := Option.bind_eq_some_iff.mp hw
    obtain ⟨e, he, hcase⟩ := Option.bind_eq_some_iff.mp hc
    obtain ⟨hmem, hname⟩ := get?_eq_some_iff.mp he
    refine ⟨c, ⟨e, hmem, hname, List.mem_of_find?_eq_some hcase, ?_⟩, hvalue⟩
    simpa using List.find?_some hcase
  · simp at h

/-- A reference is to a case of a registered enum, and wherever it stands as an operand it is read
as the name or as the value of that case. -/
def Resolves (r : Registry) (ctx : Context) (className caseName prop : String)
    (ref : List Token) : Prop :=
  ∃ c v, r.Declares className caseName c ∧
    (prop = "name" ∧ v = .string c.name ∨ prop = "value" ∧ c.value = some (.ok v)) ∧
    ∀ rest, (Expression.unary ctx (ref ++ rest)).Is v rest

section Context

variable {r : Registry} {ctx : Context} (hctx : ctx.caseValue = r.caseValue)

include hctx

theorem resolves_of_caseValue {className caseName : String} {ref : List Token}
    (h : IsReference ctx className caseName "value" ref) {v : Value}
    (hv : ctx.caseValue className caseName = some v) :
    r.Resolves ctx className caseName "value" ref := by
  obtain ⟨c, hc, hvalue⟩ := exists_declares_of_caseValue (hctx ▸ hv)
  exact ⟨c, v, hc, .inr ⟨rfl, hvalue⟩, h.is_unary_value hv⟩

/-- In an expression that has a value all references to properties resolve exactly if names are
asked only of cases that are declared.  A value is told for such a case alone, and a name for each
constant of each class. -/
theorem all_resolve_iff_names_declared :
    (∀ us v, IsWhole ctx v us →
      ((∀ className caseName prop ref, IsReference ctx className caseName prop ref → ref <:+: us →
          r.Resolves ctx className caseName prop ref) ↔
        ∀ className caseName ref, IsReference ctx className caseName "name" ref → ref <:+: us →
          ∃ c, r.Declares className caseName c)) ∧
    (∀ className caseName ref, IsReference ctx className caseName "value" ref →
      r.Resolves ctx className caseName "value" ref ∨
        ∀ rest, (unary ctx (ref ++ rest)).answer = .error (.unresolvedCase className caseName)) ∧
    ∀ className caseName ref, IsReference ctx className caseName "name" ref →
      ∀ rest, (unary ctx (ref ++ rest)).Is (.string caseName) rest := by
  refine ⟨fun us v hus ↦ ⟨fun h className caseName ref href hin ↦ ?_,
    fun h className caseName prop ref href hin ↦ ?_⟩, fun className caseName ref href ↦ ?_,
    fun className caseName ref href ↦ href.is_unary_name⟩
  · obtain ⟨c, _, hc, -⟩ := h className caseName "name" ref href hin
    exact ⟨c, hc⟩
  · rcases hus.hasProperty href hin with rfl | ⟨rfl, v, hv⟩
    · obtain ⟨c, hc⟩ := h className caseName ref href hin
      obtain ⟨-, -, -, -, rfl⟩ := id hc
      exact ⟨c, .string c.name, hc, .inl ⟨rfl, rfl⟩, href.is_unary_name⟩
    · exact resolves_of_caseValue hctx href hv
  · cases hv : ctx.caseValue className caseName with
    | some v => exact .inl (resolves_of_caseValue hctx href hv)
    | none => exact .inr (href.answer_unary_value hv)

end Context

/-- A case, and a constant that is another name of it. -/
def aliasRegistry : Registry :=
  ofSources ["<?php enum E: int { case A = 1; const B = self::A; }"]

/-- What is known inside of that enum. -/
def aliasContext : Context := ⟨.empty, some "E", aliasRegistry.caseValue⟩

/-- The tokens of a reference inside of that enum to the name of a constant. -/
def selfName (caseName : String) : List Token :=
  [⟨.name "self", 1⟩, ⟨.punct .doubleColon, 1⟩, ⟨.name caseName, 1⟩, ⟨.punct .nullsafeArrow, 1⟩,
    ⟨.name "name", 1⟩]

theorem isReference_selfName {caseName : String} (h : caseName.toLower ≠ "class") :
    IsReference aliasContext "E" caseName "name" (selfName caseName) := by
  refine .mk ⟨rfl, "self", rfl, by decide +kernel⟩ rfl ?_ (.inr rfl) rfl
  simpa [Token.isKeyword, Token.keyword?, Token.name?] using h

theorem isWhole_selfName {caseName : String} (h : caseName.toLower ≠ "class") :
    IsWhole aliasContext (.string caseName) (selfName caseName) := by
  have hunary := (isReference_selfName h).is_unary_name []
  exact isWhole_of_is_read (is_read_of_is_unary hunary (is_joined_of_head? _ (by simp)))

theorem all_resolve_selfName :
    tokens "self::A?->name" = selfName "A" ∧
      IsWhole aliasContext (.string "A") (selfName "A") ∧
      ∀ className caseName prop ref, IsReference aliasContext className caseName prop ref →
        ref <:+: selfName "A" →
          aliasRegistry.Resolves aliasContext className caseName prop ref := by
  have hword : "A".toLower ≠ "class" := by decide +kernel
  refine ⟨by decide +kernel, isWhole_selfName hword, ?_⟩
  refine ((all_resolve_iff_names_declared (r := aliasRegistry) rfl).1 _ _
    (isWhole_selfName hword)).mpr fun className caseName ref href hin ↦ ?_
  obtain rfl := hin.eq_of_length (href.length_eq.trans (isReference_selfName hword).length_eq.symm)
  obtain ⟨rfl, rfl, -⟩ := (isReference_selfName hword).unique href
  have hsome : (aliasRegistry.caseValue "E" "A").isSome = true := by decide +kernel
  obtain ⟨v, hv⟩ := Option.isSome_iff_exists.mp hsome
  obtain ⟨c, hc, -⟩ := exists_declares_of_caseValue hv
  exact ⟨c, hc⟩

/-- The other name is no case, and the expression that asks for its name has a value. -/
theorem not_declares_alias :
    tokens "self::B?->name" = selfName "B" ∧
      IsReference aliasContext "E" "B" "name" (selfName "B") ∧
      IsWhole aliasContext (.string "B") (selfName "B") ∧
      ∀ c, ¬ aliasRegistry.Declares "E" "B" c := by
  have hword : "B".toLower ≠ "class" := by decide +kernel
  have hcases : ∀ e ∈ aliasRegistry.enums, ∀ c ∈ e.cases, c.name ≠ "B" := by decide +kernel
  refine ⟨by decide +kernel, isReference_selfName hword, isWhole_selfName hword, ?_⟩
  rintro c ⟨e, he, -, hc, hname⟩
  exact hcases e he c hc hname

end Registry

end FrontendSync
