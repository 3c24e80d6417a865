import FrontendSync.Proofs.Php.Members

/-!
# Reading members

What the reader of bodies makes of each kind of member, with the tokens behind it as a variable,
and then of all members of a body.  The induction follows the members that the reader comes to.
-/

namespace FrontendSync.Php

open Brackets (Nested Passes)

namespace Written

variable {ctx : Context}

/-! ## What stands in front of members -/

theorem read_lead (doc : Option String) (isPublic isStatic : Bool) (l : Lead) (rest : List Token) :
    Members.read ctx doc isPublic isStatic (l.tokens ++ rest)
      = Members.read ctx (l.doc?.getD doc) (l.isPublic?.getD isPublic) (isStatic || l.isStatic)
        rest := by
  cases l with
  | doc raw line =>
    rw [Lead.tokens, List.singleton_append, Members.read.eq_def]
    simp [Lead.doc?, Lead.isPublic?, Lead.isStatic]
  | attributes opener inside closer =>
    have hgroup := Brackets.group_append_closer inside.nested closer.closes_eq rest
    rw [Lead.tokens, List.cons_append, List.append_assoc, List.singleton_append,
      Members.read.eq_def]
    simp [opener.2, hgroup, Lead.doc?, Lead.isPublic?, Lead.isStatic]
  | modifier word token isModifier =>
    obtain ⟨text, hkind, hlower⟩ := Token.exists_of_keyword? token.2
    rw [Lead.tokens, List.singleton_append, Members.read.eq_def]
    simp only [hkind, hlower]
    simp only [modifiers, List.mem_cons, List.not_mem_nil, or_false] at isModifier
    rcases isModifier with rfl | rfl | rfl | rfl | rfl | rfl <;>
      simp [Lead.doc?, Lead.isPublic?, Lead.isStatic]

theorem read_leads (doc : Option String) (isPublic isStatic : Bool) (leads : List Lead)
    (rest : List Token) :
    Members.read ctx doc isPublic isStatic (leads.flatMap Lead.tokens ++ rest)
      = Members.read ctx ((leads.filterMap Lead.doc?).getLast?.getD doc)
        ((leads.filterMap Lead.isPublic?).getLast?.getD isPublic)
        (isStatic || leads.any Lead.isStatic) rest := by
  induction leads generalizing doc isPublic isStatic with
  | nil => simp
  | cons l leads ih =>
    rw [List.flatMap_cons, List.append_assoc, read_lead, ih, List.any_cons, Bool.or_assoc]
    congr 1
    · cases hdoc : l.doc? <;> simp [hdoc, List.getLast?_cons]
    · cases hpublic : l.isPublic? <;> simp [hpublic, List.getLast?_cons]

/-- In front of a member nothing of the members before is left. -/
theorem read_member_leads (leads : List Lead) (rest : List Token) :
    Members.read ctx none true false (leads.flatMap Lead.tokens ++ rest)
      = Members.read ctx (docOf leads) (isPublic leads) (isStatic leads) rest := by
  rw [read_leads, Bool.false_or]
  rfl

/-! ## Parts of members -/

theorem Name.name?_eq (n : Name) : n.token.name? = some n.text := by
  simp [Token.name?, n.kind_eq]

theorem Name.passes (n : Name) : Passes [n.token] := by
  obtain ⟨hopens, -, hmarks⟩ := Token.opens_of_kind_name n.kind_eq
  exact .cons (by simp [Brackets.opensInStatement, hopens]) (hmarks _) .nil

theorem passes_keyword {word : String} (k : Keyword word) : Passes [k.1] := by
  obtain ⟨text, hkind, -⟩ := Token.exists_of_keyword? k.2
  exact Name.passes ⟨k.1, text, hkind⟩

theorem passes_mark {p : Punct} (hopens : p.opens = false ∨ p = .attributeOpen)
    (hsemicolon : p ≠ .semicolon) (m : Mark p) : Passes [m.1] := by
  refine .cons ?_ ?_ .nil
  · rcases hopens with hopens | rfl
    · simp [Brackets.opensInStatement, m.opens_eq, hopens]
    · simp [Brackets.opensInStatement, m.isPunct_eq]
  · simp [m.isPunct_eq, hsemicolon]

theorem Phrase.passes (p : Phrase) : Passes p.tokens := .of_nested p.nested p.plain

theorem Names.passes (names : Names) : Passes names.tokens := by
  obtain ⟨ts, flat⟩ := names
  induction ts with
  | nil => exact .nil
  | cons t ts ih =>
    obtain ⟨ht, hts⟩ := List.forall_mem_cons.mp flat
    rcases ht with ⟨text, hkind⟩ | hkind
    · exact (Name.passes ⟨t, text, hkind⟩).append (ih hts)
    · exact (passes_mark (.inl rfl) (by decide) ⟨t, hkind⟩).append (ih hts)

/-- Semicolons inside of braces end no statement. -/
theorem passes_braces (opener : Mark .braceOpen) (inside : Block) (closer : Mark .braceClose)
    (hplain : ∀ t ∈ inside.tokens, t.isPunct .attributeOpen = false) :
    Passes (opener.1 :: (inside.tokens ++ [closer.1])) := by
  refine .of_nested (nested_group rfl rfl opener inside.nested closer) ?_
  rw [List.forall_mem_cons, List.forall_mem_append, List.forall_mem_singleton]
  exact ⟨opener.isPunct_eq _, hplain, closer.isPunct_eq _⟩

theorem Parameter.tokens_ne_nil (p : Parameter) : p.tokens ≠ [] := by
  obtain ⟨t, ht, -⟩ := p.named
  exact List.ne_nil_of_mem ht

/-- The reader counts the parameters, and a comma behind the last one adds none. -/
theorem length_items_parameters (ps : Parameters) :
    (Brackets.items ps.tokens).length = ps.count := by
  induction ps with
  | none => rfl
  | last p =>
    rw [Parameters.tokens, Brackets.items_of_nested p.nested p.tokens_ne_nil fun _ h ↦ h]
    rfl
  | more p comma rest ih =>
    rw [Parameters.tokens, Brackets.items_append_comma p.nested p.tokens_ne_nil comma.2,
      List.length_cons, ih, Parameters.count]

/-! ## Cases -/

theorem Case.passes_header (c : Case) : Passes c.header := by
  refine c.name.passes.append ?_
  cases c.value with
  | none => exact .nil
  | some v => exact (passes_mark (.inl rfl) (by decide) v.1).append v.2.passes

theorem Case.ofTokens_header (doc : Option String) (c : Case) :
    CaseDecl.ofTokens ctx doc c.header
      = ⟨c.name.text, c.value.map fun v ↦ CaseDecl.wholeValue ctx v.2.tokens, doc⟩ := by
  cases hvalue : c.value with
  | none => simp [CaseDecl.ofTokens, header, hvalue, c.name.name?_eq]
  | some v => simp [CaseDecl.ofTokens, header, hvalue, c.name.name?_eq, v.1.isPunct_eq]

theorem read_case (c : Case) (rest : List Token) :
    Members.read ctx none true false (c.tokens ++ rest)
      = Members.addCase (c.declared ctx) (Members.read ctx none true false rest) := by
  obtain ⟨text, hkind, hlower⟩ := Token.exists_of_keyword? c.keyword.2
  have hstatement := c.passes_header.statement_append_semicolon c.stop.2 rest
  rw [Case.tokens, List.append_assoc, read_member_leads, List.cons_append, List.append_assoc,
    List.singleton_append, Members.read.eq_def]
  simp only [hkind, hlower, hstatement, Case.ofTokens_header]
  rfl

/-! ## Statements that declare nothing -/

/-- Behind a constant or a use the reader goes on where the statement ends. -/
theorem read_statement (leads : List Lead) {t : Token}
    (ht : t.keyword? = some "const" ∨ t.keyword? = some "use") (rest : List Token) :
    Members.read ctx none true false (leads.flatMap Lead.tokens ++ t :: rest)
      = Members.read ctx none true false (Brackets.statement 0 rest).2 := by
  rw [read_member_leads, Members.read.eq_def]
  rcases ht with ht | ht
  · obtain ⟨text, hkind, hlower⟩ := Token.exists_of_keyword? ht
    simp only [hkind, hlower]
  · obtain ⟨text, hkind, hlower⟩ := Token.exists_of_keyword? ht
    simp only [hkind, hlower]

/-! ## Methods -/

theorem readBody_append (body : MethodBody) (rest : List Token) :
    MethodDecl.readBody (body.tokens ++ rest) = (body.inside?, rest) := by
  cases body with
  | missing stop => simp [MethodBody.tokens, MethodDecl.readBody, stop.isPunct_eq,
      MethodBody.inside?]
  | block opener inside closer =>
    have hgroup := Brackets.group_append_closer inside.nested closer.closes_eq rest
    simp [MethodBody.tokens, MethodDecl.readBody, opener.isPunct_eq, hgroup, MethodBody.inside?]

/-- The reader goes on at the body, whether there is a type in front of it or not. -/
theorem Method.afterType_append (m : Method) (rest : List Token) :
    MethodDecl.afterType (m.typeTokens ++ (m.body.tokens ++ rest)) = m.body.tokens ++ rest := by
  have hbody : ∃ t ts, m.body.tokens ++ rest = t :: ts ∧
      (t.kind = .punct .braceOpen ∨ t.kind = .punct .semicolon) := by
    cases m.body with
    | missing stop => exact ⟨_, _, rfl, .inr stop.2⟩
    | block opener inside closer => exact ⟨_, _, rfl, .inl opener.2⟩
  obtain ⟨t, ts, hbody, ht⟩ := hbody
  rw [hbody, typeTokens]
  cases m.type with
  | none => rcases ht with ht | ht <;> simp [MethodDecl.afterType, Token.isPunct, ht]
  | some r =>
    have hskip : ∀ u ∈ r.type.tokens,
        (!(u.isPunct .braceOpen || u.isPunct .semicolon)) = true := by
      intro u hu
      obtain ⟨hbrace, hsemicolon⟩ := r.flat u hu
      simp [hbrace, hsemicolon]
    have hcolon : r.colon.1.isPunct .colon = true := r.colon.isPunct_eq _
    rw [Option.elim_some, List.cons_append, MethodDecl.afterType]
    simp only [hcolon, if_true, List.dropWhile_append_of_pos hskip]
    rcases ht with ht | ht <;> simp [Token.isPunct, ht]

theorem Method.read_header (isPublic isStatic : Bool) (line : Nat) (m : Method)
    (rest : List Token) :
    MethodDecl.read isPublic isStatic line (m.header ++ (m.body.tokens ++ rest))
      = (some ⟨m.name.text, isPublic, isStatic, m.parameters.count, m.body.inside?, line⟩,
        rest) := by
  have hreference : MethodDecl.afterReference (m.header ++ (m.body.tokens ++ rest))
      = m.name.token :: m.opener.1 ::
        (m.parameters.tokens ++ m.closer.1 :: (m.typeTokens ++ (m.body.tokens ++ rest))) := by
    rw [header]
    cases m.reference with
    | none => simp [MethodDecl.afterReference, Token.isSymbol, m.name.kind_eq]
    | some ampersand => simp [MethodDecl.afterReference, Token.isSymbol, ampersand.2]
  have hopener : m.opener.1.isPunct .parenOpen = true := m.opener.isPunct_eq _
  have hgroup := Brackets.group_append_closer m.parameters.balanced m.closer.closes_eq
    (m.typeTokens ++ (m.body.tokens ++ rest))
  rw [MethodDecl.read, hreference]
  simp only [m.name.name?_eq, MethodDecl.readFrom, hopener, if_true, hgroup,
    m.afterType_append rest, readBody_append, length_items_parameters]

theorem read_method (m : Method) (rest : List Token) :
    Members.read ctx none true false (m.tokens ++ rest)
      = Members.addMethod (some m.declared) (Members.read ctx none true false rest) := by
  obtain ⟨text, hkind, hlower⟩ := Token.exists_of_keyword? m.keyword.2
  rw [Method.tokens, List.append_assoc, read_member_leads, List.cons_append, List.append_assoc,
    Members.read.eq_def]
  simp only [hkind, hlower, Method.read_header]
  rfl

/-! ## Members that a statement runs over -/

theorem Lead.passes (l : Lead) : Passes l.tokens := by
  cases l with
  | doc raw line => exact .cons rfl rfl .nil
  | attributes opener inside closer =>
    exact (passes_mark (.inr rfl) (by decide) opener).append
      (inside.passes.append (passes_mark (.inl rfl) (by decide) closer))
  | modifier word token _ => exact passes_keyword token

theorem passes_leads (leads : List Lead) {word : String} (keyword : Keyword word) :
    Passes (leads.flatMap Lead.tokens ++ [keyword.1]) :=
  (Passes.flatMap fun l _ ↦ l.passes).append (passes_keyword keyword)

theorem Adaptations.passes (a : Adaptations) :
    Passes (a.opener.1 :: (a.inside.tokens ++ [a.closer.1])) :=
  passes_braces a.opener a.inside a.closer a.plain

theorem Method.passes_header {m : Method} (h : m.IsPlain) : Passes m.header :=
  .of_nested m.nested_header (List.forall_mem_append.mp h).1

/-- A statement ends with the first member that ends in a semicolon. -/
theorem statement_member {m : Member} (hplain : m.IsPlain) (rest : List Token) :
    (Brackets.statement 0 (m.tokens ++ rest)).2
      = if m.endsInSemicolon then rest else (Brackets.statement 0 rest).2 := by
  cases m with
  | case c =>
    have hinit := (passes_leads c.leads c.keyword).append c.passes_header
    have hstop := hinit.statement_append_semicolon c.stop.2 rest
    simpa [Member.tokens, Case.tokens, Member.endsInSemicolon] using congrArg Prod.snd hstop
  | constant leads keyword text stop =>
    have hinit := (passes_leads leads keyword).append text.passes
    have hstop := hinit.statement_append_semicolon stop.2 rest
    simpa [Member.tokens, Member.endsInSemicolon] using congrArg Prod.snd hstop
  | traits leads keyword names stop =>
    have hinit := (passes_leads leads keyword).append names.passes
    have hstop := hinit.statement_append_semicolon stop.2 rest
    simpa [Member.tokens, Member.endsInSemicolon] using congrArg Prod.snd hstop
  | adapted leads keyword names adaptations =>
    have hall := ((passes_leads leads keyword).append names.passes).append adaptations.passes
    simpa [Member.tokens, Member.endsInSemicolon] using congrArg Prod.snd (hall rest)
  | method m =>
    have hinit := (passes_leads m.leads m.keyword).append (Method.passes_header hplain)
    cases hbody : m.body with
    | missing stop =>
      have hstop := hinit.statement_append_semicolon stop.2 rest
      simpa [Member.tokens, Method.tokens, Member.endsInSemicolon, hbody, MethodBody.tokens,
        MethodBody.inside?] using congrArg Prod.snd hstop
    | block opener inside closer =>
      have hinside : ∀ t ∈ inside.tokens, t.isPunct .attributeOpen = false := by
        intro t ht
        refine hplain t (List.mem_append_right _ ?_)
        rw [hbody]
        exact List.mem_cons_of_mem _ (List.mem_append_left _ ht)
      have hall := hinit.append (passes_braces opener inside closer hinside)
      simpa [Member.tokens, Method.tokens, Member.endsInSemicolon, hbody, MethodBody.tokens,
        MethodBody.inside?] using congrArg Prod.snd (hall rest)

theorem statement_runOn {ms : List Member} (hplain : ∀ m ∈ (runOn ms).1, m.IsPlain) :
    (Brackets.statement 0 (ms.flatMap Member.tokens)).2
      = (runOn ms).2.flatMap Member.tokens := by
  fun_induction runOn ms with
  | case1 => rfl
  | case2 m ms hends =>
    rw [List.flatMap_cons, statement_member (hplain m List.mem_cons_self), if_pos hends]
  | case3 m ms hends ih =>
    rw [List.flatMap_cons, statement_member (hplain m List.mem_cons_self), if_neg hends]
    exact ih fun n hn ↦ hplain n (List.mem_cons_of_mem m hn)

/-! ## Bodies -/

/-- The reader declares the members that it comes to. -/
theorem read_members {ms : List Member} (hplain : ∀ m ∈ lost ms, m.IsPlain) :
    Members.read ctx none true false (ms.flatMap Member.tokens) = declared ctx (kept ms) := by
  fun_induction kept ms with
  | case1 =>
    rw [List.flatMap_nil, Members.read.eq_def]
    rfl
  | case2 m ms _ hadapted ih =>
    rw [lost, if_pos hadapted] at hplain
    obtain ⟨hrun, hlost⟩ := List.forall_mem_append.mp hplain
    cases m with
    | adapted leads keyword names adaptations =>
      have hpasses := names.passes.append adaptations.passes
      rw [List.flatMap_cons, Member.tokens, List.append_assoc, List.cons_append,
        read_statement leads (.inr keyword.2), hpasses, statement_runOn hrun, ih hlost]
      rfl
    | case | constant | traits | method => simp [Member.isAdapted] at hadapted
  | case3 m ms _ hadapted ih =>
    rw [lost, if_neg hadapted] at hplain
    rw [List.flatMap_cons]
    cases m with
    | case c =>
      rw [Member.tokens, read_case, ih hplain]
      rfl
    | constant leads keyword text stop =>
      rw [Member.tokens, List.append_assoc, List.cons_append,
        read_statement leads (.inl keyword.2), List.append_assoc, List.singleton_append,
        text.passes.statement_append_semicolon stop.2, ih hplain]
      rfl
    | traits leads keyword names stop =>
      rw [Member.tokens, List.append_assoc, List.cons_append,
        read_statement leads (.inr keyword.2), List.append_assoc, List.singleton_append,
        names.passes.statement_append_semicolon stop.2, ih hplain]
      rfl
    | adapted => simp [Member.isAdapted] at hadapted
    | method m =>
      rw [Member.tokens, read_method, ih hplain]
      rfl

end Written

end FrontendSync.Php
