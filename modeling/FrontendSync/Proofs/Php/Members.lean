import FrontendSync.Php.Declaration.Body
import FrontendSync.Proofs.Php.Nesting

/-!
# Members as they are written

The grammar of the body of an enum: cases, constants, uses of traits and methods, each with
documentation, attributes and modifiers in front.  A use that ends with adaptations in braces has
no semicolon, and the reader of bodies takes it to go on up to the next one; the members it passes
over that way are lost.
-/

namespace FrontendSync.Php

open Brackets (Nested)

/-- A word in any letter case. -/
abbrev Keyword (word : String) := { t : Token // t.keyword? = some word }

abbrev Mark (p : Punct) := { t : Token // t.kind = .punct p }

theorem Mark.opens_eq {p : Punct} (m : Mark p) : m.1.opens = p.opens := by
  simp [Token.opens, m.2]

theorem Mark.closes_eq {p : Punct} (m : Mark p) : m.1.closes = p.closes := by
  simp [Token.closes, m.2]

theorem Mark.isPunct_eq {p : Punct} (m : Mark p) (q : Punct) :
    m.1.isPunct q = decide (p = q) := by
  rw [Token.isPunct, m.2, Bool.eq_iff_iff, beq_iff_eq, decide_eq_true_iff, Token.Kind.punct.injEq]

theorem Token.exists_of_keyword? {t : Token} {word : String} (h : t.keyword? = some word) :
    ∃ text, t.kind = .name text ∧ text.toLower = word := by
  obtain ⟨text, hname, hlower⟩ := Option.map_eq_some_iff.mp h
  unfold name? at hname
  split at hname
  · rename_i name hkind
    obtain rfl := Option.some.inj hname
    exact ⟨name, hkind, hlower⟩
  · simp at hname

/-- A name is no bracket and no other mark. -/
theorem Token.opens_of_kind_name {t : Token} {text : String} (h : t.kind = .name text) :
    t.opens = false ∧ t.closes = false ∧ ∀ p, t.isPunct p = false := by
  simp [opens, closes, isPunct, h]

namespace Written

/-! ## Parts of members -/

structure Name where
  token : Token
  text : String
  kind_eq : token.kind = .name text

/-- Tokens with balanced brackets. -/
structure Block where
  tokens : List Token
  nested : Nested (fun _ ↦ True) tokens

/-- Tokens with balanced brackets, no semicolon outside of them, and no attributes. -/
structure Phrase where
  tokens : List Token
  nested : Nested (fun t ↦ t.isPunct .semicolon = false) tokens
  plain : ∀ t ∈ tokens, t.isPunct .attributeOpen = false

def modifiers : List String := ["public", "protected", "private", "static", "final", "abstract"]

/-- What stands in front of a member. -/
inductive Lead where
  | doc (raw : String) (line : Nat)
  | attributes (opener : Mark .attributeOpen) (inside : Phrase) (closer : Mark .bracketClose)
  | modifier (word : String) (token : Keyword word) (isModifier : word ∈ modifiers)

namespace Lead

def tokens : Lead → List Token
  | doc raw line => [⟨.docComment raw, line⟩]
  | attributes opener inside closer => opener.1 :: (inside.tokens ++ [closer.1])
  | modifier _ token _ => [token.1]

/-- The text of a documentation comment, which may have none. -/
def doc? : Lead → Option (Option String)
  | doc raw _ => some (DocComment.text? raw)
  | _ => none

/-- Whether a modifier makes the member public or not. -/
def isPublic? : Lead → Option Bool
  | modifier "public" _ _ => some true
  | modifier "protected" _ _ | modifier "private" _ _ => some false
  | _ => none

def isStatic : Lead → Bool
  | modifier "static" _ _ => true
  | _ => false

end Lead

/-- The text of the last documentation comment. -/
def docOf (leads : List Lead) : Option String := (leads.filterMap Lead.doc?).getLast?.getD none

/-- Members are public unless a modifier says otherwise. -/
def isPublic (leads : List Lead) : Bool := (leads.filterMap Lead.isPublic?).getLast?.getD true

def isStatic (leads : List Lead) : Bool := leads.any Lead.isStatic

/-- A parameter has a variable. -/
structure Parameter where
  tokens : List Token
  nested : Nested (fun t ↦ t.isPunct .comma = false) tokens
  named : ∃ t ∈ tokens, ∃ name, t.kind = .var name

/-- Parameters with a comma between two of them; one may stand behind the last. -/
inductive Parameters where
  | none
  | last (p : Parameter)
  | more (p : Parameter) (comma : Mark .comma) (rest : Parameters)

namespace Parameters

def tokens : Parameters → List Token
  | none => []
  | last p => p.tokens
  | more p comma rest => p.tokens ++ comma.1 :: rest.tokens

def count : Parameters → Nat
  | none => 0
  | last _ => 1
  | more _ _ rest => rest.count + 1

end Parameters

/-- A return type with its colon. -/
structure ReturnType where
  colon : Mark .colon
  type : Phrase
  flat : ∀ t ∈ type.tokens, t.isPunct .braceOpen = false ∧ t.isPunct .semicolon = false

/-- The braces of a method, or the semicolon of one without a body. -/
inductive MethodBody where
  | missing (stop : Mark .semicolon)
  | block (opener : Mark .braceOpen) (inside : Block) (closer : Mark .braceClose)

namespace MethodBody

def tokens : MethodBody → List Token
  | missing stop => [stop.1]
  | block opener inside closer => opener.1 :: (inside.tokens ++ [closer.1])

def inside? : MethodBody → Option (List Token)
  | missing _ => none
  | block _ inside _ => some inside.tokens

end MethodBody

/-- Names with commas, as of traits and interfaces. -/
structure Names where
  tokens : List Token
  flat : ∀ t ∈ tokens, (∃ text, t.kind = .name text) ∨ t.kind = .punct .comma

/-- The braces with the adaptations of traits. -/
structure Adaptations where
  opener : Mark .braceOpen
  inside : Block
  closer : Mark .braceClose
  plain : ∀ t ∈ inside.tokens, t.isPunct .attributeOpen = false

/-! ## Members -/

structure Case where
  leads : List Lead
  keyword : Keyword "case"
  name : Name
  value : Option (Mark .assign × Phrase)
  stop : Mark .semicolon

namespace Case

def header (c : Case) : List Token :=
  c.name.token :: c.value.elim [] fun v ↦ v.1.1 :: v.2.tokens

def tokens (c : Case) : List Token :=
  c.leads.flatMap Lead.tokens ++ c.keyword.1 :: (c.header ++ [c.stop.1])

def declared (ctx : Context) (c : Case) : CaseDecl where
  name := c.name.text
  value := c.value.map fun v ↦ CaseDecl.wholeValue ctx v.2.tokens
  doc := docOf c.leads

end Case

structure Method where
  leads : List Lead
  keyword : Keyword "function"
  reference : Option { t : Token // t.kind = .symbol '&' }
  name : Name
  opener : Mark .parenOpen
  parameters : Parameters
  closer : Mark .parenClose
  type : Option ReturnType
  body : MethodBody

namespace Method

def typeTokens (m : Method) : List Token := m.type.elim [] fun t ↦ t.colon.1 :: t.type.tokens

/-- The tokens behind the keyword and before the body. -/
def header (m : Method) : List Token :=
  (m.reference.map Subtype.val).toList ++ m.name.token :: m.opener.1 ::
    (m.parameters.tokens ++ m.closer.1 :: m.typeTokens)

def tokens (m : Method) : List Token :=
  m.leads.flatMap Lead.tokens ++ m.keyword.1 :: (m.header ++ m.body.tokens)

def declared (m : Method) : MethodDecl where
  name := m.name.text
  isPublic := isPublic m.leads
  isStatic := isStatic m.leads
  params := m.parameters.count
  body := m.body.inside?
  line := m.keyword.1.line

/-- There are no attributes behind the keyword. -/
def IsPlain (m : Method) : Prop :=
  ∀ t ∈ m.header ++ m.body.tokens, t.isPunct .attributeOpen = false

end Method

inductive Member where
  | case (c : Case)
  | constant (leads : List Lead) (keyword : Keyword "const") (text : Phrase)
      (stop : Mark .semicolon)
  | traits (leads : List Lead) (keyword : Keyword "use") (names : Names)
      (stop : Mark .semicolon)
  | adapted (leads : List Lead) (keyword : Keyword "use") (names : Names)
      (adaptations : Adaptations)
  | method (m : Method)

namespace Member

def tokens : Member → List Token
  | case c => c.tokens
  | constant leads keyword text stop =>
    leads.flatMap Lead.tokens ++ keyword.1 :: (text.tokens ++ [stop.1])
  | traits leads keyword names stop =>
    leads.flatMap Lead.tokens ++ keyword.1 :: (names.tokens ++ [stop.1])
  | adapted leads keyword names adaptations =>
    leads.flatMap Lead.tokens ++ keyword.1 :: (names.tokens ++ adaptations.opener.1 ::
      (adaptations.inside.tokens ++ [adaptations.closer.1]))
  | method m => m.tokens

def case? (ctx : Context) : Member → Option CaseDecl
  | case c => some (c.declared ctx)
  | _ => none

def method? : Member → Option MethodDecl
  | method m => some m.declared
  | _ => none

/-- Constants and uses of traits declare nothing. -/
def isQuiet : Member → Bool
  | case _ | method _ => false
  | _ => true

def isAdapted : Member → Bool
  | adapted .. => true
  | _ => false

def endsInSemicolon : Member → Bool
  | case _ | constant .. | traits .. => true
  | adapted .. => false
  | method m => m.body.inside?.isNone

/-- No method has attributes behind its keyword. -/
def IsPlain : Member → Prop
  | method m => m.IsPlain
  | _ => True

theorem isPlain_of_isQuiet {m : Member} (h : m.isQuiet = true) : m.IsPlain := by
  cases m with
  | case c | method m => simp [isQuiet] at h
  | constant | traits | adapted => trivial

end Member

/-- What members declare. -/
def declared (ctx : Context) (ms : List Member) : Members :=
  ⟨ms.filterMap (Member.case? ctx), ms.filterMap Member.method?⟩

/-! ## Brackets of members -/

abbrev Balanced (ts : List Token) : Prop := Nested (fun _ ↦ True) ts

theorem balanced_name {t : Token} {text : String} (h : t.kind = .name text) : Balanced [t] := by
  obtain ⟨hopens, hcloses, -⟩ := Token.opens_of_kind_name h
  exact .token hopens hcloses trivial .nil

theorem balanced_keyword {word : String} (k : Keyword word) : Balanced [k.1] := by
  obtain ⟨text, hkind, -⟩ := Token.exists_of_keyword? k.2
  exact balanced_name hkind

theorem balanced_mark {p : Punct} (hopens : p.opens = false) (hcloses : p.closes = false)
    (m : Mark p) : Balanced [m.1] :=
  .token (m.opens_eq.trans hopens) (m.closes_eq.trans hcloses) trivial .nil

theorem nested_group {q : Token → Prop} {o c : Punct} (hopens : o.opens = true)
    (hcloses : c.closes = true) (opener : Mark o) {inside : List Token} (h : Balanced inside)
    (closer : Mark c) : Nested q (opener.1 :: (inside ++ [closer.1])) :=
  .group (opener.opens_eq.trans hopens) (closer.closes_eq.trans hcloses) h .nil

theorem Phrase.balanced (p : Phrase) : Balanced p.tokens := p.nested.mono fun _ _ ↦ trivial

theorem Names.balanced (names : Names) : Balanced names.tokens := by
  obtain ⟨ts, flat⟩ := names
  induction ts with
  | nil => exact .nil
  | cons t ts ih =>
    obtain ⟨ht, hts⟩ := List.forall_mem_cons.mp flat
    rcases ht with ⟨text, hkind⟩ | hkind
    · exact (balanced_name hkind).append (ih hts)
    · exact (balanced_mark rfl rfl ⟨t, hkind⟩).append (ih hts)

theorem Lead.balanced (l : Lead) : Balanced l.tokens := by
  cases l with
  | doc raw line => exact .token rfl rfl trivial .nil
  | attributes opener inside closer => exact nested_group rfl rfl opener inside.balanced closer
  | modifier word token _ => exact balanced_keyword token

theorem Parameters.balanced (ps : Parameters) : Balanced ps.tokens := by
  induction ps with
  | none => exact .nil
  | last p => exact p.nested.mono fun _ _ ↦ trivial
  | more p comma rest ih =>
    exact (p.nested.mono fun _ _ ↦ trivial).append ((balanced_mark rfl rfl comma).append ih)

/-- There is no semicolon in front of the body of a method. -/
theorem Method.nested_header (m : Method) :
    Nested (fun t ↦ t.isPunct .semicolon = false) m.header := by
  have hreference : Nested (fun t ↦ t.isPunct .semicolon = false)
      (m.reference.map Subtype.val).toList := by
    cases m.reference with
    | none => exact .nil
    | some ampersand =>
      refine .token ?_ ?_ ?_ .nil <;>
        simp [Token.opens, Token.closes, Token.isPunct, ampersand.2]
  have htype : Nested (fun t ↦ t.isPunct .semicolon = false) m.typeTokens := by
    rw [typeTokens]
    cases m.type with
    | none => exact .nil
    | some r => exact .token r.colon.opens_eq r.colon.closes_eq (r.colon.isPunct_eq _) r.type.nested
  have hparameters : Nested (fun t ↦ t.isPunct .semicolon = false)
      (m.opener.1 :: (m.parameters.tokens ++ m.closer.1 :: m.typeTokens)) :=
    .group m.opener.opens_eq m.closer.closes_eq m.parameters.balanced htype
  obtain ⟨hopens, hcloses, hmarks⟩ := Token.opens_of_kind_name m.name.kind_eq
  exact hreference.append (.token hopens hcloses (hmarks _) hparameters)

theorem balanced_leads (leads : List Lead) {word : String} (k : Keyword word) {ts : List Token}
    (h : Balanced ts) : Balanced (leads.flatMap Lead.tokens ++ k.1 :: ts) :=
  (Nested.flatMap fun l _ ↦ l.balanced).append ((balanced_keyword k).append h)

theorem Member.balanced (m : Member) : Balanced m.tokens := by
  cases m with
  | case c =>
    have hvalue : Balanced (c.value.elim [] fun v ↦ v.1.1 :: v.2.tokens) := by
      cases c.value with
      | none => exact .nil
      | some v => exact (balanced_mark rfl rfl v.1).append v.2.balanced
    have hheader : Balanced c.header := (balanced_name c.name.kind_eq).append hvalue
    exact balanced_leads c.leads c.keyword (hheader.append (balanced_mark rfl rfl c.stop))
  | constant leads keyword text stop =>
    exact balanced_leads leads keyword (text.balanced.append (balanced_mark rfl rfl stop))
  | traits leads keyword names stop =>
    exact balanced_leads leads keyword (names.balanced.append (balanced_mark rfl rfl stop))
  | adapted leads keyword names a =>
    exact balanced_leads leads keyword
      (names.balanced.append (nested_group rfl rfl a.opener a.inside.nested a.closer))
  | method m =>
    have hheader : Balanced m.header := m.nested_header.mono fun _ _ ↦ trivial
    refine balanced_leads m.leads m.keyword (hheader.append ?_)
    cases m.body with
    | missing stop => exact balanced_mark rfl rfl stop
    | block opener inside closer => exact nested_group rfl rfl opener inside.nested closer

/-! ## Members that are lost -/

/-- The members up to the first one that ends in a semicolon, and those behind it. -/
def runOn : List Member → List Member × List Member
  | [] => ([], [])
  | m :: ms => if m.endsInSemicolon then ([m], ms) else (m :: (runOn ms).1, (runOn ms).2)

theorem runOn_append (ms : List Member) : (runOn ms).1 ++ (runOn ms).2 = ms := by
  fun_induction runOn ms with
  | case1 => rfl
  | case2 => rfl
  | case3 m ms _ ih => exact congrArg (m :: ·) ih

theorem runOn_snd_length_le (ms : List Member) : (runOn ms).2.length ≤ ms.length := by
  have h := congrArg List.length (runOn_append ms)
  rw [List.length_append] at h
  omega

/-- The members that the reader comes to. -/
def kept : List Member → List Member
  | [] => []
  | m :: ms =>
    have := runOn_snd_length_le ms
    if m.isAdapted then m :: kept (runOn ms).2 else m :: kept ms
termination_by ms => ms.length

/-- The members that the reader passes over behind a use with adaptations. -/
def lost : List Member → List Member
  | [] => []
  | m :: ms =>
    have := runOn_snd_length_le ms
    if m.isAdapted then (runOn ms).1 ++ lost (runOn ms).2 else lost ms
termination_by ms => ms.length

theorem kept_sublist (ms : List Member) : (kept ms).Sublist ms := by
  fun_induction kept ms with
  | case1 => exact .slnil
  | case2 m ms _ _ ih =>
    have hrest : (runOn ms).2.Sublist ms := by
      have h := List.sublist_append_right (runOn ms).1 (runOn ms).2
      rwa [runOn_append] at h
    exact (ih.trans hrest).cons_cons m
  | case3 m ms _ _ ih => exact ih.cons_cons m

theorem kept_append_lost_perm (ms : List Member) : (kept ms ++ lost ms).Perm ms := by
  fun_induction kept ms with
  | case1 => rw [lost]; exact .nil
  | case2 m ms _ hadapted ih =>
    rw [lost, if_pos hadapted, List.cons_append]
    refine .cons m ?_
    have hms := List.Perm.append_left (runOn ms).1 ih
    rw [runOn_append] at hms
    refine List.Perm.trans ?_ hms
    rw [← List.append_assoc, ← List.append_assoc]
    exact List.perm_append_comm.append_right _
  | case3 m ms _ hadapted ih =>
    rw [lost, if_neg hadapted]
    exact ih.cons m

/-- All of something is kept exactly if nothing of it is lost. -/
theorem filterMap_kept_eq_iff {α : Type} (f : Member → Option α) (ms : List Member) :
    (kept ms).filterMap f = ms.filterMap f ↔ (lost ms).filterMap f = [] := by
  have hlength := ((kept_append_lost_perm ms).filterMap f).length_eq
  rw [List.filterMap_append, List.length_append] at hlength
  constructor
  · intro heq
    rw [heq] at hlength
    exact List.eq_nil_of_length_eq_zero (by omega)
  · intro hnil
    rw [hnil, List.length_nil, Nat.add_zero] at hlength
    exact ((kept_sublist ms).filterMap f).eq_of_length hlength

theorem declared_kept_eq_iff (ctx : Context) (ms : List Member) :
    declared ctx (kept ms) = declared ctx ms ↔ ∀ m ∈ lost ms, m.isQuiet = true := by
  have hquiet (m : Member) : m.isQuiet = true ↔ m.case? ctx = none ∧ m.method? = none := by
    cases m <;> simp [Member.isQuiet, Member.case?, Member.method?]
  simp only [declared, Members.mk.injEq, filterMap_kept_eq_iff, List.filterMap_eq_nil_iff, hquiet,
    forall_and]

end Written

end FrontendSync.Php
