import FrontendSync.Proofs.Php.Imports
import FrontendSync.Proofs.Php.Members.Enum

/-!
# Namespaces of enums

The reader of a file counts braces and takes every word `namespace` for a declaration, also one that
names a member or an argument.  Code with balanced braces is followed here from the imports of a
namespace to an enum behind it: the enum is in the namespace and has its imports exactly if that
word does not stand in the code.
-/

namespace FrontendSync.Php

/-! ## From place to place -/

/-- What holds for the declarations to come: the scope, and the open braces. -/
structure Heading where
  scope : Scope
  depth : Nat
  block : Option Nat

namespace Heading

/-- Imports stand at this depth of braces. -/
def importDepth (h : Heading) : Nat := h.block.elim 0 (· + 1)

/-- The heading within another brace. -/
def inner (h : Heading) : Heading := { h with depth := h.depth + 1 }

/-- The heading with more imports. -/
def importing (h : Heading) (imports : List (String × String)) : Heading :=
  { h with scope := { h.scope with imports := Ordered.insertAll h.scope.imports imports } }

theorem importing_importing (h : Heading) (imports more : List (String × String)) :
    (h.importing imports).importing more = h.importing (imports ++ more) := by
  simp [importing, Ordered.insertAll, List.foldl_append]

end Heading

namespace FileState

def heading (s : FileState) : Heading := ⟨s.scope, s.depth, s.block⟩

@[simp] theorem heading_dropPending (s : FileState) : s.dropPending.heading = s.heading := rfl

@[simp] theorem heading_openBrace (s : FileState) : s.openBrace.heading = s.heading.inner := rfl

/-- The last brace closes no namespace that was opened before it. -/
theorem heading_closeBrace {s : FileState} {h : Heading} (hs : s.heading = h.inner)
    (hdepth : h.importDepth ≤ h.depth) : s.closeBrace.heading = h := by
  obtain ⟨scope, depth, block⟩ := h
  obtain ⟨hscope, hinner, hblock⟩ : s.scope = scope ∧ s.depth = depth + 1 ∧ s.block = block := by
    simpa [heading, Heading.inner] using hs
  have hopen : block ≠ some depth := by
    rintro rfl
    simp [Heading.importDepth] at hdepth
  simp [closeBrace, heading, hscope, hinner, hblock, hopen]

theorem importDepth_heading (s : FileState) : s.heading.importDepth = s.importDepth := by
  rw [Heading.importDepth, importDepth, heading]
  cases s.block <;> rfl

theorem space_enterNamespace (s : FileState) (ts : List Token) :
    (s.enterNamespace ts).scope.space = ts.head?.bind Token.name? := by
  have hname : (spaceName ts).1 = ts.head?.bind Token.name? := by
    cases ts with
    | nil => rfl
    | cons t rest => cases h : t.name? <;> simp [spaceName, h]
  rw [← hname, enterNamespace]
  split
  split <;> simp_all

end FileState

namespace SourceFile

/-- The reader comes from a state before some tokens to one before those that are left over. -/
inductive Comes : FileState → List Token → FileState → List Token → Prop
  | refl {s : FileState} {ts : List Token} : Comes s ts s ts
  | head {s s' : FileState} {t : Token} {ts us : List Token} :
      Comes (step s t ts).state (step s t ts).rest s' us → Comes s (t :: ts) s' us

namespace Comes

variable {s s₁ s₂ : FileState} {ts us vs : List Token}

theorem single {t : Token} (h : (step s t ts).rest = us) :
    Comes s (t :: ts) (step s t ts).state us := .head (h ▸ .refl)

theorem of_step_eq {t : Token} {e : Option EnumDecl} (h : step s t ts = ⟨e, s₁, us⟩) :
    Comes s (t :: ts) s₁ us := .head (by rw [h]; exact .refl)

theorem trans (h : Comes s ts s₁ us) (h' : Comes s₁ us s₂ vs) : Comes s ts s₂ vs := by
  induction h with
  | refl => exact h'
  | head _ ih => exact .head (ih h')

theorem suffix (h : Comes s ts s₁ us) : us <:+ ts := by
  induction h with
  | refl => exact List.suffix_refl _
  | @head s _ t ts _ _ ih => exact (ih.trans (step_suffix s t ts)).trans (List.suffix_cons t ts)

/-- Of two places to which the reader comes it comes to one from the other. -/
theorem of_length_le (h : Comes s ts s₁ us) (h' : Comes s ts s₂ vs)
    (hlength : vs.length ≤ us.length) : Comes s₁ us s₂ vs := by
  induction h with
  | refl => exact h'
  | @head s s₁ t ts us hus ih =>
    cases h' with
    | refl =>
      have hshort := (hus.suffix.trans (step_suffix _ t ts)).length_le
      simp only [List.length_cons] at hlength
      omega
    | head h' => exact ih h' hlength

end Comes

theorem mem_places_iff {s : FileState} {ts : List Token} {place : Place} :
    place ∈ places s ts ↔ Comes s ts place.state (place.token :: place.behind) := by
  constructor
  · intro h
    fun_induction places s ts with
    | case1 => simp at h
    | case2 s t ts _ next ih =>
      rcases List.mem_cons.mp h with rfl | h
      · exact .refl
      · exact .head (ih h)
  · obtain ⟨state, token, behind⟩ := place
    simp only
    intro h
    generalize htokens : token :: behind = us at h
    induction h with
    | refl =>
      rw [← htokens, places_cons]
      exact List.mem_cons_self
    | head _ ih =>
      rw [places_cons]
      exact List.mem_cons_of_mem _ (ih htokens)

/-- A step leaves the namespace, ends it, or enters one. -/
theorem space_step (s : FileState) (t : Token) (rest : List Token) :
    (step s t rest).state.scope.space = s.scope.space ∨
      (step s t rest).state.scope.space = none ∨
      t.keyword? = some "namespace" ∧
        (step s t rest).state.scope.space = rest.head?.bind Token.name? := by
  fun_cases step s t rest with
  | case4 =>
    by_cases hblock : s.block = some (s.depth - 1)
    · simp [FileState.closeBrace, FileState.dropPending, hblock, Scope.empty]
    · simp [FileState.closeBrace, FileState.dropPending, hblock]
  | case5 word hkind hword =>
    exact .inr (.inr ⟨by simp [Token.keyword?, Token.name?, hkind, hword],
      s.space_enterNamespace rest⟩)
  | case6 =>
    refine .inl ?_
    simp only [Scope.addImports]
    split <;> rfl
  | _ => exact .inl rfl

/-- Once the reader is out of a namespace, it is not in it later on, unless a word `namespace` in
between enters it again. -/
theorem Comes.space_ne {s s' : FileState} {ts us : List Token} (h : Comes s ts s' us)
    {name : String}
    (hagain : ∀ t after, t :: after <:+ ts → us <:+ after → t.keyword? = some "namespace" →
      after.head?.bind Token.name? ≠ some name)
    (hs : s.scope.space ≠ some name) : s'.scope.space ≠ some name := by
  induction h with
  | refl => exact hs
  | @head s s' t ts us hcomes ih =>
    have hrest := step_suffix s t ts
    refine ih (fun t' after hafter ↦ hagain t' after ?_) ?_
    · exact (hafter.trans hrest).trans (List.suffix_cons t ts)
    · rcases space_step s t ts with hspace | hspace | ⟨hword, hspace⟩
      · rwa [hspace]
      · simp [hspace]
      · rw [hspace]
        exact hagain t ts (List.suffix_refl _) (hcomes.suffix.trans hrest) hword

end SourceFile

/-! ## Code -/

namespace Written

/-- A token that opens and closes nothing that the reader of files counts. -/
abbrev Ordinary :=
  { t : Token // (t.isPunct .braceOpen || t.isPunct .braceClose || t.isPunct .attributeOpen)
      = false }

/-- What the reader takes for an enum: the word with a name behind it, and braces before those
around it are closed. -/
structure EnumLike where
  keyword : Keyword "enum"
  name : Name
  head : List Token
  flat : ∀ t ∈ head, t.isPunct .braceOpen = false ∧ t.isPunct .braceClose = false
  typed : ∀ t, head = [t] → t.isPunct .colon = false
  opener : Mark .braceOpen
  inside : Block
  closer : Mark .braceClose

namespace EnumLike

/-- The tokens behind the keyword. -/
def behind (e : EnumLike) : List Token :=
  e.name.token :: (e.head ++ e.opener.1 :: (e.inside.tokens ++ [e.closer.1]))

def tokens (e : EnumLike) : List Token := e.keyword.1 :: e.behind

end EnumLike

/-- Code with balanced braces and groups of attributes. -/
inductive Code where
  | nil
  | token (t : Ordinary) (rest : Code)
  | attributes (opener : Mark .attributeOpen) (inside : Block) (closer : Mark .bracketClose)
      (rest : Code)
  | enum (e : EnumLike) (rest : Code)
  | braces (opener : Mark .braceOpen) (inside : Code) (closer : Mark .braceClose) (rest : Code)

namespace Code

def tokens : Code → List Token
  | nil => []
  | token t rest => t.1 :: rest.tokens
  | attributes opener inside closer rest =>
    opener.1 :: (inside.tokens ++ closer.1 :: rest.tokens)
  | enum e rest => e.tokens ++ rest.tokens
  | braces opener inside closer rest => opener.1 :: (inside.tokens ++ closer.1 :: rest.tokens)

/-- The ordinary tokens, inside of braces or not. -/
def words : Code → List Token
  | nil => []
  | token t rest => t.1 :: rest.words
  | attributes _ _ _ rest | enum _ rest => rest.words
  | braces _ inside _ rest => inside.words ++ rest.words

/-- The ordinary tokens outside of all braces. -/
def outer : Code → List Token
  | nil => []
  | token t rest => t.1 :: rest.outer
  | attributes _ _ _ rest | enum _ rest | braces _ _ _ rest => rest.outer

/-- In front of the tokens `after`, no other word `enum` has a name behind it. -/
def DeclaresNothing (after : List Token) : Code → Prop
  | nil => True
  | token t rest =>
    (t.1.keyword? = some "enum" → (rest.tokens ++ after).head?.bind Token.name? = none) ∧
      rest.DeclaresNothing after
  | attributes _ _ _ rest | enum _ rest => rest.DeclaresNothing after
  | braces _ inside closer rest =>
    inside.DeclaresNothing (closer.1 :: (rest.tokens ++ after)) ∧ rest.DeclaresNothing after

theorem declaresNothing_of_forall {c : Code} (h : ∀ t ∈ c.words, t.keyword? ≠ some "enum")
    (after : List Token) : c.DeclaresNothing after := by
  induction c generalizing after with
  | nil => trivial
  | token t rest ih =>
    obtain ⟨ht, hrest⟩ := List.forall_mem_cons.mp h
    exact ⟨fun hword ↦ absurd hword ht, ih hrest after⟩
  | attributes _ _ _ rest ih | enum _ rest ih => exact ih h after
  | braces _ inside closer rest ihInside ih =>
    obtain ⟨hinside, hrest⟩ := List.forall_mem_append.mp h
    exact ⟨ihInside hinside _, ih hrest after⟩

end Code

/-! ## The reader in code -/

open SourceFile (step Comes)

/-- At an ordinary token that declares nothing the reader keeps the heading. -/
theorem Ordinary.step_eq (t : Ordinary) {s : FileState} {rest : List Token}
    (hspace : t.1.keyword? ≠ some "namespace")
    (huse : s.heading.depth = s.heading.importDepth → t.1.keyword? ≠ some "use")
    (henum : t.1.keyword? = some "enum" → rest.head?.bind Token.name? = none) :
    (step s t.1 rest).rest = rest ∧ (step s t.1 rest).state.heading = s.heading := by
  obtain ⟨t, hordinary⟩ := t
  simp only [Bool.or_eq_false_iff] at hordinary
  obtain ⟨⟨hopen, hclose⟩, hattributes⟩ := hordinary
  rw [s.importDepth_heading] at huse
  simp only [FileState.heading] at hspace huse henum ⊢
  fun_cases step s t rest with
  | case2 hkind => simp [Token.isPunct, hkind] at hattributes
  | case3 hkind => simp [Token.isPunct, hkind] at hopen
  | case4 hkind => simp [Token.isPunct, hkind] at hclose
  | case5 word hkind hword => simp [Token.keyword?, Token.name?, hkind, hword] at hspace
  | case6 word hkind hword hdepth =>
    simp [Token.keyword?, Token.name?, hkind, hword, hdepth] at huse
  | case8 word hkind hword r hr =>
    have hname := henum (by simp [Token.keyword?, Token.name?, hkind, hword])
    rw [EnumDecl.read?_eq_none_iff.mpr (.inl hname)] at hr
    simp at hr
  | _ => exact ⟨rfl, rfl⟩

/-- The type is read without the braces. -/
theorem EnumLike.exists_readType_append (e : EnumLike) (ts : List Token) :
    ∃ head, (∀ t ∈ head, t.isPunct .braceOpen = false) ∧
      (EnumDecl.readType (e.head ++ e.opener.1 :: ts)).2 = head ++ e.opener.1 :: ts := by
  have hflat : ∀ t ∈ e.head, t.isPunct .braceOpen = false := fun t ht ↦ (e.flat t ht).1
  have htyped := e.typed
  match e.head, hflat, htyped with
  | [], hflat, _ =>
    exact ⟨[], hflat, by simp [EnumDecl.readType, e.opener.isPunct_eq]⟩
  | [t], hflat, htyped =>
    exact ⟨[t], hflat, by simp [EnumDecl.readType, htyped t rfl]⟩
  | t :: u :: head, hflat, _ =>
    by_cases hcolon : t.isPunct .colon = true
    · refine ⟨head, fun v hv ↦ hflat v (by simp [hv]), ?_⟩
      simp [EnumDecl.readType, hcolon]
    · exact ⟨t :: u :: head, hflat, by simp [EnumDecl.readType, hcolon]⟩

theorem EnumLike.step_eq (e : EnumLike) (s : FileState) (rest : List Token) :
    (step s e.keyword.1 (e.behind ++ rest)).rest = rest ∧
      (step s e.keyword.1 (e.behind ++ rest)).state.heading = s.heading := by
  obtain ⟨word, hkind, hword⟩ := Token.exists_of_keyword? e.keyword.2
  obtain ⟨head, hflat, htype⟩ :=
    e.exists_readType_append (e.inside.tokens ++ e.closer.1 :: rest)
  have hbraces := EnumDecl.braces?_append_of_nested hflat e.opener e.inside.nested e.closer rest
  have hread : ∃ r, EnumDecl.read? s.scope s.attributes s.doc (e.behind ++ rest) = some r ∧
      r.2 = rest := by
    simp [behind, EnumDecl.read?, e.name.name?_eq, EnumDecl.readNamed?, htype, hbraces]
  obtain ⟨r, hr, hrest⟩ := hread
  simp only [step, hkind, hword, hr, hrest]
  exact ⟨trivial, rfl⟩

/-- The reader comes through tokens with the words `ws` and has the heading `h` behind them, or it
comes to a word `namespace` among them. -/
inductive Passes (ws : List Token) (s : FileState) (ts : List Token)
    (h : Heading) (after : List Token) : Prop
  | through {s' : FileState} : Comes s ts s' after → s'.heading = h →
      (∀ t ∈ ws, t.keyword? ≠ some "namespace") → Passes ws s ts h after
  | stopped {s' : FileState} {t : Token} {us : List Token} : Comes s ts s' (t :: us) →
      after <:+ us → t ∈ ws → t.keyword? = some "namespace" → Passes ws s ts h after

namespace Passes

variable {s : FileState} {ts us after ws vs : List Token} {h h' : Heading}

theorem of_step {t : Token} (hrest : (step s t ts).rest = us)
    (hheading : (step s t ts).state.heading = h) : Passes [] s (t :: ts) h us :=
  .through (.single hrest) hheading (by simp)

theorem trans (hs : Passes ws s ts h us) (hafter : after <:+ us)
    (hus : ∀ s', s'.heading = h → Passes vs s' us h' after) :
    Passes (ws ++ vs) s ts h' after := by
  cases hs with
  | @through s' hcomes hheading hws =>
    cases hus s' hheading with
    | through hcomes' hheading' hvs =>
      exact .through (hcomes.trans hcomes') hheading' (List.forall_mem_append.mpr ⟨hws, hvs⟩)
    | stopped hcomes' hsuffix ht hspace =>
      exact .stopped (hcomes.trans hcomes') hsuffix (List.mem_append_right ws ht) hspace
  | stopped hcomes hsuffix ht hspace =>
    exact .stopped hcomes (hafter.trans hsuffix) (List.mem_append_left vs ht) hspace

theorem of_ordinary (t : Ordinary) (hs : s.heading = h)
    (huse : h.depth = h.importDepth → t.1.keyword? ≠ some "use")
    (henum : t.1.keyword? = some "enum" → ts.head?.bind Token.name? = none) :
    Passes [t.1] s (t.1 :: ts) h ts := by
  by_cases hspace : t.1.keyword? = some "namespace"
  · exact .stopped .refl (List.suffix_refl _) List.mem_cons_self hspace
  · obtain ⟨hrest, hheading⟩ := t.step_eq hspace (fun hdepth ↦ huse (hs ▸ hdepth)) henum
    exact .through (.single hrest) (hheading.trans hs) (by simpa using hspace)

theorem of_attributes (opener : Mark .attributeOpen) (inside : Block) (closer : Mark .bracketClose)
    (hs : s.heading = h) (ts : List Token) :
    Passes [] s (opener.1 :: (inside.tokens ++ closer.1 :: ts)) h ts := by
  have hgroup := Brackets.group_append_closer inside.nested closer.closes_eq ts
  refine .of_step ?_ ?_
  · simp only [step, opener.2, Attribute.readGroup, hgroup]
  · rw [← hs]
    simp only [step, opener.2]
    rfl

theorem of_opener (opener : Mark .braceOpen) (hs : s.heading = h) (ts : List Token) :
    Passes [] s (opener.1 :: ts) h.inner ts := by
  refine .of_step ?_ ?_
  · simp only [step, opener.2]
  · simp only [step, opener.2, FileState.heading_dropPending, FileState.heading_openBrace, hs]

theorem of_closer (closer : Mark .braceClose) (hdepth : h.importDepth ≤ h.depth)
    (hs : s.heading = h.inner) (ts : List Token) : Passes [] s (closer.1 :: ts) h ts := by
  refine .of_step ?_ ?_
  · simp only [step, closer.2]
  · simp only [step, closer.2, FileState.heading_dropPending]
    exact FileState.heading_closeBrace hs hdepth

end Passes

/-- The reader comes through code with the heading that it has, or to a word `namespace` in it. -/
theorem Code.passes (c : Code) {h : Heading} {after : List Token}
    (hdepth : h.importDepth ≤ h.depth)
    (huse : h.depth = h.importDepth → ∀ t ∈ c.outer, t.keyword? ≠ some "use")
    (henum : c.DeclaresNothing after) {s : FileState} (hs : s.heading = h) :
    Passes c.words s (c.tokens ++ after) h after := by
  induction c generalizing h s after with
  | nil => exact .through .refl hs (by simp [words])
  | token t rest ih =>
    have htoken := Passes.of_ordinary t hs (fun h ↦ huse h t.1 List.mem_cons_self) henum.1
    exact htoken.trans (List.suffix_append _ _) fun s' ↦
      ih hdepth (fun h t ht ↦ huse h t (List.mem_cons_of_mem _ ht)) henum.2
  | attributes opener inside closer rest ih =>
    have hgroup := Passes.of_attributes opener inside closer hs (rest.tokens ++ after)
    rw [tokens, List.cons_append, List.append_assoc, List.cons_append]
    exact hgroup.trans (List.suffix_append _ _) fun s' ↦ ih hdepth huse henum
  | enum e rest ih =>
    obtain ⟨hrest, hheading⟩ := e.step_eq s (rest.tokens ++ after)
    rw [tokens, EnumLike.tokens, List.append_assoc, List.cons_append]
    exact (Passes.of_step hrest (hheading.trans hs)).trans (List.suffix_append _ _) fun s' ↦
      ih hdepth huse henum
  | braces opener inside closer rest ihInside ih =>
    have hopener := Passes.of_opener opener hs (inside.tokens ++ closer.1 :: (rest.tokens ++ after))
    have hinside (s' : FileState) (hs' : s'.heading = h.inner) : Passes inside.words s'
        (inside.tokens ++ closer.1 :: (rest.tokens ++ after)) h.inner
          (closer.1 :: (rest.tokens ++ after)) := by
      refine ihInside ?_ (fun hout ↦ ?_) henum.1 hs'
      · exact hdepth.trans (Nat.le_succ _)
      · exact absurd hout (Nat.ne_of_gt (Nat.lt_succ_of_le hdepth))
    have hcloser (s' : FileState) (hs' : s'.heading = h.inner) :
        Passes rest.words s' (closer.1 :: (rest.tokens ++ after)) h after :=
      (Passes.of_closer closer hdepth hs' (rest.tokens ++ after)).trans (List.suffix_append _ _)
        fun s' ↦ ih hdepth huse henum.2
    have hafter : after <:+ closer.1 :: (rest.tokens ++ after) :=
      (List.suffix_append _ _).trans (List.suffix_cons _ _)
    rw [tokens, List.cons_append, List.append_assoc, List.cons_append]
    exact hopener.trans (hafter.trans (List.suffix_append _ _)) fun s' hs' ↦
      (hinside s' hs').trans hafter hcloser

/-! ## Files with a namespace -/

/-- A namespace begins with a semicolon or with a brace. -/
inductive SpaceStart where
  | statement (stop : Mark .semicolon)
  | block (opener : Mark .braceOpen)

namespace SpaceStart

def token : SpaceStart → Token
  | statement stop => stop.1
  | block opener => opener.1

end SpaceStart

/-- A file up to an enum: a namespace, imports, code, and the enum. -/
structure SpaceFile where
  keyword : Keyword "namespace"
  name : Name
  named : name.text ≠ ""
  start : SpaceStart
  uses : List Use
  code : Code
  enum : Enum

namespace SpaceFile

def tokens (w : SpaceFile) : List Token :=
  w.keyword.1 :: w.name.token :: w.start.token ::
    (w.uses.flatMap Use.tokens ++ (w.code.tokens ++ w.enum.tokens))

/-- The declared imports; of two with one alias the later one. -/
def imported (w : SpaceFile) : List (String × String) :=
  Ordered.ofList (w.uses.flatMap fun u ↦ u.text.imported)

/-- The heading behind the imports. -/
def heading (w : SpaceFile) : Heading :=
  match w.start with
  | .statement _ => ⟨⟨some w.name.text, w.imported⟩, 0, none⟩
  | .block _ => ⟨⟨some w.name.text, w.imported⟩, 1, some 0⟩

/-- An enum is declared in the namespace, with its imports. -/
structure IsKept (w : SpaceFile) (e : EnumDecl) : Prop where
  name : e.name = w.enum.name.text
  qualified : e.qualified = w.name.text ++ "\\" ++ w.enum.name.text
  space : e.scope.space = some w.name.text
  imports : ∀ i ∈ w.imported, i ∈ e.scope.imports

end SpaceFile

theorem exists_comes_uses (uses : List Use) {s : FileState} (hs : s.depth = s.importDepth)
    (rest : List Token) :
    ∃ s', Comes s (uses.flatMap Use.tokens ++ rest) s' rest ∧
      s'.heading = s.heading.importing (uses.flatMap fun u ↦ u.text.imported) := by
  induction uses generalizing s with
  | nil => exact ⟨s, .refl, rfl⟩
  | cons u uses ih =>
    have hstep := u.step_eq hs (uses.flatMap Use.tokens ++ rest)
    obtain ⟨s', hcomes, hheading⟩ := @ih { s with scope := { s.scope with
      imports := Ordered.insertAll s.scope.imports u.text.imported } } hs
    refine ⟨s', ?_, ?_⟩
    · rw [List.flatMap_cons, Use.tokens, List.cons_append, List.cons_append, List.append_assoc,
        List.append_assoc, List.singleton_append]
      exact .head (by rwa [hstep])
    · rw [List.flatMap_cons, ← Heading.importing_importing]
      exact hheading

namespace SpaceFile

variable (w : SpaceFile) (rest : List Token)

/-- Behind the imports the reader has the namespace and all of them. -/
theorem exists_comes_code : ∃ s, Comes FileState.start (w.tokens ++ rest) s
    (w.code.tokens ++ (w.enum.tokens ++ rest)) ∧ s.heading = w.heading := by
  let code := w.code.tokens ++ (w.enum.tokens ++ rest)
  obtain ⟨word, hkind, hword⟩ := Token.exists_of_keyword? w.keyword.2
  have hname : FileState.spaceName (w.name.token :: w.start.token ::
      (w.uses.flatMap Use.tokens ++ code))
        = (some w.name.text, w.start.token :: (w.uses.flatMap Use.tokens ++ code)) := by
    simp [FileState.spaceName, w.name.name?_eq]
  obtain ⟨s, hcomes, hdepth, hheading⟩ : ∃ s, Comes FileState.start
      (w.keyword.1 :: w.name.token :: w.start.token :: (w.uses.flatMap Use.tokens ++ code)) s
        (w.uses.flatMap Use.tokens ++ code) ∧ s.depth = s.importDepth ∧
          s.heading.importing (w.uses.flatMap fun u ↦ u.text.imported) = w.heading := by
    refine ⟨_, .single ?_, ?_⟩
    · simp only [step, hkind, hword, FileState.afterNamespace, hname, List.drop_one,
        List.tail_cons]
    · simp only [step, hkind, hword, FileState.enterNamespace, hname, heading, List.head?_cons,
        Option.any_some]
      cases w.start with
      | statement stop =>
        have hstop : stop.1.isPunct .braceOpen = false := stop.isPunct_eq _
        simp only [SpaceStart.token, hstop]
        exact ⟨rfl, rfl⟩
      | block opener =>
        have hopener : opener.1.isPunct .braceOpen = true := opener.isPunct_eq _
        simp only [SpaceStart.token, hopener]
        exact ⟨rfl, rfl⟩
  obtain ⟨s', hcomes', hheading'⟩ := exists_comes_uses w.uses hdepth code
  refine ⟨s', ?_, hheading'.trans hheading⟩
  have htokens : w.tokens ++ rest = w.keyword.1 :: w.name.token :: w.start.token ::
      (w.uses.flatMap Use.tokens ++ code) := by simp [tokens, code]
  rw [htokens]
  exact hcomes.trans hcomes'

/-- The code begins at the depth of imports. -/
theorem importDepth_heading : w.heading.importDepth = w.heading.depth := by
  rw [heading]
  cases w.start <;> rfl

variable {w rest}

/-- No word `namespace` in front of the enum has the declared namespace behind it. -/
def EntersOnce (w : SpaceFile) : Prop :=
  ∀ t u, [t, u] <:+: w.code.tokens ++ [w.enum.keyword.1] → t.keyword? = some "namespace" →
    u.name? ≠ some w.name.text

theorem EntersOnce.head_ne (h : w.EntersOnce) {t : Token} {after : List Token}
    (hsuffix : t :: after <:+ w.code.tokens ++ (w.enum.tokens ++ rest))
    (hafter : w.enum.tokens ++ rest <:+ after) (hword : t.keyword? = some "namespace") :
    after.head?.bind Token.name? ≠ some w.name.text := by
  obtain ⟨middle, rfl⟩ := hafter
  obtain ⟨init, hinit⟩ := hsuffix
  have hcode : w.code.tokens = init ++ t :: middle := by
    have heq : w.code.tokens ++ (w.enum.tokens ++ rest)
        = (init ++ t :: middle) ++ (w.enum.tokens ++ rest) := by simp [← hinit]
    exact List.append_cancel_right heq
  cases middle with
  | nil => exact h t w.enum.keyword.1 ⟨init, [], by simp [hcode]⟩ hword
  | cons u middle =>
    exact h t u ⟨init, middle ++ [w.enum.keyword.1], by simp [hcode]⟩ hword

end SpaceFile

/-- A source declares an enum where some of its tokens are left over. -/
def DeclaresAt (source : String) (ts : List Token) (e : EnumDecl) : Prop :=
  ∃ place ∈ SourceFile.places FileState.start (Php.tokens source),
    place.token :: place.behind = ts ∧ place.declared = some e

/-- Where the reader comes to an enum, it is declared. -/
theorem Enum.declaresAt_declared (w : Enum) {source : String} {s : FileState} {rest : List Token}
    (h : Comes FileState.start (Php.tokens source) s (w.tokens ++ rest)) :
    SourceFile.declared s w.name.text w.backing w.bodyTokens ∈ (SourceFile.ofSource source).enums ∧
      DeclaresAt source (w.tokens ++ rest)
        (SourceFile.declared s w.name.text w.backing w.bodyTokens) := by
  let place : SourceFile.Place := ⟨s, w.keyword.1, (w.tokens ++ rest).tail⟩
  have hplace : place ∈ SourceFile.places FileState.start (Php.tokens source) :=
    SourceFile.mem_places_iff.mpr h
  have hdeclared : place.declared = some _ := w.declared_step s rest rfl
  refine ⟨?_, place, hplace, rfl, hdeclared⟩
  rw [SourceFile.ofSource, SourceFile.ofTokens, SourceFile.enums_read_places]
  exact List.mem_filterMap.mpr ⟨place, hplace, hdeclared⟩

namespace SpaceFile

variable {w : SpaceFile} {rest : List Token}

theorem isKept_declared {s : FileState} (h : s.heading = w.heading) (backing : Option Backing)
    (body : List Token) :
    w.IsKept (SourceFile.declared s w.enum.name.text backing body) := by
  have hscope : s.scope = ⟨some w.name.text, w.imported⟩ := by
    have hscope := congrArg Heading.scope h
    rw [heading] at hscope
    split at hscope <;> exact hscope
  constructor
  · rfl
  · rw [SourceFile.declared, hscope]
    simp [Name.inside, w.named]
  · rw [SourceFile.declared, hscope]
  · intro i hi
    rwa [SourceFile.declared, hscope]

/-- At a word `namespace` in the code the reader leaves the namespace, and is not in it again at the
enum. -/
theorem EntersOnce.space_ne (h : w.EntersOnce) {s s' : FileState} {t : Token} {us : List Token}
    (hcode : t :: us <:+ w.code.tokens ++ (w.enum.tokens ++ rest))
    (hafter : w.enum.tokens ++ rest <:+ us) (hword : t.keyword? = some "namespace")
    (hbehind : Comes s (t :: us) s' (w.enum.tokens ++ rest)) :
    s'.scope.space ≠ some w.name.text := by
  have hstep : Comes (step s t us).state (step s t us).rest s' (w.enum.tokens ++ rest) := by
    generalize w.enum.tokens ++ rest = vs at hafter hbehind
    cases hbehind with
    | refl => exact absurd hafter.length_le (by simp)
    | head hbehind => exact hbehind
  have hleft : (step s t us).state.scope.space ≠ some w.name.text := by
    obtain ⟨word, hkind, hname⟩ := Token.exists_of_keyword? hword
    simp only [step, hkind, hname, FileState.space_enterNamespace]
    exact h.head_ne hcode hafter hword
  have hrest := (SourceFile.step_suffix s t us).trans (List.suffix_cons t us)
  exact hstep.space_ne (fun t' after ht' hafter' hword' ↦
    h.head_ne ((ht'.trans hrest).trans hcode) hafter' hword') hleft

/-- An enum in code of a namespace is declared in this namespace, with its imports, exactly if no
word `namespace` stands in the code in front of it, not even as the name of a member.  The code has
no word `use` outside of braces, and a word `enum` with a name behind it has braces of its own. -/
theorem exists_isKept_iff {source : String} (hsource : Php.tokens source = w.tokens ++ rest)
    (huse : ∀ t ∈ w.code.outer, t.keyword? ≠ some "use")
    (henum : w.code.DeclaresNothing (w.enum.tokens ++ rest)) (hspace : w.EntersOnce) :
    (∃ e ∈ (SourceFile.ofSource source).enums,
        DeclaresAt source (w.enum.tokens ++ rest) e ∧ w.IsKept e)
      ↔ ∀ t ∈ w.code.words, t.keyword? ≠ some "namespace" := by
  obtain ⟨s, hstart, hheading⟩ := w.exists_comes_code rest
  rw [← hsource] at hstart
  have hpasses := w.code.passes w.importDepth_heading.le (fun _ ↦ huse) henum hheading
  constructor
  · rintro ⟨e, -, ⟨place, hplace, htokens, hdeclared⟩, hkept⟩
    have hcomes := SourceFile.mem_places_iff.mp hplace
    rw [htokens] at hcomes
    cases hpasses with
    | through _ _ hwords => exact hwords
    | @stopped s' t us hcode hafter _ hword =>
      have hlength : (w.enum.tokens ++ rest).length ≤ (t :: us).length :=
        (hafter.trans (List.suffix_cons t us)).length_le
      have hbehind := (hstart.trans hcode).of_length_le hcomes hlength
      have hout := hspace.space_ne hcode.suffix hafter hword hbehind
      have he := w.enum.declared_step place.state rest htokens
      obtain rfl := Option.some.inj (hdeclared.symm.trans he)
      exact absurd hkept.space hout
  · intro hwords
    cases hpasses with
    | @through s' hcode hheading' _ =>
      let place : SourceFile.Place :=
        ⟨s', w.enum.keyword.1, (w.enum.tokens ++ rest).tail⟩
      have hplace : place ∈ SourceFile.places FileState.start (Php.tokens source) :=
        SourceFile.mem_places_iff.mpr (hstart.trans hcode)
      have hdeclared : place.declared = some _ := w.enum.declared_step s' rest rfl
      refine ⟨_, ?_, ⟨place, hplace, rfl, hdeclared⟩, isKept_declared hheading' _ _⟩
      rw [SourceFile.ofSource, SourceFile.ofTokens, SourceFile.enums_read_places]
      exact List.mem_filterMap.mpr ⟨place, hplace, hdeclared⟩
    | stopped _ _ ht hword => exact absurd hword (hwords _ ht)

/-! ## Two files -/

/-- An ordinary token on the first line. -/
def ordinaryFirst (k : Token.Kind)
    (h : ((⟨k, 1⟩ : Token).isPunct .braceOpen || (⟨k, 1⟩ : Token).isPunct .braceClose ||
      (⟨k, 1⟩ : Token).isPunct .attributeOpen) = false) : Ordinary := ⟨⟨k, 1⟩, h⟩

def bracesOf (inside rest : Code) : Code :=
  .braces (markFirst .braceOpen) inside (markFirst .braceClose) rest

/-- A function without parameters, with the words in front of its body and what follows it. -/
def functionOf (words : List Ordinary) (inside rest : Code) : Code :=
  ([ordinaryFirst (.name "function") rfl] ++ words).foldr .token (bracesOf inside rest)

/-- The tokens of a statement up to its semicolon. -/
def statementOf (words : List Ordinary) : Code :=
  (words ++ [ordinaryFirst (.punct .semicolon) rfl]).foldr .token .nil

def parentheses : List Ordinary :=
  [ordinaryFirst (.punct .parenOpen) rfl, ordinaryFirst (.punct .parenClose) rfl]

/-- A class `A` with a method `f` that has the given body. -/
def methodOf (body : Code) : Code :=
  [ordinaryFirst (.name "class") rfl, ordinaryFirst (.name "A") rfl].foldr .token
    (bracesOf (functionOf (ordinaryFirst (.name "f") rfl :: parentheses) body .nil) .nil)

/-- An enum behind code in the namespace `App`. -/
def fileOf (uses : List Use) (code : Code) : SpaceFile where
  keyword := keywordFirst "namespace" (by decide +kernel)
  name := .first "App"
  named := by decide
  start := .statement (markFirst .semicolon)
  uses := uses
  code := code
  enum := enumOf []

theorem toLower_use : "use".toLower = "use" := by decide +kernel

/-- A method that returns a closure with a variable of its own. -/
def closureFile : SpaceFile :=
  fileOf
    [⟨keywordFirst "use" toLower_use, .classes ⟨⟨⟨.first "Lib\\Kit", by decide +kernel⟩,
      some (keywordFirst "as" (by decide +kernel), .first "Tool")⟩, []⟩, markFirst .semicolon⟩]
    (methodOf (.token (ordinaryFirst (.name "return") rfl) (functionOf
      (parentheses ++ [ordinaryFirst (.name "use") rfl, ordinaryFirst (.punct .parenOpen) rfl,
        ordinaryFirst (.var "x") rfl, ordinaryFirst (.punct .parenClose) rfl])
      (statementOf [ordinaryFirst (.name "return") rfl, ordinaryFirst (.var "x") rfl])
      (statementOf []))))

def closureSource : String :=
  "<?php namespace App; use Lib\\Kit as Tool; class A \x7b function f() \x7b "
    ++ "return function () use ($x) \x7b return $x; \x7d; \x7d \x7d enum E: string \x7b\x7d"

theorem isKept_closureSource :
    ∃ e ∈ (SourceFile.ofSource closureSource).enums,
      DeclaresAt closureSource closureFile.enum.tokens e ∧ closureFile.IsKept e := by
  have hsource : Php.tokens closureSource = closureFile.tokens ++ [] := by decide +kernel
  have hwords : ∀ t ∈ closureFile.code.tokens ++ [closureFile.enum.keyword.1],
      t.keyword? ≠ some "namespace" := by decide +kernel
  have hkept := exists_isKept_iff hsource (by decide +kernel) ?_ ?_
  · rw [List.append_nil] at hkept
    exact hkept.mpr (by decide +kernel)
  · exact Code.declaresNothing_of_forall (by decide +kernel) _
  · intro t u hpair hword
    exact absurd hword (hwords t (hpair.subset List.mem_cons_self))

/-- A method that returns a member with the name `namespace`. -/
def memberFile : SpaceFile :=
  fileOf [] (methodOf (statementOf [ordinaryFirst (.name "return") rfl,
    ordinaryFirst (.var "this") rfl, ordinaryFirst (.punct .arrow) rfl,
    ordinaryFirst (.name "namespace") rfl]))

def memberSource : String :=
  "<?php namespace App; class A \x7b function f() \x7b return $this->namespace; \x7d \x7d "
    ++ "enum E: string \x7b\x7d"

theorem not_isKept_memberSource :
    Php.tokens memberSource = memberFile.tokens ∧
      (SourceFile.ofSource memberSource).enums.map EnumDecl.qualified = ["E"] ∧
      ∀ e ∈ (SourceFile.ofSource memberSource).enums, ¬ memberFile.IsKept e := by
  have hqualified : (SourceFile.ofSource memberSource).enums.map EnumDecl.qualified = ["E"] := by
    decide +kernel
  refine ⟨by decide +kernel, hqualified, fun e he hkept ↦ ?_⟩
  have hmem : e.qualified ∈ ["E"] := hqualified ▸ List.mem_map_of_mem he
  rw [hkept.qualified] at hmem
  revert hmem
  decide +kernel

end SpaceFile

end Written

end FrontendSync.Php
