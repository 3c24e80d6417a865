import FrontendSync.Php.Declaration.File
import FrontendSync.Php.EnumNames
import FrontendSync.Proofs.Lists
import FrontendSync.Proofs.Php.Declaration

/-!
# Scanned and declared names

The scan for names looks at every token of a source, while the reader of declarations takes the
body of an enum, an attribute or an import in one step.  Both are followed step by step of the
reader here: they agree on a source exactly if they agree at each step, that is if the scan finds
the enum that is declared there and nothing else among the tokens of the step.
-/

namespace FrontendSync.Php

/-! ## Steps of the reader -/

namespace EnumDecl

variable {scope : Scope} {attributes : List Attribute} {doc : Option String} {ts : List Token}
  {r : EnumDecl × List Token}

/-- There is an enum exactly if there is a name, and braces behind it and its type. -/
theorem read?_eq_none_iff :
    read? scope attributes doc ts = none
      ↔ ts.head?.bind Token.name? = none ∨ braces? (readType ts.tail).2 = none := by
  cases ts with
  | nil => simp [read?]
  | cons t rest => cases hname : t.name? <;> simp [read?, readNamed?, hname]

theorem name_of_read? (h : read? scope attributes doc ts = some r) :
    ts.head?.bind Token.name? = some r.1.name := by
  obtain ⟨t, rest, name, group, rfl, hname, -, members, -, rfl⟩ := exists_of_read? h
  exact hname

end EnumDecl

namespace SourceFile

/-- What the reader does at a token: the enum that it declares, if any, and the state and the
tokens with which it goes on. -/
structure Step where
  declared : Option EnumDecl
  state : FileState
  rest : List Token

def step (s : FileState) (t : Token) (rest : List Token) : Step :=
  match t.kind with
  | .docComment raw => ⟨none, { s with doc := DocComment.text? raw }, rest⟩
  | .punct .attributeOpen =>
    let group := Attribute.readGroup (attributeContext s.scope) rest
    ⟨none, { s with attributes := s.attributes ++ group.1 }, group.2⟩
  | .punct .braceOpen => ⟨none, s.openBrace.dropPending, rest⟩
  | .punct .braceClose => ⟨none, s.closeBrace.dropPending, rest⟩
  | .name word =>
    match word.toLower with
    | "namespace" => ⟨none, s.enterNamespace rest, FileState.afterNamespace rest⟩
    | "use" =>
      if s.depth = s.importDepth then
        ⟨none, { s with scope := s.scope.addImports rest },
          (Brackets.splitAt (Token.isPunct .semicolon) rest).2⟩
      else ⟨none, s.dropPending, rest⟩
    | "enum" =>
      match EnumDecl.read? s.scope s.attributes s.doc rest with
      | some r => ⟨some r.1, s.dropPending, r.2⟩
      | none => ⟨none, s.dropPending, rest⟩
    | "final" | "readonly" | "abstract" => ⟨none, s, rest⟩
    | _ => ⟨none, s.dropPending, rest⟩
  | _ => ⟨none, s.dropPending, rest⟩

theorem step_suffix (s : FileState) (t : Token) (rest : List Token) :
    (step s t rest).rest <:+ rest := by
  fun_cases step s t rest with
  | case2 => exact Brackets.group_suffix 0 rest
  | case5 => exact FileState.afterNamespace_suffix rest
  | case6 => exact Brackets.splitAt_suffix _ rest
  | case8 _ _ _ _ hr => exact EnumDecl.read?_suffix hr
  | _ => exact List.suffix_refl rest

theorem enums_read_cons (s : FileState) (t : Token) (rest : List Token) :
    (read s (t :: rest)).enums = (step s t rest).declared.toList
      ++ (read (step s t rest).state (step s t rest).rest).enums := by
  rw [read.eq_def]
  fun_cases step s t rest with
  | case2 hkind => simp only [hkind]; rfl
  | case8 word hkind hword r hr | case9 word hkind hword hr =>
    simp only [hkind, hword]
    split <;> simp_all [addEnum]
  | _ => simp_all

/-- The enum that is declared at a word. -/
theorem declared_step (s : FileState) (t : Token) (rest : List Token) :
    (step s t rest).declared = if t.keyword? = some "enum" then
      (EnumDecl.read? s.scope s.attributes s.doc rest).map Prod.fst else none := by
  fun_cases step s t rest <;> simp_all [Token.keyword?, Token.name?]

end SourceFile

/-! ## Steps of the scan -/

namespace EnumNames

/-- What the scan knows between two tokens: the namespace, and whether the token before accesses a
member. -/
structure Scan where
  space : Option String
  member : Bool

namespace Scan

def start : Scan := ⟨none, false⟩

/-- The names among `ts`. -/
def among (c : Scan) (ts : List Token) : List String := EnumNames.among c.space c.member ts

/-- The name that is declared at a token, before the tokens `ts`. -/
def name? (c : Scan) (t : Token) (ts : List Token) : Option String :=
  if t.keyword? = some "enum" ∧ c.member = false then declared? c.space ts else none

/-- The scan behind a token, before the tokens `ts`. -/
def step (c : Scan) (t : Token) (ts : List Token) : Scan :=
  match t.keyword? with
  | some "namespace" => ⟨(ts.head?.bind Token.name?).map Name.dropRoot, false⟩
  | some "enum" => ⟨c.space, false⟩
  | _ => ⟨c.space, isMemberAccess t⟩

theorem among_cons (c : Scan) (t : Token) (ts : List Token) :
    c.among (t :: ts) = (c.name? t ts).toList ++ (c.step t ts).among ts := by
  rw [among, EnumNames.among, name?]
  fun_cases step c t ts <;> simp_all [among]
  split <;> simp_all

/-- The names among tokens before the tokens `rest`. -/
def found (c : Scan) (rest : List Token) : List Token → List String
  | [] => []
  | t :: ts => (c.name? t (ts ++ rest)).toList ++ (c.step t (ts ++ rest)).found rest ts

/-- The scan behind tokens before the tokens `rest`. -/
def after (c : Scan) (rest : List Token) : List Token → Scan
  | [] => c
  | t :: ts => (c.step t (ts ++ rest)).after rest ts

theorem among_append (c : Scan) (ts rest : List Token) :
    c.among (ts ++ rest) = c.found rest ts ++ (c.after rest ts).among rest := by
  induction ts generalizing c with
  | nil => rfl
  | cons t ts ih => rw [List.cons_append, among_cons, ih, found, after, List.append_assoc]

end Scan

end EnumNames

/-! ## Stops -/

namespace SourceFile

/-- A place in a source from which the reader takes a step. -/
structure Stop where
  /-- The token there. -/
  token : Token
  /-- The tokens behind it that the step passes over. -/
  passed : List Token
  /-- The tokens after the step. -/
  rest : List Token
  /-- The enum that is declared by the step. -/
  declared : Option EnumDecl
  /-- The scan before the token. -/
  scan : EnumNames.Scan

namespace Stop

/-- The names that the scan finds among the tokens of the step. -/
def found (stop : Stop) : List String := stop.scan.found stop.rest (stop.token :: stop.passed)

/-- Those of them that are not declared at the token itself. -/
def foundBehind (stop : Stop) : List String :=
  (stop.scan.step stop.token (stop.passed ++ stop.rest)).found stop.rest stop.passed

/-- The word for an enum with a name behind it is the head of an enum: the name is plain and not
that of a member, and braces follow, behind a type if there is one. -/
def IsHead (stop : Stop) : Prop :=
  let ahead := stop.passed ++ stop.rest
  stop.token.keyword? = some "enum" → ∀ name ∈ ahead.head?.bind Token.name?,
    name.toList.contains '\\' = false ∧ stop.scan.member = false ∧
      EnumDecl.braces? (EnumDecl.readType ahead.tail).2 ≠ none

instance (stop : Stop) : Decidable stop.IsHead := by
  unfold IsHead
  infer_instance

/-- The scan has the namespace of the enum that is declared, and finds no enum among the tokens
that are passed over. -/
structure Agrees (stop : Stop) : Prop where
  space : ∀ e ∈ stop.declared, Name.inside stop.scan.space e.name = e.qualified
  passed : stop.foundBehind = []

end Stop

/-- The stops of the reader. -/
def stops (s : FileState) (c : EnumNames.Scan) : List Token → List Stop
  | [] => []
  | t :: ts =>
    have := (step_suffix s t ts).length_le
    let next := step s t ts
    let passed := ts.take (ts.length - next.rest.length)
    ⟨t, passed, next.rest, next.declared, c⟩ ::
      stops next.state (c.after next.rest (t :: passed)) next.rest
termination_by ts => ts.length

def stopsOfSource (source : String) : List Stop :=
  stops FileState.start EnumNames.Scan.start (tokens source)

theorem take_append_rest (s : FileState) (t : Token) (ts : List Token) :
    ts.take (ts.length - (step s t ts).rest.length) ++ (step s t ts).rest = ts := by
  have hrest := List.suffix_iff_eq_drop.mp (step_suffix s t ts)
  exact (congrArg (ts.take _ ++ ·) hrest).trans (List.take_append_drop _ ts)

theorem enums_read (s : FileState) (c : EnumNames.Scan) (ts : List Token) :
    (read s ts).enums = (stops s c ts).flatMap fun stop ↦ stop.declared.toList := by
  fun_induction stops s c ts with
  | case1 => rw [read.eq_def]; rfl
  | case2 s c t ts _ next passed ih => rw [enums_read_cons, List.flatMap_cons, ih]

theorem among_eq (s : FileState) (c : EnumNames.Scan) (ts : List Token) :
    c.among ts = (stops s c ts).flatMap Stop.found := by
  fun_induction stops s c ts with
  | case1 => rfl
  | case2 s c t ts _ next passed ih =>
    rw [List.flatMap_cons, ← ih, Stop.found, ← EnumNames.Scan.among_append]
    exact congrArg c.among (congrArg (t :: ·) (take_append_rest s t ts).symm)

/-- At the head of an enum the scan finds the name of the enum that the reader declares. -/
theorem name?_eq (s : FileState) (c : EnumNames.Scan) {t : Token} {ts : List Token}
    (h : t.keyword? = some "enum" → ∀ name ∈ ts.head?.bind Token.name?,
      name.toList.contains '\\' = false ∧ c.member = false ∧
        EnumDecl.braces? (EnumDecl.readType ts.tail).2 ≠ none) :
    c.name? t ts = (step s t ts).declared.map fun e ↦ Name.inside c.space e.name := by
  rw [EnumNames.Scan.name?, declared_step]
  by_cases hword : t.keyword? = some "enum"
  · rw [if_pos hword]
    cases hname : ts.head?.bind Token.name? with
    | none =>
      rw [EnumDecl.read?_eq_none_iff.mpr (.inl hname), EnumNames.declared?, hname]
      exact ite_self none
    | some name =>
      obtain ⟨hplain, hmember, hbraces⟩ := h hword name hname
      rw [if_pos ⟨hword, hmember⟩, EnumNames.declared?, hname, Option.bind_some, hplain]
      cases hread : EnumDecl.read? s.scope s.attributes s.doc ts with
      | none =>
        rcases EnumDecl.read?_eq_none_iff.mp hread with hnone | hnone
        · simp [hname] at hnone
        · exact absurd hnone hbraces
      | some r =>
        have hr := EnumDecl.name_of_read? hread
        obtain rfl : name = r.1.name := Option.some.inj (hname.symm.trans hr)
        rfl
  · rw [if_neg fun h ↦ hword h.1, if_neg hword]
    rfl

namespace Stop

variable {s : FileState} {c : EnumNames.Scan} {ts : List Token} {stop : Stop}

theorem found_eq (hstop : stop ∈ stops s c ts) (h : stop.IsHead) :
    stop.found = (stop.declared.map fun e ↦ Name.inside stop.scan.space e.name).toList
      ++ stop.foundBehind := by
  fun_induction stops s c ts with
  | case1 => simp at hstop
  | case2 s c t ts _ next passed ih =>
    rcases List.mem_cons.mp hstop with rfl | hstop
    · have hahead : passed ++ next.rest = ts := take_append_rest s t ts
      simp only [IsHead, hahead] at h
      simp only [found, foundBehind, EnumNames.Scan.found, hahead, name?_eq s c h, next]
    · exact ih hstop

theorem eq_found_iff (hstop : stop ∈ stops s c ts) (h : stop.IsHead) :
    (stop.declared.map EnumDecl.qualified).toList = stop.found ↔ stop.Agrees := by
  rw [found_eq hstop h]
  constructor
  · intro heq
    cases hdeclared : stop.declared with
    | none =>
      refine ⟨by simp [hdeclared], ?_⟩
      simpa [hdeclared] using heq.symm
    | some e =>
      rw [hdeclared] at heq
      obtain ⟨hname, hbehind⟩ := List.cons.inj heq
      exact ⟨by simpa [hdeclared] using hname.symm, hbehind.symm⟩
  · rintro ⟨hspace, hbehind⟩
    rw [hbehind, List.append_nil]
    cases hdeclared : stop.declared with
    | none => rfl
    | some e => exact congrArg (fun name ↦ [name]) (hspace e hdeclared).symm

end Stop

/-- Declared and scanned names are the same exactly if the reader and the scan agree at each
stop. -/
theorem qualified_eq_ofSource_iff {source : String}
    (h : ∀ stop ∈ stopsOfSource source, stop.IsHead) :
    (ofSource source).enums.map EnumDecl.qualified = EnumNames.ofSource source
      ↔ ∀ stop ∈ stopsOfSource source, stop.Agrees := by
  have hdeclared : (ofSource source).enums.map EnumDecl.qualified
      = (stopsOfSource source).flatMap fun stop ↦
          (stop.declared.map EnumDecl.qualified).toList := by
    rw [ofSource, ofTokens, enums_read _ EnumNames.Scan.start, List.map_flatMap]
    exact List.flatMap_congr fun stop _ ↦ by cases stop.declared <;> rfl
  have hscanned : EnumNames.ofSource source = (stopsOfSource source).flatMap Stop.found :=
    among_eq FileState.start EnumNames.Scan.start (tokens source)
  have hlength : ∀ stop ∈ stopsOfSource source,
      (stop.declared.map EnumDecl.qualified).toList.length ≤ stop.found.length := by
    intro stop hstop
    rw [Stop.found_eq hstop (h stop hstop)]
    cases stop.declared <;> simp
  rw [hdeclared, hscanned]
  exact (flatMap_eq_flatMap_iff hlength).trans
    (forall₂_congr fun stop hstop ↦ Stop.eq_found_iff hstop (h stop hstop))

end SourceFile

end FrontendSync.Php
