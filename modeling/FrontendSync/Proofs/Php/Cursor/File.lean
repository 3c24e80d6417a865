import FrontendSync.Enum.OfDecl
import FrontendSync.Proofs.Ordered
import FrontendSync.Proofs.Php.CaseProperties
import FrontendSync.Proofs.Php.Cursor.Members

/-!
# Files by their indices

Imports, namespaces and enums with the indices that are worked out for them, and the whole of a
file.  Whatever the tokens are, every slice is part of them and every step goes on behind the token
it started at; so the file that is read by indices is the one that the remaining tokens give.
-/

namespace FrontendSync.Php.Cursor

variable {ts : List Token} {i : Nat} {t : Token}

/-! ## Imports -/

/-- The index of the first semicolon, wherever the search starts. -/
def semicolonFrom (ts : List Token) (i : Nat) : Except Misstep Nat := do
  return indexOr ts i (← position (Token.isPunct .semicolon) ts (min i ts.length))

/-- Imports with the one that a piece stands for, if any. -/
def register (common : String) (imports : List (String × String)) (piece : List Token) :
    List (String × String) :=
  Ordered.insertAll imports (Import.ofTokens? common piece).toList

def importStep (ts : List Token) (imports : List (String × String)) (i : Nat) (t : Token) :
    Except Misstep (List (String × String) × Nat) := do
  match t.name? with
  | none => return (imports, i + 1)
  | some name =>
    if ts[i + 1]?.any (Token.isSymbol '\\') && ts[i + 2]?.any (Token.isPunct .braceOpen) then
      let pieces ← items (← inside ts (i + 3))
      return (pieces.foldl (register (Name.dropRoot name)) imports, closeFrom ts 0 (i + 3) + 1)
    else
      let comma := indexOr ts i (← position (Token.isPunct .comma) ts i)
      return (register "" imports (← slice ts i comma), comma + 1)

/-- The scope behind a statement whose `use` stands in front of an index, and the index behind its
semicolon. -/
def useStatement (scope : Scope) (ts : List Token) (i : Nat) : Except Misstep (Scope × Nat) := do
  if ts[i]?.any fun t ↦ t.isKeyword "function" || t.isKeyword "const" then
    return (scope, min ((← semicolonFrom ts i) + 1) ts.length)
  else
    let semicolon ← semicolonFrom ts i
    let statement ← slice ts i semicolon
    let imports ← walk (importStep statement) statement scope.imports 0
    return ({ scope with imports := imports }, min (semicolon + 1) ts.length)

theorem semicolonFrom_eq (h : i ≤ ts.length) : semicolonFrom ts i
    = .ok (indexOr ts i ((ts.drop i).findIdx? (Token.isPunct .semicolon))) := by
  rw [semicolonFrom, Nat.min_eq_left h, position_eq _ h, ok_bind, pure_eq_ok]

theorem foldl_register (common : String) (pieces : List (List Token))
    (imports : List (String × String)) :
    pieces.foldl (register common) imports
      = Ordered.insertAll imports (pieces.filterMap (Import.ofTokens? common)) := by
  induction pieces generalizing imports with
  | nil => rfl
  | cons piece pieces ih =>
    rw [List.foldl_cons, ih, register, ← Ordered.insertAll_append]
    cases h : Import.ofTokens? common piece <;> simp [h]

/-- A group of imports has two marks in front of it. -/
theorem braces?_drop (ts : List Token) (i : Nat) :
    Import.braces? (ts.drop i) =
      if ts[i]?.any (Token.isSymbol '\\') && ts[i + 1]?.any (Token.isPunct .braceOpen) then
        some (Brackets.group 0 (ts.drop (i + 2)))
      else none := by
  rcases here_or_ended ts i with ⟨slash, -, hslash, hdrop⟩ | ⟨-, hslash, hdrop⟩
  · rcases here_or_ended ts (i + 1) with ⟨brace, -, hbrace, hrest⟩ | ⟨-, hbrace, hrest⟩
    · rw [hdrop, hrest, hslash, hbrace, Import.braces?, Option.any_some, Option.any_some]
    · rw [hdrop, hrest, hslash, hbrace]
      simp [Import.braces?]
  · rw [hdrop, hslash]
    simp [Import.braces?]

theorem ofStatement_cons_group {name : String} {rest : List Token}
    {group : List Token × List Token} (hname : t.name? = some name)
    (h : Import.braces? rest = some group) : Import.ofStatement (t :: rest)
      = (Brackets.items group.1).filterMap (Import.ofTokens? (Name.dropRoot name))
        ++ Import.ofStatement group.2 := by
  rw [Import.ofStatement, hname]
  simp only
  split
  · rename_i heq
    obtain rfl := Option.some.inj (h.symm.trans heq)
    rfl
  · rename_i heq
    exact absurd (h.symm.trans heq) (by simp)

theorem ofStatement_cons_piece {name : String} {rest : List Token} (hname : t.name? = some name)
    (h : Import.braces? rest = none) : Import.ofStatement (t :: rest)
      = (Import.ofTokens? "" (Brackets.splitAt (Token.isPunct .comma) (t :: rest)).1).toList
        ++ Import.ofStatement (Brackets.splitAt (Token.isPunct .comma) (t :: rest)).2 := by
  have hcomma : t.isPunct .comma = false := Bool.eq_false_iff.mpr fun hcomma ↦ by
    simp [Token.name?_of_isPunct hcomma] at hname
  have hsplit : Brackets.splitAt (Token.isPunct .comma) (t :: rest)
      = (t :: rest.takeWhile (!Token.isPunct .comma ·),
        rest.drop ((rest.takeWhile (!Token.isPunct .comma ·)).length + 1)) := by
    simp [Brackets.splitAt, hcomma]
  rw [Import.ofStatement, hname, hsplit]
  simp only
  split
  · rename_i heq
    exact absurd (h.symm.trans heq) (by simp)
  · rfl

theorem importStep_eq (imports : List (String × String)) (hi : i < ts.length) :
    ∃ imports' j, importStep ts imports i ts[i] = .ok (imports', j) ∧ i < j ∧
      Ordered.insertAll imports' (Import.ofStatement (ts.drop j))
        = Ordered.insertAll imports (Import.ofStatement (ts[i] :: ts.drop (i + 1))) := by
  unfold importStep
  cases hname : ts[i].name? with
  | none =>
    refine ⟨imports, i + 1, rfl, Nat.lt_succ_self i, ?_⟩
    rw [Import.ofStatement.eq_def (ts[i] :: _)]
    simp only [hname]
  | some name =>
    simp only
    split
    · rename_i hgroup
      have hbraces := braces?_drop ts (i + 1)
      rw [if_pos hgroup] at hbraces
      have hstart : i + 3 ≤ ts.length := lt_of_any_getElem? (Bool.and_eq_true_iff.mp hgroup).2
      have hcut : IsCut ts (i + 3) _ (Brackets.group 0 (ts.drop (i + 3))) :=
        isCut_closeFrom 0 hstart
      have hle := hcut.le
      rw [inside_eq hstart, ok_bind, items_eq, ok_bind, ofStatement_cons_group hname hbraces]
      refine ⟨_, _, rfl, by omega, ?_⟩
      rw [hcut.behind, foldl_register, Ordered.insertAll_append]
    · rename_i hgroup
      have hbraces := braces?_drop ts (i + 1)
      rw [if_neg hgroup] at hbraces
      have hcut := isCut_indexOr (Token.isPunct .comma) hi.le
      rw [drop_eq_cons hi] at hcut
      have hle := hcut.le
      rw [position_eq _ hi.le, ok_bind, drop_eq_cons hi, hcut.slice_eq, ok_bind,
        ofStatement_cons_piece hname hbraces]
      refine ⟨_, _, rfl, by omega, ?_⟩
      rw [hcut.behind, register, Ordered.insertAll_append]

theorem walk_importStep_eq (ts : List Token) (imports : List (String × String)) :
    walk (importStep ts) ts imports 0
      = .ok (Ordered.insertAll imports (Import.ofStatement ts)) := by
  rw [← bind_pure (walk (importStep ts) ts imports 0)]
  refine walk_eq_read (f := fun imports rest ↦ Ordered.insertAll imports (Import.ofStatement rest))
    (fun imports i hi ↦ importStep_eq imports hi) (fun imports ↦ ?_) imports 0
  simp [Import.ofStatement, Ordered.insertAll]

theorem agrees_useStatement (scope : Scope) (h : i ≤ ts.length) :
    Agrees ts i (useStatement scope ts i) (scope.addImports (ts.drop i),
      (Brackets.splitAt (Token.isPunct .semicolon) (ts.drop i)).2) := by
  have hcut := isCut_indexOr (Token.isPunct .semicolon) h
  have hle := hcut.le
  refine ⟨min (indexOr ts i ((ts.drop i).findIdx? (Token.isPunct .semicolon)) + 1) ts.length, ?_,
    by omega, by rw [drop_min_length, hcut.behind]⟩
  have hclasses : (ts[i]?.any fun t ↦ t.isKeyword "function" || t.isKeyword "const")
      = !Import.isOfClasses (ts.drop i) := by
    rcases here_or_ended ts i with ⟨t, -, htoken, hdrop⟩ | ⟨-, htoken, hdrop⟩
    · simp [htoken, hdrop, Import.isOfClasses]
    · simp [htoken, hdrop, Import.isOfClasses]
  rw [useStatement, hclasses, semicolonFrom_eq h, ok_bind, ok_bind, Scope.addImports]
  cases Import.isOfClasses (ts.drop i) with
  | false => rfl
  | true =>
    simp only [Bool.not_true, Bool.false_eq_true, if_false, if_true, hcut.slice_eq, ok_bind,
      walk_importStep_eq, pure_eq_ok]

/-! ## Namespaces -/

/-- The state behind a namespace whose keyword stands in front of an index, and the index behind the
token that follows its name. -/
def enterSpace (s : FileState) (ts : List Token) (i : Nat) : FileState × Nat :=
  let name := ts[i]?.bind Token.name?
  let behind := if name.isSome then i + 1 else i
  if ts[behind]?.any (Token.isPunct .braceOpen) then
    ({ s with scope := ⟨name, []⟩, block := some s.depth, depth := s.depth + 1 }, behind + 1)
  else ({ s with scope := ⟨name, []⟩ }, behind + 1)

theorem spaceName_drop (ts : List Token) (i : Nat) : FileState.spaceName (ts.drop i)
    = (ts[i]?.bind Token.name?,
      ts.drop (if (ts[i]?.bind Token.name?).isSome then i + 1 else i)) := by
  rcases here_or_ended ts i with ⟨t, -, htoken, hdrop⟩ | ⟨-, htoken, hdrop⟩
  · rw [hdrop, htoken, FileState.spaceName, Option.bind_some]
    cases hname : t.name? <;> simp [hdrop]
  · simp [hdrop, htoken, FileState.spaceName]

theorem enterSpace_eq (s : FileState) (ts : List Token) (i : Nat) :
    (enterSpace s ts i).1 = s.enterNamespace (ts.drop i) ∧ i < (enterSpace s ts i).2 ∧
      ts.drop (enterSpace s ts i).2 = FileState.afterNamespace (ts.drop i) := by
  have hle : i ≤ if (ts[i]?.bind Token.name?).isSome then i + 1 else i := by
    split
    · exact Nat.le_succ i
    · exact le_refl i
  rw [FileState.enterNamespace, FileState.afterNamespace, spaceName_drop, enterSpace]
  generalize (if (ts[i]?.bind Token.name?).isSome then i + 1 else i) = behind at hle
  simp only [List.head?_drop, List.drop_drop]
  split
  · exact ⟨rfl, Nat.lt_succ_of_le hle, rfl⟩
  · exact ⟨rfl, Nat.lt_succ_of_le hle, rfl⟩

/-! ## Enums -/

/-- The type that is declared at an index, and the index behind it. -/
def declaredType (ts : List Token) (i : Nat) : Option Backing × Nat :=
  if ts[i]?.any (Token.isPunct .colon) then
    (ts[i + 1]?.bind fun t ↦ EnumDecl.backing? [t], i + 2)
  else (none, i)

/-- An enum with the given name whose type may stand at an index, and the index behind its body.
The search for the body may start behind the last token. -/
def namedEnum? (scope : Scope) (attributes : List Attribute) (doc : Option String) (name : String)
    (ts : List Token) (i : Nat) : Except Misstep (Option (EnumDecl × Nat)) := do
  let type := declaredType ts i
  match ← position (Token.isPunct .braceOpen) ts (min type.2 ts.length) with
  | none => return none
  | some found =>
    let start := type.2 + found + 1
    let qualified := Name.inside scope.space name
    let members ← members ⟨scope, some qualified, fun _ _ ↦ none⟩ (← inside ts start)
    return some (⟨name, qualified, scope.space, type.1, attributes, doc, members.cases,
      members.methods, scope, ""⟩, min (closeFrom ts 0 start + 1) ts.length)

/-- An enum whose keyword stands in front of an index. -/
def enum? (s : FileState) (ts : List Token) (i : Nat) : Except Misstep (Option (EnumDecl × Nat)) :=
  match ts[i]?.bind Token.name? with
  | none => return none
  | some name => namedEnum? s.scope s.attributes s.doc name ts (i + 1)

theorem backing?_drop (ts : List Token) (i : Nat) :
    EnumDecl.backing? (ts.drop i) = ts[i]?.bind fun t ↦ EnumDecl.backing? [t] := by
  rcases here_or_ended ts i with ⟨t, -, htoken, hdrop⟩ | ⟨-, htoken, hdrop⟩
  · rw [hdrop, htoken, Option.bind_some, EnumDecl.backing?, EnumDecl.backing?]
  · rw [hdrop, htoken, Option.bind_none, EnumDecl.backing?]

theorem declaredType_eq (ts : List Token) (i : Nat) :
    i ≤ (declaredType ts i).2 ∧ EnumDecl.readType (ts.drop i)
      = ((declaredType ts i).1, ts.drop (declaredType ts i).2) := by
  rcases here_or_ended ts i with ⟨t, -, htoken, hdrop⟩ | ⟨-, htoken, hdrop⟩
  · rw [declaredType, htoken, Option.any_some, hdrop, EnumDecl.readType, backing?_drop,
      List.drop_drop]
    split
    · exact ⟨Nat.le_add_right i 2, rfl⟩
    · exact ⟨le_refl i, by rw [hdrop]⟩
  · rw [declaredType, htoken, hdrop]
    exact ⟨le_refl i, by simp [EnumDecl.readType, hdrop]⟩

/-- The body stands behind the first brace. -/
theorem braces?_drop_eq (ts : List Token) (i : Nat) : EnumDecl.braces? (ts.drop i)
    = ((ts.drop i).findIdx? (Token.isPunct .braceOpen)).map fun found ↦
      Brackets.group 0 (ts.drop (i + found + 1)) := by
  rw [EnumDecl.braces?, List.dropWhile_eq_drop_findIdx_not]
  simp only [Bool.not_not, List.findIdx_eq_getD_findIdx?]
  cases hfound : (ts.drop i).findIdx? (Token.isPunct .braceOpen) with
  | none => rw [Option.getD_none, List.drop_length, Option.map_none]
  | some found =>
    rw [Option.getD_some, List.drop_drop, drop_eq_cons (lt_of_findIdx?_drop hfound),
      Option.map_some]

/-- An enum ends behind the index it starts at, or at the end of the tokens. -/
theorem namedEnum?_eq (scope : Scope) (attributes : List Attribute) (doc : Option String)
    (name : String) (ts : List Token) (i : Nat) :
    ∃ found, namedEnum? scope attributes doc name ts i = .ok found ∧
      (∀ r, found = some r → min i ts.length ≤ r.2) ∧
      EnumDecl.readNamed? scope attributes doc name (ts.drop i)
        = found.map fun r ↦ (r.1, ts.drop r.2) := by
  obtain ⟨hle, htype⟩ := declaredType_eq ts i
  rw [namedEnum?, EnumDecl.readNamed?, htype]
  simp only
  rw [braces?_drop_eq, position_eq _ (Nat.min_le_right _ _), ok_bind, drop_min_length]
  cases hfound : (ts.drop (declaredType ts i).2).findIdx? (Token.isPunct .braceOpen) with
  | none => exact ⟨none, rfl, by simp, rfl⟩
  | some found =>
    have hstart : (declaredType ts i).2 + found + 1 ≤ ts.length := lt_of_findIdx?_drop hfound
    have hcut : IsCut ts _ _ (Brackets.group 0 (ts.drop ((declaredType ts i).2 + found + 1))) :=
      isCut_closeFrom 0 hstart
    have hclose := hcut.le
    simp only
    rw [inside_eq hstart, ok_bind, members_eq, ok_bind]
    refine ⟨_, rfl, ?_, ?_⟩
    · rintro r hr
      obtain rfl := Option.some.inj hr
      simp only
      omega
    · simp only [Option.map_some, drop_min_length, hcut.behind]

theorem enum?_eq (s : FileState) (ts : List Token) (i : Nat) :
    ∃ found, enum? s ts i = .ok found ∧
      (∀ r, found = some r → min i ts.length ≤ r.2) ∧
      EnumDecl.read? s.scope s.attributes s.doc (ts.drop i)
        = found.map fun r ↦ (r.1, ts.drop r.2) := by
  rcases here_or_ended ts i with ⟨t, -, htoken, hdrop⟩ | ⟨-, htoken, hdrop⟩
  · rw [enum?, htoken, Option.bind_some, hdrop, EnumDecl.read?]
    cases t.name? with
    | none => exact ⟨none, rfl, by simp, rfl⟩
    | some name =>
      obtain ⟨found, heq, hle, hread⟩ :=
        namedEnum?_eq s.scope s.attributes s.doc name ts (i + 1)
      exact ⟨found, heq, fun r hr ↦ by have := hle r hr; omega, hread⟩
  · exact ⟨none, by rw [enum?, htoken]; rfl, by simp, by rw [hdrop]; rfl⟩

/-! ## Files -/

/-- The enums found so far, and the state between two tokens. -/
structure RunState where
  state : FileState
  enums : List EnumDecl

/-- The file that is read in all. -/
def RunState.read (s : RunState) (ts : List Token) : SourceFile :=
  let more := SourceFile.read s.state ts
  ⟨s.enums ++ more.enums, more.scope⟩

def RunState.dropPending (s : RunState) : RunState := { s with state := s.state.dropPending }

def fileStep (ts : List Token) (s : RunState) (i : Nat) (t : Token) :
    Except Misstep (RunState × Nat) :=
  match t.kind with
  | .docComment raw => .ok (⟨{ s.state with doc := DocComment.text? raw }, s.enums⟩, i + 1)
  | .punct .attributeOpen => do
    let found ← attributes (SourceFile.attributeContext s.state.scope) ts (i + 1)
    return (⟨{ s.state with attributes := s.state.attributes ++ found.1 }, s.enums⟩, found.2)
  | .punct .braceOpen => .ok (⟨s.state.openBrace.dropPending, s.enums⟩, i + 1)
  | .punct .braceClose => .ok (⟨s.state.closeBrace.dropPending, s.enums⟩, i + 1)
  | .name word =>
    match word.toLower with
    | "namespace" =>
      .ok (⟨(enterSpace s.state ts (i + 1)).1, s.enums⟩, (enterSpace s.state ts (i + 1)).2)
    | "use" =>
      if s.state.depth = s.state.importDepth then do
        let found ← useStatement s.state.scope ts (i + 1)
        return (⟨{ s.state with scope := found.1 }, s.enums⟩, found.2)
      else .ok (s.dropPending, i + 1)
    | "enum" => do
      match ← enum? s.state ts (i + 1) with
      | some found => return (⟨s.state.dropPending, s.enums ++ [found.1]⟩, found.2)
      | none => return (s.dropPending, i + 1)
    | "final" | "readonly" | "abstract" => .ok (s, i + 1)
    | _ => .ok (s.dropPending, i + 1)
  | _ => .ok (s.dropPending, i + 1)

/-- The file that a list of tokens is, read by indices. -/
def file (ts : List Token) : Except Misstep SourceFile :=
  walk (fileStep ts) ts ⟨FileState.start, []⟩ 0 >>= fun s ↦ .ok ⟨s.enums, s.state.scope⟩

theorem fileStep_eq (s : RunState) (t : Token) (hi : i < ts.length) :
    ∃ s' j, fileStep ts s i t = .ok (s', j) ∧ i < j ∧
      s'.read (ts.drop j) = s.read (t :: ts.drop (i + 1)) := by
  have hnext : i < i + 1 := Nat.lt_succ_self i
  have hstart : i + 1 ≤ ts.length := hi
  unfold RunState.read
  rw [SourceFile.read.eq_def s.state]
  fun_cases fileStep ts s i t with
  | case2 hkind =>
    obtain ⟨j, hfound, hj, hrest⟩ :=
      agrees_attributes (SourceFile.attributeContext s.state.scope) hstart
    simp only [hkind]
    rw [hfound, ok_bind]
    exact ⟨_, _, rfl, hj, by rw [hrest]⟩
  | case5 word hkind hword =>
    obtain ⟨hstate, hj, hrest⟩ := enterSpace_eq s.state ts (i + 1)
    simp only [hkind, hword]
    exact ⟨_, _, rfl, by omega, by rw [hstate, hrest]⟩
  | case6 word hkind hword hdepth =>
    obtain ⟨j, huse, hj, hrest⟩ := agrees_useStatement s.state.scope hstart
    simp only [hkind, hword, hdepth, if_true]
    rw [huse, ok_bind]
    exact ⟨_, _, rfl, hj, by rw [hrest]⟩
  | case8 word hkind hword =>
    obtain ⟨found, henum, hle, hread⟩ := enum?_eq s.state ts (i + 1)
    simp only [hkind, hword]
    rw [henum, ok_bind]
    cases found with
    | none =>
      refine ⟨_, _, rfl, hnext, ?_⟩
      split
      · rename_i r hr
        exact absurd (hread.symm.trans hr) (by simp)
      · rfl
    | some found =>
      have hj := hle found rfl
      refine ⟨_, _, rfl, by omega, ?_⟩
      split
      · rename_i r hr
        obtain rfl := Option.some.inj (hread.symm.trans hr)
        simp [SourceFile.addEnum]
      · rename_i hr
        exact absurd (hread.symm.trans hr) (by simp)
  | _ =>
    simp_all only
    exact ⟨_, _, rfl, hnext, rfl⟩

theorem file_eq (ts : List Token) : file ts = .ok (SourceFile.ofTokens ts) := by
  have hrun : file ts = .ok (RunState.read ⟨FileState.start, []⟩ (ts.drop 0)) :=
    walk_eq_read (fun s i hi ↦ fileStep_eq s ts[i] hi)
      (fun s ↦ by simp [RunState.read, SourceFile.read]) _ 0
  rw [hrun, RunState.read, List.drop_zero, List.nil_append, SourceFile.ofTokens]

/-! ## Returned values -/

/-- Only a semicolon may stand behind what is returned. -/
def returnedBefore (v : Value) : List Token → Except ReturnFault Value
  | [semicolon] => if semicolon.isPunct .semicolon then .ok v else .error .notSingle
  | _ => .error .notSingle

/-- The value that a body returns.  The tokens behind the expression start at the index where it
was left. -/
def returned (ctx : Context) (ts : List Token) : Except Misstep (Except ReturnFault Value) := do
  if ts[0]?.any (Token.isKeyword "return") then
    let expression ← slice ts 1 ts.length
    match Expression.read ctx expression with
    | .error e _ => return .error (.expression e)
    | .value v rest _ =>
      let used := expression.length - rest.length
      return returnedBefore v (← slice ts (1 + used) ts.length)
  else return .error .notSingle

theorem returned_eq (ctx : Context) (ts : List Token) :
    returned ctx ts = .ok (EnumRecord.returnedValue ctx ts) := by
  cases ts with
  | nil => rfl
  | cons t ts =>
    have hexpression : slice (t :: ts) 1 (t :: ts).length = .ok ts := slice_length (by simp)
    rw [returned, EnumRecord.returnedValue, List.getElem?_cons_zero, Option.any_some, hexpression,
      ok_bind]
    split
    · cases hread : Expression.read ctx ts with
      | error e rest => rfl
      | value v rest hlt =>
        obtain ⟨us, rfl, -⟩ := Expression.usesUp_read ⟨hlt, hread⟩
        have hrest : slice (t :: (us ++ rest)) (1 + ((us ++ rest).length - rest.length))
            (t :: (us ++ rest)).length = .ok rest := by
          have hused : (us ++ rest).length - rest.length = us.length := by simp
          rw [hused, slice_length (by simp; omega), Nat.add_comm 1, List.drop_succ_cons,
            List.drop_left]
        change (slice _ _ _ >>= fun rest ↦ .ok (returnedBefore v rest)) = _
        rw [hrest, ok_bind]
        rcases rest with _ | ⟨_, _ | _⟩
        · rfl
        · rfl
        · rfl
    · rfl

/-! ## No missteps -/

/-- Whatever is known so far, a step from a token has an outcome, and goes on behind the token. -/
def Advances {σ : Type} (ts : List Token) (step : σ → Nat → Token → Except Misstep (σ × Nat)) :
    Prop :=
  ∀ s i (h : i < ts.length), ∃ s' j, step s i ts[i] = .ok (s', j) ∧ i < j

/-- A method that breaks off behind its parenthesis. -/
def brokenOff : List Token := tokens "<?php enum E \x7b public function f("

end FrontendSync.Php.Cursor
