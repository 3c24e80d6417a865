import FrontendSync.Php.Declaration.Body
import FrontendSync.Proofs.Php.Cursor

/-!
# Members by their indices

Attributes, cases and methods with the indices that are worked out for them.
-/

namespace FrontendSync.Php.Cursor

variable {ctx : Context} {ts : List Token} {i : Nat}

/-! ## Attributes -/

/-- The name before the colon at the second place. -/
def label? (arg : List Token) : Option String :=
  match arg[0]?, arg[1]? with
  | some label, some colon => if colon.isPunct .colon then label.name? else none
  | _, _ => none

/-- An attribute with one more argument.  The value of a named one starts behind two tokens. -/
def addArg (ctx : Context) (a : Attribute) (arg : List Token) : Except Misstep Attribute := do
  match label? arg with
  | some name =>
    match Attribute.whole? ctx (← slice arg 2 arg.length) with
    | some v => return { a with named := Ordered.insert name v a.named }
    | none => return a
  | none =>
    match Attribute.whole? ctx arg with
    | some v => return { a with args := a.args ++ [v] }
    | none => return a

def attribute? (ctx : Context) (piece : List Token) : Except Misstep (Option Attribute) := do
  match piece[0]?.bind Token.name? with
  | none => return none
  | some name =>
    if piece[1]?.any (Token.isPunct .parenOpen) then
      let args ← items (← inside piece 2)
      return some (← args.foldlM (addArg ctx) ⟨name, [], []⟩)
    else return some ⟨name, [], []⟩

/-- The attributes of a group that starts at an index, and the index behind its bracket. -/
def attributes (ctx : Context) (ts : List Token) (i : Nat) :
    Except Misstep (List Attribute × Nat) := do
  let pieces ← items (← inside ts i)
  return ((← pieces.mapM (attribute? ctx)).filterMap id, min (closeFrom ts 0 i + 1) ts.length)

theorem addArg_of_label?_eq_none {arg : List Token} (h : label? arg = none) (ctx : Context)
    (a : Attribute) : addArg ctx a arg = .ok
      (match Attribute.whole? ctx arg with
      | some v => { a with args := a.args ++ [v] }
      | none => a) := by
  rw [addArg, h]
  cases Attribute.whole? ctx arg <;> rfl

theorem addArg_eq (ctx : Context) (a : Attribute) (arg : List Token) :
    addArg ctx a arg = .ok (a.addArg ctx arg) := by
  match arg with
  | [] => exact addArg_of_label?_eq_none rfl ctx a
  | [_] => exact addArg_of_label?_eq_none rfl ctx a
  | label :: colon :: expression =>
    have hslice : slice (label :: colon :: expression) 2 (label :: colon :: expression).length
        = .ok expression := slice_length (by simp)
    unfold Attribute.addArg
    simp only
    split
    · rename_i hcolon
      split
      · rename_i name hname
        have hlabel : label? (label :: colon :: expression) = some name := by
          simp [label?, hcolon, hname]
        rw [addArg, hlabel]
        simp only [hslice, ok_bind]
        cases Attribute.whole? ctx expression <;> rfl
      · rename_i hname
        exact addArg_of_label?_eq_none (by simp [label?, hname]) ctx a
    · rename_i hcolon
      exact addArg_of_label?_eq_none (by simp [label?, hcolon]) ctx a

theorem attribute?_eq (ctx : Context) (piece : List Token) :
    attribute? ctx piece = .ok (Attribute.ofTokens? ctx piece) := by
  cases piece with
  | nil => rfl
  | cons t rest =>
    simp only [attribute?, Attribute.ofTokens?, List.getElem?_cons_zero, Option.bind_some]
    cases t.name? with
    | none => rfl
    | some name =>
      cases rest with
      | nil => rfl
      | cons paren rest =>
        have hinside : inside (t :: paren :: rest) 2 = .ok (Brackets.group 0 rest).1 :=
          inside_eq (by simp)
        simp only [List.getElem?_cons_succ, List.getElem?_cons_zero, Option.any_some,
          Option.map_some]
        split
        · rw [hinside, ok_bind, items_eq, ok_bind,
            foldlM_eq (addArg_eq ctx), ok_bind, pure_eq_ok]
        · rfl

theorem agrees_attributes (ctx : Context) (h : i ≤ ts.length) :
    Agrees ts i (attributes ctx ts i) (Attribute.readGroup ctx (ts.drop i)) := by
  have hcut : IsCut ts i _ (Brackets.group 0 (ts.drop i)) := isCut_closeFrom 0 h
  have hle := hcut.le
  refine ⟨min (closeFrom ts 0 i + 1) ts.length, ?_, by omega, ?_⟩
  · rw [attributes, inside_eq h, ok_bind, items_eq, ok_bind, mapM_eq (attribute?_eq ctx), ok_bind,
      pure_eq_ok, List.filterMap_map, Function.id_comp, Attribute.readGroup]
  · rw [drop_min_length, hcut.behind, Attribute.readGroup]

/-! ## Cases and methods -/

/-- A case.  Its value starts behind two tokens. -/
def caseDecl (ctx : Context) (doc : Option String) (ts : List Token) :
    Except Misstep CaseDecl := do
  let name := (ts[0]?.bind Token.name?).getD ""
  if ts[1]?.any (Token.isPunct .assign) then
    return ⟨name, some (CaseDecl.wholeValue ctx (← slice ts 2 ts.length)), doc⟩
  else return ⟨name, none, doc⟩

/-- The index of a body or of the semicolon in its place, behind a return type. -/
def behindType (ts : List Token) (i : Nat) : Except Misstep Nat := do
  if ts[i]?.any (Token.isPunct .colon) then
    let found ← position (fun t ↦ t.isPunct .braceOpen || t.isPunct .semicolon) ts (i + 1)
    return indexOr ts (i + 1) found
  else return i

/-- The inside of the braces at an index, and the index behind them or behind the token there. -/
def bodyFrom (ts : List Token) (i : Nat) : Except Misstep (Option (List Token) × Nat) := do
  if ts[i]?.any (Token.isPunct .braceOpen) then
    return (some (← inside ts (i + 1)), min (closeFrom ts 0 (i + 1) + 1) ts.length)
  else return (none, min (i + 1) ts.length)

/-- A method whose parenthesis may stand at an index. -/
def methodFrom (name : String) (isPublic isStatic : Bool) (line : Nat) (ts : List Token) (i : Nat) :
    Except Misstep (Option MethodDecl × Nat) := do
  if ts[i]?.any (Token.isPunct .parenOpen) then
    let params ← items (← inside ts (i + 1))
    let body ← bodyFrom ts (← behindType ts (closeFrom ts 0 (i + 1) + 1))
    return (some ⟨name, isPublic, isStatic, params.length, body.1, line⟩, body.2)
  else return (none, i)

/-- The index of the name of a function, which a mark may stand before. -/
def behindReference (ts : List Token) (i : Nat) : Nat :=
  if ts[i]?.any (Token.isSymbol '&') then i + 1 else i

/-- A method whose keyword stands in front of an index, and the index behind it. -/
def method (isPublic isStatic : Bool) (line : Nat) (ts : List Token) (i : Nat) :
    Except Misstep (Option MethodDecl × Nat) :=
  match ts[behindReference ts i]?.bind Token.name? with
  | none => return (none, behindReference ts i + 1)
  | some name => methodFrom name isPublic isStatic line ts (behindReference ts i + 1)

theorem caseDecl_eq (ctx : Context) (doc : Option String) (ts : List Token) :
    caseDecl ctx doc ts = .ok (CaseDecl.ofTokens ctx doc ts) := by
  match ts with
  | [] => rfl
  | [_] => rfl
  | t :: assign :: value =>
    have hslice : slice (t :: assign :: value) 2 (t :: assign :: value).length = .ok value :=
      slice_length (by simp)
    simp only [caseDecl, CaseDecl.ofTokens, List.getElem?_cons_zero, List.getElem?_cons_succ,
      Option.any_some, hslice, ok_bind, List.head?_cons]
    split <;> rfl

theorem behindType_eq (ts : List Token) (i : Nat) :
    ∃ j, behindType ts i = .ok j ∧ i ≤ j ∧ ts.drop j = MethodDecl.afterType (ts.drop i) := by
  rcases here_or_ended ts i with ⟨t, hi, htoken, hdrop⟩ | ⟨-, htoken, hdrop⟩
  · rw [behindType, htoken, Option.any_some, hdrop, MethodDecl.afterType]
    split
    · have hi : i + 1 ≤ ts.length := hi
      rw [position_eq _ hi, ok_bind]
      exact ⟨_, rfl, (Nat.le_succ i).trans (isCut_indexOr _ hi).le, drop_indexOr _ hi⟩
    · exact ⟨i, rfl, le_refl _, hdrop⟩
  · exact ⟨i, by simp [behindType, htoken], le_refl _, by simp [hdrop, MethodDecl.afterType]⟩

/-- The index may lie behind the end, where parentheses are not closed; then the end is next. -/
theorem agrees_bodyFrom (ts : List Token) (i : Nat) :
    Agrees ts (min i ts.length) (bodyFrom ts i) (MethodDecl.readBody (ts.drop i)) := by
  rcases here_or_ended ts i with ⟨t, hi, htoken, hdrop⟩ | ⟨hi, htoken, hdrop⟩
  · have hcut : IsCut ts (i + 1) _ (Brackets.group 0 (ts.drop (i + 1))) := isCut_closeFrom 0 hi
    have hle := hcut.le
    rw [bodyFrom, htoken, Option.any_some, hdrop, MethodDecl.readBody]
    split
    · rw [inside_eq hi, ok_bind]
      exact ⟨_, rfl, by omega, by rw [drop_min_length, hcut.behind]⟩
    · exact ⟨_, rfl, by omega, drop_min_length ts (i + 1)⟩
  · refine ⟨min (i + 1) ts.length, by simp [bodyFrom, htoken, hdrop, MethodDecl.readBody],
      by omega, ?_⟩
    rw [drop_min_length, List.drop_eq_nil_of_le (Nat.le_succ_of_le hi), hdrop, MethodDecl.readBody]

theorem agrees_methodFrom (name : String) (isPublic isStatic : Bool) (line : Nat)
    (ts : List Token) (i : Nat) : Agrees ts i (methodFrom name isPublic isStatic line ts i)
      (MethodDecl.readFrom name isPublic isStatic line (ts.drop i)) := by
  rcases here_or_ended ts i with ⟨t, hi, htoken, hdrop⟩ | ⟨-, htoken, hdrop⟩
  · rw [methodFrom, htoken, Option.any_some, hdrop, MethodDecl.readFrom]
    split
    · have hcut : IsCut ts (i + 1) _ (Brackets.group 0 (ts.drop (i + 1))) := isCut_closeFrom 0 hi
      obtain ⟨k, htype, hk, hbehind⟩ := behindType_eq ts (closeFrom ts 0 (i + 1) + 1)
      obtain ⟨j, hbody, hj, hrest⟩ := agrees_bodyFrom ts k
      -- each index stands for the tokens behind it, and only these are read
      rw [hcut.behind] at hbehind
      rw [hbehind] at hbody hrest
      rw [inside_eq hi, ok_bind, items_eq, ok_bind, htype, ok_bind, hbody, ok_bind]
      have hle := hcut.le
      exact ⟨j, rfl, by omega, hrest⟩
    · exact ⟨i, rfl, le_refl _, hdrop⟩
  · exact ⟨i, by simp [methodFrom, htoken, hdrop, MethodDecl.readFrom], le_refl _, by
      simp [hdrop, MethodDecl.readFrom]⟩

theorem drop_behindReference (ts : List Token) (i : Nat) :
    i ≤ behindReference ts i ∧
      ts.drop (behindReference ts i) = MethodDecl.afterReference (ts.drop i) := by
  rcases here_or_ended ts i with ⟨t, hi, htoken, hdrop⟩ | ⟨-, htoken, hdrop⟩
  · rw [behindReference, htoken, Option.any_some, hdrop, MethodDecl.afterReference]
    split
    · exact ⟨Nat.le_succ i, rfl⟩
    · exact ⟨le_refl i, hdrop⟩
  · rw [behindReference, htoken, hdrop]
    exact ⟨le_refl i, hdrop⟩

theorem agrees_method (isPublic isStatic : Bool) (line : Nat) (ts : List Token) (i : Nat) :
    Agrees ts i (method isPublic isStatic line ts i)
      (MethodDecl.read isPublic isStatic line (ts.drop i)) := by
  obtain ⟨hle, hname⟩ := drop_behindReference ts i
  rw [method, MethodDecl.read, ← hname]
  rcases here_or_ended ts (behindReference ts i) with ⟨t, -, htoken, hdrop⟩ | ⟨hi, htoken, hdrop⟩
  · simp only [htoken, Option.bind_some, hdrop]
    cases t.name? with
    | none => exact ⟨_, rfl, Nat.le_succ_of_le hle, rfl⟩
    | some name =>
      obtain ⟨j, hmethod, hj, hrest⟩ :=
        agrees_methodFrom name isPublic isStatic line ts (behindReference ts i + 1)
      exact ⟨j, hmethod, by omega, hrest⟩
  · rw [htoken, hdrop]
    exact ⟨_, rfl, Nat.le_succ_of_le hle, List.drop_eq_nil_of_le (Nat.le_succ_of_le hi)⟩

/-! ## Bodies -/

/-- The members found so far, and the documentation and modifiers for the one to come. -/
structure BodyState where
  members : Members
  doc : Option String
  isPublic : Bool
  isStatic : Bool

/-- The members that a body has in all. -/
def BodyState.read (ctx : Context) (s : BodyState) (ts : List Token) : Members :=
  let more := Members.read ctx s.doc s.isPublic s.isStatic ts
  ⟨s.members.cases ++ more.cases, s.members.methods ++ more.methods⟩

def memberStep (ctx : Context) (ts : List Token) (s : BodyState) (i : Nat) (t : Token) :
    Except Misstep (BodyState × Nat) :=
  match t.kind with
  | .docComment raw => .ok ({ s with doc := DocComment.text? raw }, i + 1)
  | .punct .attributeOpen => .ok (s, min (closeFrom ts 0 (i + 1) + 1) ts.length)
  | .name word =>
    match word.toLower with
    | "case" => do
      let c ← caseDecl ctx s.doc (← slice ts (i + 1) (endFrom ts 0 (i + 1)))
      return (⟨⟨s.members.cases ++ [c], s.members.methods⟩, none, true, false⟩,
        endFrom ts 0 (i + 1) + 1)
    | "const" | "use" => .ok (⟨s.members, none, true, false⟩, endFrom ts 0 (i + 1) + 1)
    | "function" => do
      let found ← method s.isPublic s.isStatic t.line ts (i + 1)
      return (⟨⟨s.members.cases, s.members.methods ++ found.1.toList⟩, none, true, false⟩, found.2)
    | "public" => .ok ({ s with isPublic := true }, i + 1)
    | "private" | "protected" => .ok ({ s with isPublic := false }, i + 1)
    | "static" => .ok ({ s with isStatic := true }, i + 1)
    | "final" | "abstract" => .ok (s, i + 1)
    | _ => .ok ({ s with doc := none }, i + 1)
  | _ => .ok ({ s with doc := none }, i + 1)

def members (ctx : Context) (ts : List Token) : Except Misstep Members :=
  walk (memberStep ctx ts) ts ⟨.none, none, true, false⟩ 0 >>= fun s ↦ .ok s.members

theorem memberStep_eq (s : BodyState) (t : Token) (hi : i < ts.length) :
    ∃ s' j, memberStep ctx ts s i t = .ok (s', j) ∧ i < j ∧
      s'.read ctx (ts.drop j) = s.read ctx (t :: ts.drop (i + 1)) := by
  have hnext : i < i + 1 := Nat.lt_succ_self i
  have hsemicolon := isCut_endFrom 0 hi
  have hle := hsemicolon.le
  unfold BodyState.read
  rw [Members.read.eq_def ctx s.doc]
  fun_cases memberStep ctx ts s i t with
  | case2 hkind =>
    have hgroup : IsCut ts (i + 1) _ (Brackets.group 0 (ts.drop (i + 1))) := isCut_closeFrom 0 hi
    have hclose := hgroup.le
    simp only [hkind]
    exact ⟨_, _, rfl, by omega, by rw [drop_min_length, hgroup.behind]⟩
  | case3 word hkind hword =>
    simp only [hkind, hword]
    rw [hsemicolon.slice_eq, ok_bind, caseDecl_eq, ok_bind]
    refine ⟨_, _, rfl, Nat.lt_succ_of_lt hle, ?_⟩
    simp only [hsemicolon.behind, Members.addCase, List.append_assoc, List.singleton_append]
  | case4 word hkind hword | case5 word hkind hword =>
    simp only [hkind, hword]
    exact ⟨_, _, rfl, Nat.lt_succ_of_lt hle, by rw [hsemicolon.behind]⟩
  | case6 word hkind hword =>
    obtain ⟨j, hmethod, hj, hrest⟩ := agrees_method s.isPublic s.isStatic t.line ts (i + 1)
    simp only [hkind, hword]
    rw [hmethod, ok_bind]
    refine ⟨_, _, rfl, hj, ?_⟩
    simp only [hrest, Members.addMethod, List.append_assoc]
  | _ =>
    simp_all only
    exact ⟨_, _, rfl, hnext, rfl⟩

theorem members_eq (ctx : Context) (ts : List Token) :
    members ctx ts = .ok (Members.read ctx none true false ts) := by
  have hrun : members ctx ts = .ok (BodyState.read ctx ⟨.none, none, true, false⟩ (ts.drop 0)) :=
    walk_eq_read (fun s i hi ↦ memberStep_eq s ts[i] hi) (fun s ↦ by
      simp [BodyState.read, Members.read, Members.none]) _ 0
  rw [hrun, BodyState.read, List.drop_zero, Members.none, List.nil_append, List.nil_append]

end FrontendSync.Php.Cursor
