import FrontendSync.Php.Declaration.File
import FrontendSync.Proofs.Php.Evaluation
import FrontendSync.Proofs.Php.Lexeme

/-!
# Well-formed declarations

The enums of a source are made of its tokens: their names are names of the source, the values of
their cases are values of expressions over its tokens, and so are the bodies of their methods.
-/

namespace FrontendSync.Php

open Token (AllWellFormed)

namespace Brackets

theorem group_fst_subset (depth : Nat) (ts : List Token) : (group depth ts).1 ⊆ ts := by
  fun_induction group depth ts with
  | case1 => exact List.Subset.refl []
  | case3 => exact List.nil_subset _
  | case2 _ t _ _ _ _ heq ih | case4 t _ _ _ _ _ _ heq ih | case5 _ t _ _ _ _ _ heq ih =>
    rw [heq] at ih
    exact List.cons_subset_cons t ih

theorem statement_fst_subset (depth : Nat) (ts : List Token) : (statement depth ts).1 ⊆ ts := by
  induction ts generalizing depth with
  | nil => exact List.Subset.refl []
  | cons t ts ih =>
    rw [statement]
    split
    · exact List.nil_subset _
    · exact List.cons_subset_cons t (ih _)

end Brackets

/-! ## Members -/

structure CaseDecl.WellFormed (c : CaseDecl) : Prop where
  name : IsNameText c.name
  value : ∀ v, c.value = some (.ok v) → v.WellFormed

structure MethodDecl.WellFormed (m : MethodDecl) : Prop where
  name : IsNameText m.name
  body : ∀ ts, m.body = some ts → AllWellFormed ts

theorem MethodDecl.WellFormed.bodyTokens {m : MethodDecl} (h : m.WellFormed) :
    AllWellFormed (m.body.getD []) := by
  cases hbody : m.body with
  | none => exact .nil
  | some ts => exact h.body ts hbody

structure Members.WellFormed (m : Members) : Prop where
  cases : ∀ c ∈ m.cases, c.WellFormed
  methods : ∀ d ∈ m.methods, d.WellFormed

section Members

variable {ctx : Context} {ts : List Token}

theorem wellFormed_wholeValue (hctx : ctx.WellFormed) (h : AllWellFormed ts) {v : Value}
    (hv : CaseDecl.wholeValue ctx ts = .ok v) : v.WellFormed := by
  have hread := Expression.wellFormed_read hctx h
  unfold CaseDecl.wholeValue at hv
  split at hv
  · rename_i heq
    rw [heq] at hread
    obtain rfl := Except.ok.inj hv
    exact hread.1
  · simp at hv
  · simp at hv

theorem CaseDecl.wellFormed_ofTokens (hctx : ctx.WellFormed) (doc : Option String)
    (h : AllWellFormed ts) : (CaseDecl.ofTokens ctx doc ts).WellFormed := by
  constructor
  · cases ts with
    | nil => exact isNameText_empty
    | cons t ts =>
      simp only [ofTokens, List.head?_cons, Option.bind_some]
      cases hname : t.name? with
      | none => exact isNameText_empty
      | some name => exact Token.isNameText_of_name? h.head hname
  · intro v hv
    unfold ofTokens at hv
    simp only at hv
    split at hv
    · split at hv
      · exact wellFormed_wholeValue hctx h.tail.tail (Option.some.inj hv)
      · simp at hv
    · simp at hv

namespace MethodDecl

theorem readBody_fst_subset {ts us : List Token} (h : (readBody ts).1 = some us) : us ⊆ ts := by
  unfold readBody at h
  split at h
  · simp at h
  · rename_i t rest
    split at h
    · obtain rfl := Option.some.inj h
      exact List.subset_cons_of_subset t (Brackets.group_fst_subset 0 rest)
    · simp at h

theorem wellFormed_readFrom {name : String} (hname : IsNameText name) (isPublic isStatic : Bool)
    (line : Nat) (h : AllWellFormed ts) :
    ∀ d, (readFrom name isPublic isStatic line ts).1 = some d → d.WellFormed := by
  unfold readFrom
  split
  · simp
  · rename_i t rest
    split
    · have hafter : AllWellFormed (afterType (Brackets.group 0 rest).2) :=
        h.tail.of_suffix ((afterType_suffix _).trans (Brackets.group_suffix 0 rest))
      rintro d hd
      obtain rfl := Option.some.inj hd
      exact ⟨hname, fun us hus ↦ hafter.of_subset (readBody_fst_subset hus)⟩
    · simp

theorem wellFormed_read (isPublic isStatic : Bool) (line : Nat) (h : AllWellFormed ts) :
    ∀ d, (read isPublic isStatic line ts).1 = some d → d.WellFormed := by
  have hreference := h.of_suffix (afterReference_suffix ts)
  unfold read
  split
  · simp
  · rename_i t rest heq
    rw [heq] at hreference
    split
    · simp
    · rename_i name hname
      exact wellFormed_readFrom (Token.isNameText_of_name? hreference.head hname) isPublic isStatic
        line hreference.tail

end MethodDecl

namespace Members

theorem WellFormed.addCase {m : Members} (h : m.WellFormed) {c : CaseDecl} (hc : c.WellFormed) :
    (Members.addCase c m).WellFormed :=
  ⟨List.forall_mem_cons.mpr ⟨hc, h.cases⟩, h.methods⟩

theorem WellFormed.addMethod {m : Members} (h : m.WellFormed) {d : Option MethodDecl}
    (hd : ∀ e, d = some e → e.WellFormed) : (Members.addMethod d m).WellFormed := by
  refine ⟨h.cases, fun e he ↦ ?_⟩
  rcases List.mem_append.mp he with he | he
  · exact hd e (Option.mem_toList.mp he)
  · exact h.methods e he

theorem wellFormed_read (hctx : ctx.WellFormed) (doc : Option String) (isPublic isStatic : Bool)
    (h : AllWellFormed ts) : (read ctx doc isPublic isStatic ts).WellFormed := by
  fun_induction read ctx doc isPublic isStatic ts with
  | case1 => exact ⟨by simp [none], by simp [none]⟩
  | case3 _ _ _ _ rest _ _ ih => exact ih (h.tail.of_suffix (Brackets.group_suffix 0 rest))
  | case4 doc _ _ _ rest _ _ _ _ ih =>
    exact (ih (h.tail.of_suffix (Brackets.statement_suffix 0 rest))).addCase
      (CaseDecl.wellFormed_ofTokens hctx doc
        (h.tail.of_subset (Brackets.statement_fst_subset 0 rest)))
  | case5 _ _ _ _ rest _ _ _ _ ih | case6 _ _ _ _ rest _ _ _ _ ih =>
    exact ih (h.tail.of_suffix (Brackets.statement_suffix 0 rest))
  | case7 _ isPublic isStatic t rest _ _ _ _ ih =>
    have hrest := MethodDecl.read_suffix isPublic isStatic t.line rest
    exact (ih (h.tail.of_suffix hrest)).addMethod
      (MethodDecl.wellFormed_read isPublic isStatic t.line h.tail)
  | _ =>
    -- every other token is passed over
    rename_i ih
    exact ih h.tail

end Members

end Members

/-! ## Enums -/

structure EnumDecl.WellFormed (e : EnumDecl) : Prop where
  name : IsNameText e.name
  cases : ∀ c ∈ e.cases, c.WellFormed
  methods : ∀ m ∈ e.methods, m.WellFormed

section Files

variable {scope : Scope} {attributes : List Attribute} {doc : Option String} {ts : List Token}

namespace EnumDecl

theorem wellFormed_read? (h : AllWellFormed ts) {r : EnumDecl × List Token}
    (hr : read? scope attributes doc ts = some r) : r.1.WellFormed := by
  obtain ⟨t, rest, name, group, rfl, hname, hgroup, members, rfl, rfl⟩ := exists_of_read? hr
  obtain ⟨brace, inside, hbrace, rfl⟩ := exists_of_braces? hgroup
  have hctx : Context.WellFormed
      ⟨scope, some (Name.inside scope.space name), fun _ _ ↦ none⟩ := by
    rintro _ _ _ hnone
    simp at hnone
  have hinside : AllWellFormed (brace :: inside) :=
    h.tail.of_suffix (hbrace.trans (readType_suffix rest))
  obtain ⟨hcases, hmethods⟩ := Members.wellFormed_read hctx none true false
    (hinside.tail.of_subset (Brackets.group_fst_subset 0 inside))
  exact ⟨Token.isNameText_of_name? h.head hname, hcases, hmethods⟩

end EnumDecl

namespace SourceFile

theorem wellFormed_read (s : FileState) (h : AllWellFormed ts) :
    ∀ e ∈ (read s ts).enums, e.WellFormed := by
  fun_induction read s ts with
  | case1 => simp
  | case3 s _ rest _ _ _ ih => exact ih (h.tail.of_suffix (Brackets.group_suffix 0 rest))
  | case6 _ _ rest _ _ _ _ ih => exact ih (h.tail.of_suffix (FileState.afterNamespace_suffix rest))
  | case7 _ _ rest _ _ _ _ _ ih => exact ih (h.tail.of_suffix (Brackets.splitAt_suffix _ rest))
  | case9 _ _ _ _ _ _ _ hr _ ih =>
    exact List.forall_mem_cons.mpr ⟨EnumDecl.wellFormed_read? h.tail hr,
      ih (h.tail.of_suffix (EnumDecl.read?_suffix hr))⟩
  | _ =>
    -- no other token declares an enum
    rename_i ih
    exact ih h.tail

/-- Every enum of a source is well-formed. -/
theorem wellFormed_of_mem_ofSource {source : String} {e : EnumDecl}
    (h : e ∈ (ofSource source).enums) : e.WellFormed :=
  wellFormed_read FileState.start (allWellFormed_tokens source) e h

end SourceFile

end Files

end FrontendSync.Php
